/-
Documents that cannot be read to their end. There is just one way to that: the
mode the characters so far lead to has no transition for the next one. Which
character it is and how it failed is settled by the characters up to it; the
window around it is a stretch of the document. The parser, whoever watches it,
breaks off where the tokenizer does, and only there (`refusals_located`).

What a character can do, if it is not refused, is told once for all modes
(`cut_of_select`). So the table is closed: from whatever buffers, a transition
leads to a mode that is in it.
-/
import Hypertext.Proofs.Markup.Fitting
import Hypertext.Markup.Parser

namespace Hypertext.Markup

open Automaton Buffers

/-! ## The table is closed -/

/-- The table has the mode. -/
def Mode.Known (mode : Mode) : Prop :=
  ∃ rules, mode.rules = some rules

section Table

variable {mode : Mode} {p : Position} {c : Char} {rules : ModeRules}
  {transition : Transition Char Mode Buffers Token}

theorem known_attributeMode (h : mode ∈ attributeModes) : mode.Known := by
  simp only [attributeModes, List.mem_cons, List.not_mem_nil, or_false] at h
  rcases h with rfl | rfl | rfl | rfl | rfl <;> exact ⟨_, rfl⟩

theorem known_rawEnd {e : RawText} {matched : Nat} (h : matched < e.closing.length) :
    (Mode.rawEnd e matched).Known := by
  simp [Mode.Known, Mode.rules, rawEndRules, List.getElem?_eq_getElem h]

/-- What was no tag leads on to text, or to what may be the next tag. -/
theorem known_release {retry : Mode} (hmode : mode.Known) (hretry : retry.Known) (b : Buffers) :
    ((release retry c b).target.getD mode).Known := by
  simp only [release]
  split
  · exact hretry
  · exact hmode

theorem Spelled.known {b data : Buffers} {mode' : Mode} {tokens : List Token}
    (h : Spelled c b mode mode' data tokens) : mode'.Known := by
  cases h with
  | along _ _ hmode => exact known_attributeMode hmode
  | last => exact isSome_rules_modeAfter b.tag
  | lastPast => exact isSome_rules_modeAfter b.tag
  | _ => exact ⟨_, rfl⟩

/-- Only with its `>` an end tag of a raw text element is complete. -/
theorem succ_lt_of_ne_gt {e : RawText} {matched : Nat} {expected : Char}
    (hexpected : e.closing[matched]? = some expected) (hgt : expected ≠ '>') :
    matched + 1 < e.closing.length := by
  have hlast : e.closing[e.closing.length - 1]? = some '>' := by cases e <;> rfl
  obtain ⟨hlt, -⟩ := List.getElem?_eq_some_iff.mp hexpected
  by_contra hnot
  obtain rfl : matched = e.closing.length - 1 := by omega
  exact hgt (Option.some.inj (hexpected.symm.trans hlast))

/-- What a character does: the modes before it and after it, the buffers after it, and its tokens. -/
inductive Cut (c : Char) (b : Buffers) : Mode → Mode → Buffers → List Token → Prop where
  | text : Cut c b .text .text (addText c b).data []
  | opening : Cut c b .text .tagOpen (hold c b).data []
  | closing : Cut c b .tagOpen .endTag (hold c b).data []
  | released {mode mode' retry} : mode'.Known → retry.Known →
    Cut c b mode ((release retry c b).target.getD mode') (release retry c b).data []
  | name : Cut c b .tagOpen .startTag (openTag c b).data (textTokens b.text)
  | more : Cut c b .startTag .startTag (addTag c b).data []
  | named : Cut c b .startTag .betweenAttributes b []
  | started : c = '>' → Cut c b .startTag (modeAfter b.tag) {} (startTokens b.tag b.attributes)
  | inTag {mode mode' data tokens} : Spelled c b mode mode' data tokens →
    Cut c b mode mode' data tokens
  | endName : Cut c b .endTag .endTag (addEndTag c b).data []
  | ended : c = '>' → Cut c b .endTag .text {} (finishEndTag b).events
  | rawText {e} : Cut c b (.rawText e) (.rawText e) (addText c b).data []
  | rawOpening {e} : Cut c b (.rawText e) (.rawEnd e 0) (hold c b).data []
  | rawMatched {e matched} : matched + 1 < e.closing.length →
    Cut c b (.rawEnd e matched) (.rawEnd e (matched + 1)) (hold c b).data []
  | rawEnded {e matched} : c = '>' → Cut c b (.rawEnd e matched) .text {} (finishRawText e b).events

theorem cut_of_row (hattribute : mode ∉ attributeModes) (hrules : mode.rules = some rules)
    {pattern : Pattern Char} (hrow : (pattern, transition) ∈ rules.rows)
    (haccepts : pattern.accepts c = true) (b : Buffers) :
    let o := transition.action c b
    Cut c b mode (o.target.getD transition.target) o.data o.events := by
  cases mode with
  | text =>
    cases hrules
    cases List.mem_singleton.mp hrow
    exact .opening
  | tagOpen =>
    cases hrules
    simp only [tagOpenRules, List.mem_cons, List.not_mem_nil, or_false] at hrow
    rcases hrow with h | h <;> cases h
    · exact .closing
    · exact .name
  | endTag =>
    cases hrules
    simp only [endTagRules, List.mem_cons, List.not_mem_nil, or_false] at hrow
    rcases hrow with h | h <;> cases h
    · exact .endName
    · exact .ended (of_decide_eq_true haccepts).symm
  | startTag =>
    cases hrules
    simp only [startTagRules, List.mem_cons, List.not_mem_nil, or_false] at hrow
    rcases hrow with h | h | h | h <;> cases h
    · exact .more
    · exact .named
    · exact .named
    · exact .started (of_decide_eq_true haccepts).symm
  | rawText e =>
    cases hrules
    cases List.mem_singleton.mp hrow
    exact .rawOpening
  | rawEnd e matched =>
    obtain ⟨expected, hexpected, rfl⟩ := Option.map_eq_some_iff.mp hrules
    cases List.mem_singleton.mp hrow
    by_cases hgt : expected = '>'
    · subst hgt
      exact .rawEnded (by simpa [Pattern.accepts] using haccepts)
    · rw [if_neg hgt]
      exact .rawMatched (succ_lt_of_ne_gt hexpected hgt)
  | _ => simp [attributeModes] at hattribute

theorem cut_of_otherwise (hattribute : mode ∉ attributeModes) (hrules : mode.rules = some rules)
    (hother : rules.otherwise = some transition) (c : Char) (b : Buffers) :
    let o := transition.action c b
    Cut c b mode (o.target.getD transition.target) o.data o.events := by
  have hreleased : ∀ {mode mode' retry : Mode}, mode'.Known → retry.Known →
      let o := release retry c b
      Cut c b mode (o.target.getD mode') o.data o.events := by
    intro mode mode' retry hmode hretry o
    have hevents : o.events = [] := by
      simp only [o, release]
      split <;> rfl
    rw [hevents]
    exact .released hmode hretry
  cases mode with
  | text =>
    cases hrules
    cases hother
    exact .text
  | tagOpen | endTag =>
    cases hrules
    cases hother
    exact hreleased ⟨_, rfl⟩ ⟨_, rfl⟩
  | rawText e =>
    cases hrules
    cases hother
    exact .rawText
  | rawEnd e matched =>
    obtain ⟨expected, -, rfl⟩ := Option.map_eq_some_iff.mp hrules
    cases hother
    exact hreleased ⟨_, rfl⟩ (known_rawEnd (Nat.zero_lt_succ _))
  | startTag =>
    cases hrules
    cases hother
  | _ => simp [attributeModes] at hattribute

/-- All that can happen at a character that is not refused. -/
theorem cut_of_select (hrules : mode.rules = some rules) (hselect : rules.select c = some transition)
    (b : Buffers) :
    let o := transition.action c b
    Cut c b mode (o.target.getD transition.target) o.data o.events := by
  by_cases hattribute : mode ∈ attributeModes
  · exact .inTag (spelled_of_select hattribute hrules hselect)
  · rcases mem_of_select hselect with ⟨row, hrow, rfl, haccepts⟩ | hother
    · exact cut_of_row hattribute hrules hrow haccepts b
    · exact cut_of_otherwise hattribute hrules hother c b

theorem Cut.known {b data : Buffers} {mode' : Mode} {tokens : List Token}
    (h : Cut c b mode mode' data tokens) : mode'.Known := by
  cases h with
  | released hmode hretry => exact known_release hmode hretry b
  | started => exact isSome_rules_modeAfter b.tag
  | inTag hspelled => exact hspelled.known
  | rawOpening => exact known_rawEnd (Nat.zero_lt_succ _)
  | rawMatched hlt => exact known_rawEnd hlt
  | _ => exact ⟨_, rfl⟩

/-- Wherever a transition leads, whatever the buffers, there is a table. -/
theorem known_of_select (hrules : mode.rules = some rules) (hselect : rules.select c = some transition)
    (b : Buffers) : ((transition.action c b).target.getD transition.target).Known :=
  (cut_of_select hrules hselect b).known

/-- A character leads from a mode of the table to one, or has no transition. -/
theorem known_step (h : p.state.Known) (c : Char) :
    (tokenizer.step p c).configuration.state.Known ∧
      ∀ mode, (tokenizer.step p c).fault ≠ some (.unknownState mode) := by
  obtain ⟨rules, hrules⟩ := h
  cases hselect : rules.select c with
  | none =>
    rw [step_of_select_eq_none hrules hselect]
    exact ⟨⟨rules, hrules⟩, nofun⟩
  | some transition =>
    obtain ⟨rules', hrules'⟩ := known_of_select hrules hselect p.data
    rw [step_eq hrules hselect hrules']
    exact ⟨⟨rules', hrules'⟩, nofun⟩

/-- Whatever has been called, finished documents that were read on among it. -/
theorem known_positionAfter (calls : List Call) : (positionAfter calls).state.Known := by
  induction calls using List.reverseRecOn with
  | nil => exact ⟨_, rfl⟩
  | append_singleton calls call ih =>
    rw [positionAfter_concat]
    cases call with
    | read c => exact (known_step ih c).1
    | finish => exact ih
    | reset => exact ⟨_, rfl⟩

end Table

/-! ## What is refused -/

section Refusals

variable {p q : Position} {c : Char} {cs before after : List Char} {tokens : List Token} {index : Nat}

theorem Fits.reads (h : Fits p) (hread : Reads p cs tokens q) : Fits q := by
  induction cs generalizing p tokens with
  | nil =>
    obtain ⟨rfl, -⟩ := hread.eq_of_nil
    exact h
  | cons c cs ih =>
    obtain ⟨q', first, later, hstep, hlater, -⟩ := hread.uncons
    refine ih ?_ hlater
    have hnext := h.after_step c
    rwa [hstep] at hnext

/-- The place of a refusal depends on no more than the characters up to it. -/
theorem Reads.refused (h : Reads p before tokens q) {fault : Fault Char Mode}
    (hfault : (tokenizer.step q c).fault = some fault) (after : List Char) (index : Nat) :
    (Markup.readFrom p index (before ++ c :: after)).refused = some (index + before.length, fault) := by
  induction before generalizing p tokens index with
  | nil =>
    obtain ⟨rfl, -⟩ := h.eq_of_nil
    simp [Markup.readFrom, hfault]
  | cons d before ih =>
    obtain ⟨q', first, later, hstep, hlater, -⟩ := h.uncons
    simp only [List.cons_append, Markup.readFrom, hstep, ih hlater]
    rw [List.length_cons, Nat.add_right_comm, Nat.add_assoc]

/-- What comes before a refused character is read. -/
theorem exists_refused {i : Nat} {fault : Fault Char Mode}
    (h : (readFrom p index cs).refused = some (i, fault)) : ∃ before c after tokens q,
      cs = before ++ c :: after ∧ Reads p before tokens q ∧ i = index + before.length ∧
        (tokenizer.step q c).fault = some fault := by
  induction cs generalizing p index with
  | nil => simp [readFrom] at h
  | cons c cs ih =>
    rw [readFrom] at h
    cases hstep : tokenizer.step p c with
    | mk q events refused =>
      rw [hstep] at h
      cases refused with
      | some refused =>
        simp only [Option.some.injEq, Prod.mk.injEq] at h
        obtain ⟨rfl, rfl⟩ := h
        exact ⟨[], c, cs, [], p, rfl, .nil p, rfl, by rw [hstep]⟩
      | none =>
        obtain ⟨before, d, after, tokens, r, rfl, hread, rfl, hfault⟩ := ih h
        refine ⟨c :: before, d, after, _, r, rfl, .cons hstep hread, ?_, hfault⟩
        rw [List.length_cons]
        omega

/-- The window is a stretch of the document around the place. -/
theorem exists_window (before : List Char) (c : Char) (after : List Char) :
    ∃ left near far right, before = left ++ near ∧ after = far ++ right ∧
      windowAt (before ++ c :: after) before.length = .ofList (near ++ c :: far) ∧
      (near ++ c :: far).length ≤ 40 := by
  obtain ⟨left, near, hbefore, hleft, hnear⟩ : ∃ left near, before = left ++ near ∧
      left.length = before.length - 20 ∧ near.length ≤ 20 := by
    refine ⟨_, _, (List.take_append_drop (before.length - 20) before).symm, ?_, ?_⟩
    · rw [List.length_take]
      omega
    · rw [List.length_drop]
      omega
  refine ⟨left, near, after.take (39 - near.length), after.drop (39 - near.length), hbefore,
    (List.take_append_drop _ _).symm, ?_, ?_⟩
  · have hroom : 40 - near.length = (39 - near.length) + 1 := by omega
    have hdrop : (before ++ c :: after).drop (before.length - 20) = near ++ c :: after := by
      rw [← hleft, hbefore, List.append_assoc, List.drop_left]
    rw [windowAt, hdrop, List.take_append, List.take_of_length_le (by omega), hroom,
      List.take_succ_cons]
  · rw [List.length_append, List.length_cons, List.length_take]
    omega

/-- `c` is refused behind `before`, which is all accepted, and the failure says so: where, in which
mode, and with the characters around, of which there are no more than forty. -/
structure Failure.Locates (f : Failure) (before : List Char) (c : Char) (after : List Char) : Prop where
  index : f.index = before.length
  fault : ∃ tokens q, Reads tokenizer.start before tokens q ∧ q.state ∈ strictModes ∧
    f.fault = .noTransition q.state c
  window : ∃ left near far right, before = left ++ near ∧ after = far ++ right ∧
    f.window = .ofList (near ++ c :: far) ∧ f.window.length ≤ 40

theorem tokensOf_eq_error_iff {input : String} {f : Failure} : tokensOf input = .error f ↔
    (read input.toList).failure? input.toList = some f := by
  simp only [tokensOf]
  cases (read input.toList).failure? input.toList with
  | none => simp
  | some failure => simp

/-- The failure with which a refused character ends a document. -/
theorem tokensOf_refused {fault : Fault Char Mode} (h : Reads tokenizer.start before tokens q)
    (hfault : (tokenizer.step q c).fault = some fault) (after : List Char) :
    tokensOf (.ofList (before ++ c :: after)) =
      .error (.locate (before ++ c :: after) before.length fault) := by
  rw [tokensOf_eq_error_iff, String.toList_ofList, Reading.failure?, read,
    h.refused hfault after 0, Nat.zero_add]
  rfl

/-- A document that fails does so at one of its characters. -/
theorem exists_locates {input : String} {f : Failure} (h : tokensOf input = .error f) :
    ∃ before c after, input.toList = before ++ c :: after ∧ f.Locates before c after ∧
      ∀ more, ∃ window, tokensOf (.ofList (before ++ c :: more)) = .error { f with window } := by
  obtain ⟨⟨i, fault⟩, hrefused, rfl⟩ := Option.map_eq_some_iff.mp (tokensOf_eq_error_iff.mp h)
  obtain ⟨before, c, after, tokens, q, hinput, hread, rfl, hfault⟩ := exists_refused hrefused
  rw [Nat.zero_add, hinput]
  rcases (fits_start.reads hread).step c with ⟨q', events, hstep, -⟩ | ⟨hstrict, hstep⟩
  · rw [hstep] at hfault
    cases hfault
  · obtain rfl : fault = .noTransition q.state c := by
      rw [hstep] at hfault
      exact (Option.some.inj hfault).symm
    refine ⟨before, c, after, rfl, ⟨rfl, ⟨tokens, q, hread, hstrict, rfl⟩, ?_⟩, fun more => ?_⟩
    · obtain ⟨left, near, far, right, hbefore, hafter, hwindow, hlength⟩ := exists_window before c after
      refine ⟨left, near, far, right, hbefore, hafter, hwindow, ?_⟩
      change (windowAt _ _).length ≤ 40
      rw [hwindow, ← String.length_toList, String.toList_ofList]
      exact hlength
    · exact ⟨_, tokensOf_refused hread hfault more⟩

end Refusals

/-- The parser fails where the tokenizer does, whoever watches. -/
theorem parseWith_eq_error_iff {ω : Type} (p : Parser) (observer : Observer ω) (memory : ω)
    {input : String} {f : Failure} :
    (p.parseWith observer memory input).1 = .error f ↔ tokensOf input = .error f := by
  rw [tokensOf_eq_error_iff]
  simp only [Parser.parseWith]
  change _ ↔ (readFrom p.reset.position 0 input.toList).failure? input.toList = some f
  cases (readFrom p.reset.position 0 input.toList).failure? input.toList with
  | none => simp
  | some failure => simp

theorem parseWith_ok_iff {ω : Type} (p : Parser) (observer : Observer ω) (memory : ω) (input : String) :
    (∃ t, (p.parseWith observer memory input).1 = .ok t) ↔ ∃ tokens, tokensOf input = .ok tokens := by
  have hfails := @parseWith_eq_error_iff ω p observer memory input
  cases htokens : tokensOf input with
  | ok tokens =>
    cases hparse : (p.parseWith observer memory input).1 with
    | ok t => simp
    | error f =>
      have herror := hfails.mp hparse
      rw [htokens] at herror
      cases herror
  | error f =>
    rw [hfails.mpr htokens]
    simp

/-- **Failures are located.** No character leads out of the table. Where a document cannot be read
to its end, the characters up to one are read, and that one is refused, at whose place and in whose
surroundings the failure is; however the document goes on behind it, it fails there in the same
way. With whatever observers the parser reads the documents that can be cut into tokens, and fails
as cutting them fails. -/
theorem refusals_located {ω : Type} (p : Parser) (observer : Observer ω) (memory : ω) (input : String) :
    (∀ calls c mode, (tokenizer.step (positionAfter calls) c).fault ≠ some (.unknownState mode)) ∧
    (∀ f, tokensOf input = .error f → ∃ before c after, input.toList = before ++ c :: after ∧
      f.index < input.length ∧ f.Locates before c after ∧
      ∀ more, ∃ window, tokensOf (.ofList (before ++ [c]) ++ more) = .error { f with window }) ∧
    ((∃ t, (p.parseWith observer memory input).1 = .ok t) ↔ ∃ tokens, tokensOf input = .ok tokens) ∧
    ∀ f, (p.parseWith observer memory input).1 = .error f ↔ tokensOf input = .error f := by
  refine ⟨fun calls c => (known_step (known_positionAfter calls) c).2, fun f h => ?_,
    parseWith_ok_iff p observer memory input, fun f => parseWith_eq_error_iff p observer memory⟩
  obtain ⟨before, c, after, hinput, hlocates, hmore⟩ := exists_locates h
  refine ⟨before, c, after, hinput, ?_, hlocates, fun more => ?_⟩
  · rw [hlocates.index, ← String.length_toList, hinput, List.length_append, List.length_cons]
    omega
  · obtain ⟨window, hfails⟩ := hmore more.toList
    have hchars : String.ofList (before ++ [c]) ++ more = .ofList (before ++ c :: more.toList) := by
      rw [← String.toList_inj]
      simp
    exact ⟨window, by rw [hchars, hfails]⟩

/-- In the name of a tag, say. -/
theorem refused_in_name : ∃ f, tokensOf "a<p$" = .error f ∧
    ∃ before c after, "a<p$".toList = before ++ c :: after ∧
      f.index < "a<p$".length ∧ f.Locates before c after ∧
      ∀ more, ∃ window, tokensOf (.ofList (before ++ [c]) ++ more) = .error { f with window } := by
  have hfails : tokensOf "a<p$" = .error ⟨3, "a<p$", .noTransition .startTag '$'⟩ := by decide
  exact ⟨_, hfails, (refusals_located {} (fun _ s => s) () "a<p$").2.1 _ hfails⟩

end Hypertext.Markup
