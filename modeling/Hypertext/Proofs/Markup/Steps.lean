/-
The tokenizer one character at a time: for each mode what each kind of
character does there. Runs are put together from these (`Reads`).
-/
import Hypertext.Markup.Located
import Hypertext.Proofs.Text.Case

namespace Hypertext.Markup

open Automaton Buffers

/-! ## Runs -/

/-- The characters lead from one position to the other, with these tokens on the way. -/
def Reads (p : Position) (cs : List Char) (tokens : List Token) (q : Position) : Prop :=
  tokenizer.run p cs = { configuration := q, events := tokens }

section Runs

variable {p q r : Position} {c : Char} {cs ds : List Char} {tokens later : List Token}

theorem Reads.nil (p : Position) : Reads p [] [] p := rfl

theorem Reads.cons (h : tokenizer.step p c = { configuration := q, events := tokens })
    (hlater : Reads q cs later r) : Reads p (c :: cs) (tokens ++ later) r := by
  simp only [Reads] at hlater ⊢
  simp only [Machine.run, h, hlater]

theorem Reads.single (h : tokenizer.step p c = { configuration := q, events := tokens }) :
    Reads p [c] tokens q := by
  simpa using Reads.cons h (.nil q)

theorem Reads.eq_of_nil (h : Reads p [] tokens q) : p = q ∧ tokens = [] := by
  simp only [Reads, Machine.run, Step.mk.injEq] at h
  exact ⟨h.1, h.2.1.symm⟩

/-- The first step of a run, and the rest of it. -/
theorem Reads.uncons (h : Reads p (c :: cs) tokens r) : ∃ q first later,
    tokenizer.step p c = { configuration := q, events := first } ∧ Reads q cs later r ∧
      tokens = first ++ later := by
  simp only [Reads, Machine.run] at h
  cases hstep : tokenizer.step p c with
  | mk q first fault =>
    rw [hstep] at h
    cases fault with
    | some fault => simp at h
    | none =>
      simp only [Step.mk.injEq] at h
      obtain ⟨hr, htokens, hfault⟩ := h
      refine ⟨q, first, _, rfl, ?_, htokens.symm⟩
      rw [Reads, ← hr, ← hfault]

theorem Reads.append (h : Reads p cs tokens q) (hlater : Reads q ds later r) :
    Reads p (cs ++ ds) (tokens ++ later) r := by
  induction cs generalizing p tokens with
  | nil =>
    obtain ⟨rfl, rfl⟩ := h.eq_of_nil
    exact hlater
  | cons c cs ih =>
    obtain ⟨q', first, rest, hstep, hrest, rfl⟩ := h.uncons
    rw [List.cons_append, List.append_assoc]
    exact .cons hstep (ih hrest)

/-- What comes after a part that is known. -/
theorem Reads.after (h : Reads p (cs ++ ds) tokens r) {first : List Token}
    (hfirst : Reads p cs first q) : ∃ later, Reads q ds later r ∧ tokens = first ++ later := by
  induction cs generalizing p tokens first with
  | nil =>
    obtain ⟨rfl, rfl⟩ := hfirst.eq_of_nil
    exact ⟨tokens, h, rfl⟩
  | cons c cs ih =>
    obtain ⟨q', start, rest, hstep, hrest, rfl⟩ := h.uncons
    obtain ⟨q'', start', rest', hstep', hrest', rfl⟩ := hfirst.uncons
    rw [hstep', Step.mk.injEq] at hstep
    obtain ⟨rfl, rfl, -⟩ := hstep
    obtain ⟨later, hlater, rfl⟩ := ih hrest hrest'
    exact ⟨later, hlater, by rw [List.append_assoc]⟩

/-- What reading a whole document gives where it runs through. -/
theorem Reads.readFrom (h : Reads p cs tokens q) (index : Nat) :
    (readFrom p index cs).refused = none ∧
      (readFrom p index cs).tokens.map (·.2) = tokens ++ textTokens (q.data.text ++ q.data.held) := by
  induction cs generalizing p tokens index with
  | nil =>
    obtain ⟨rfl, rfl⟩ := h.eq_of_nil
    simp [Markup.readFrom, Machine.finish, tokenizer, flush]
  | cons c cs ih =>
    obtain ⟨q', first, rest, hstep, hrest, rfl⟩ := h.uncons
    obtain ⟨hrefused, htokens⟩ := ih hrest (index + 1)
    simp only [Markup.readFrom, hstep]
    exact ⟨hrefused, by simp [htokens]⟩

end Runs

/-! ## Steps -/

section Steps

variable {b : Buffers} {c : Char}

theorem slash_ne_of_isAlphanum (h : c.isAlphanum = true) : '/' ≠ c := by
  intro heq
  subst heq
  simp at h

theorem not_isNameChar_of_isBlank (h : isBlank c = true) : isNameChar c = false := by
  simp only [isBlank, Bool.or_eq_true, beq_iff_eq] at h
  rcases h with (((rfl | rfl) | rfl) | rfl) | rfl <;> decide

theorem not_isAlphanum_of_isBlank (h : isBlank c = true) : c.isAlphanum = false := by
  have hname := not_isNameChar_of_isBlank h
  simp only [isNameChar, Bool.or_eq_false_iff] at hname
  exact hname.1.1.1.1

/-- A step along the selected transition, whose target is in the table. -/
theorem step_eq {mode : Mode} {rules rules' : ModeRules}
    {transition : Transition Char Mode Buffers Token} (hrules : mode.rules = some rules)
    (hselect : rules.select c = some transition)
    (hnext : ((transition.action c b).target.getD transition.target).rules = some rules') :
    tokenizer.step ⟨mode, b⟩ c =
      { configuration :=
          ⟨(transition.action c b).target.getD transition.target, (transition.action c b).data⟩
        events := (transition.action c b).events } := by
  simp only [Machine.step, tokenizer, hrules, hselect, hnext]

/-! ### Text and what may be a tag -/

theorem step_text_lt : tokenizer.step ⟨.text, b⟩ '<' =
    { configuration := ⟨.tagOpen, { b with held := b.held.push '<' }⟩ } := rfl

theorem step_text (h : c ≠ '<') : tokenizer.step ⟨.text, b⟩ c =
    { configuration := ⟨.text, { b with text := b.text.push c }⟩ } := by
  simp [Machine.step, tokenizer, Mode.rules, textRules, Rules.select, Pattern.accepts, h.symm,
    addText]

theorem step_tagOpen_slash : tokenizer.step ⟨.tagOpen, b⟩ '/' =
    { configuration := ⟨.endTag, { b with held := b.held.push '/' }⟩ } := rfl

theorem step_tagOpen_name (h : c.isAlphanum = true) : tokenizer.step ⟨.tagOpen, b⟩ c =
    { configuration := ⟨.startTag, { b with text := "", held := "", tag := b.tag.push c }⟩
      events := textTokens b.text } := by
  simp [Machine.step, tokenizer, Mode.rules, tagOpenRules, Rules.select, Pattern.accepts, h,
    slash_ne_of_isAlphanum h, openTag]

theorem step_tagOpen_lt : tokenizer.step ⟨.tagOpen, b⟩ '<' =
    { configuration :=
        ⟨.tagOpen, { b with text := b.text ++ b.held, held := "<", endTag := "" }⟩ } := rfl

theorem step_tagOpen (hslash : c ≠ '/') (hname : c.isAlphanum = false) (hlt : c ≠ '<') :
    tokenizer.step ⟨.tagOpen, b⟩ c =
      { configuration :=
          ⟨.text, { b with text := (b.text ++ b.held).push c, held := "", endTag := "" }⟩ } := by
  simp [Machine.step, tokenizer, Mode.rules, tagOpenRules, Rules.select, Pattern.accepts, hname,
    hslash.symm, release, hlt]

theorem step_endTag_name (h : c.isAlphanum = true) : tokenizer.step ⟨.endTag, b⟩ c =
    { configuration :=
        ⟨.endTag, { b with held := b.held.push c, endTag := b.endTag.push c }⟩ } := by
  simp [Machine.step, tokenizer, Mode.rules, endTagRules, Rules.select, Pattern.accepts, h,
    addEndTag]

theorem step_endTag_gt : tokenizer.step ⟨.endTag, b⟩ '>' =
    { configuration := ⟨.text, {}⟩
      events := textTokens b.text ++ if b.endTag = "" then [] else [.endTag b.endTag.toUpper] } := rfl

theorem step_endTag_lt : tokenizer.step ⟨.endTag, b⟩ '<' =
    { configuration :=
        ⟨.tagOpen, { b with text := b.text ++ b.held, held := "<", endTag := "" }⟩ } := rfl

theorem step_endTag (hname : c.isAlphanum = false) (hgt : c ≠ '>') (hlt : c ≠ '<') :
    tokenizer.step ⟨.endTag, b⟩ c =
      { configuration :=
          ⟨.text, { b with text := (b.text ++ b.held).push c, held := "", endTag := "" }⟩ } := by
  simp [Machine.step, tokenizer, Mode.rules, endTagRules, Rules.select, Pattern.accepts, hname,
    hgt.symm, release, hlt]

/-! ### Start tags -/

@[simp] theorem isVoid_toUpper (tag : String) : isVoid tag.toUpper = isVoid tag := by
  rw [isVoid, Case.toUpper_toUpper, isVoid]

/-- How a document goes on after a start tag. -/
def modeAfter (tag : String) : Mode :=
  ((RawText.ofTag? tag).map Mode.rawText).getD .text

/-- The tokens of a start tag. -/
def startTokens (tag : String) (attributes : List Attribute) : List Token :=
  .startTag tag.toUpper attributes :: if isVoid tag.toUpper then [.endTag tag.toUpper] else []

theorem step_startTag_name (h : c.isAlphanum = true) : tokenizer.step ⟨.startTag, b⟩ c =
    { configuration := ⟨.startTag, { b with tag := b.tag.push c }⟩ } := by
  simp [Machine.step, tokenizer, Mode.rules, startTagRules, Rules.select, Pattern.accepts, h, addTag]

theorem step_startTag_blank (h : isBlank c = true) : tokenizer.step ⟨.startTag, b⟩ c =
    { configuration := ⟨.betweenAttributes, b⟩ } := by
  simp [Machine.step, tokenizer, Mode.rules, startTagRules, Rules.select, Pattern.accepts, h,
    not_isAlphanum_of_isBlank h]

theorem isSome_rules_modeAfter (tag : String) : ∃ rules, (modeAfter tag).rules = some rules := by
  simp only [modeAfter, RawText.ofTag?]
  split
  · exact ⟨_, rfl⟩
  · split <;> exact ⟨_, rfl⟩

theorem step_startTag_gt : tokenizer.step ⟨.startTag, b⟩ '>' =
    { configuration := ⟨modeAfter b.tag, {}⟩, events := startTokens b.tag b.attributes } := by
  obtain ⟨rules, hrules⟩ := isSome_rules_modeAfter b.tag
  have hselect : startTagRules.select '>' = some ⟨.text, fun _ b => finishStartTag b⟩ := rfl
  exact step_eq rfl hselect hrules

theorem step_between_name (h : c.isAlphanum = true) : tokenizer.step ⟨.betweenAttributes, b⟩ c =
    { configuration := ⟨.attributeName, { b with name := b.name.push c }⟩ } := by
  simp [Machine.step, tokenizer, Mode.rules, betweenAttributesRules, Rules.select, Pattern.accepts,
    h, addName]

theorem step_between_skip (h : isBlank c = true ∨ c = '/') :
    tokenizer.step ⟨.betweenAttributes, b⟩ c = { configuration := ⟨.betweenAttributes, b⟩ } := by
  rcases h with h | rfl
  · simp [Machine.step, tokenizer, Mode.rules, betweenAttributesRules, Rules.select,
      Pattern.accepts, h, not_isAlphanum_of_isBlank h]
  · rfl

theorem step_between_gt : tokenizer.step ⟨.betweenAttributes, b⟩ '>' =
    { configuration := ⟨modeAfter b.tag, {}⟩, events := startTokens b.tag b.attributes } := by
  obtain ⟨rules, hrules⟩ := isSome_rules_modeAfter b.tag
  have hselect : betweenAttributesRules.select '>' = some ⟨.text, fun _ b => finishStartTag b⟩ := rfl
  exact step_eq rfl hselect hrules

theorem step_name (h : isNameChar c = true) : tokenizer.step ⟨.attributeName, b⟩ c =
    { configuration := ⟨.attributeName, { b with name := b.name.push c }⟩ } := by
  simp [Machine.step, tokenizer, Mode.rules, attributeNameRules, Rules.select, Pattern.accepts, h,
    addName]

/-! Where the name of an attribute may be complete -/

section Named

variable {mode : Mode} (hmode : mode = .attributeName ∨ mode = .afterName)
include hmode

theorem step_named_blank (h : isBlank c = true) : tokenizer.step ⟨mode, b⟩ c =
    { configuration := ⟨.afterName, b⟩ } := by
  rcases hmode with rfl | rfl <;>
    simp [Machine.step, tokenizer, Mode.rules, attributeNameRules, afterNameRules, Rules.select,
      Pattern.accepts, h, not_isNameChar_of_isBlank h, not_isAlphanum_of_isBlank h]

theorem step_named_equals : tokenizer.step ⟨mode, b⟩ '=' =
    { configuration := ⟨.beforeValue, b⟩ } := by
  rcases hmode with rfl | rfl <;> rfl

theorem step_named_gt : tokenizer.step ⟨mode, b⟩ '>' =
    { configuration := ⟨modeAfter b.tag, {}⟩
      events := startTokens b.tag b.endAttribute.attributes } := by
  obtain ⟨rules, hrules⟩ := isSome_rules_modeAfter b.tag
  rcases hmode with rfl | rfl
  · have hselect : attributeNameRules.select '>' =
        some ⟨.text, fun _ b => finishStartTag b.endAttribute⟩ := rfl
    exact step_eq rfl hselect hrules
  · have hselect : afterNameRules.select '>' =
        some ⟨.text, fun _ b => finishStartTag b.endAttribute⟩ := rfl
    exact step_eq rfl hselect hrules

end Named

theorem step_afterName_slash : tokenizer.step ⟨.afterName, b⟩ '/' =
    { configuration := ⟨.betweenAttributes, b.endAttribute⟩ } := rfl

theorem step_afterName_name (h : c.isAlphanum = true) : tokenizer.step ⟨.afterName, b⟩ c =
    { configuration :=
        ⟨.attributeName, { b.endAttribute with name := b.endAttribute.name.push c }⟩ } := by
  simp [Machine.step, tokenizer, Mode.rules, afterNameRules, Rules.select, Pattern.accepts, h,
    addName]

theorem step_beforeValue_blank (h : isBlank c = true) : tokenizer.step ⟨.beforeValue, b⟩ c =
    { configuration := ⟨.beforeValue, b⟩ } := by
  simp [Machine.step, tokenizer, Mode.rules, beforeValueRules, Rules.select, Pattern.accepts, h]

theorem step_beforeValue_bare (hblank : isBlank c = false) (hquote : c ∉ ['"', '\''])
    (hgt : c ≠ '>') : tokenizer.step ⟨.beforeValue, b⟩ c =
      { configuration := ⟨.value, { b with quote := none, value := .singleton c }⟩ } := by
  simp [Machine.step, tokenizer, Mode.rules, beforeValueRules, Rules.select, Pattern.accepts,
    hblank, hquote, hgt.symm, beginBare]

theorem step_beforeValue_quote (h : c = '"' ∨ c = '\'') : tokenizer.step ⟨.beforeValue, b⟩ c =
    { configuration := ⟨.value, { b with quote := some c, value := "" }⟩ } := by
  rcases h with rfl | rfl <;> rfl

theorem step_value_quoted {quote : Char} (hquote : b.quote = some quote) (h : c ≠ quote) :
    tokenizer.step ⟨.value, b⟩ c =
      { configuration := ⟨.value, { b with value := b.value.push c }⟩ } := by
  by_cases hblank : isBlank c = true
  · simp [Machine.step, tokenizer, Mode.rules, valueRules, Rules.select, Pattern.accepts, hblank,
      hquote, addValue]
  · by_cases hgt : '>' = c
    · subst hgt
      simp [Machine.step, tokenizer, Mode.rules, valueRules, Rules.select, Pattern.accepts, hblank,
        hquote, addValue]
    · simp [Machine.step, tokenizer, Mode.rules, valueRules, Rules.select, Pattern.accepts, hblank,
        hquote, addValue, hgt, h.symm]

theorem step_value_end {quote : Char} (hquote : b.quote = some quote)
    (h : quote = '"' ∨ quote = '\'') : tokenizer.step ⟨.value, b⟩ quote =
      { configuration := ⟨.betweenAttributes, b.endAttribute⟩ } := by
  rcases h with rfl | rfl <;>
    simp [Machine.step, tokenizer, Mode.rules, valueRules, Rules.select, Pattern.accepts, isBlank,
      hquote, endValue]

/-! A value without quotes -/

theorem step_value_bare (hquote : b.quote = none) (hblank : isBlank c = false) (hgt : c ≠ '>') :
    tokenizer.step ⟨.value, b⟩ c =
      { configuration := ⟨.value, { b with value := b.value.push c }⟩ } := by
  simp [Machine.step, tokenizer, Mode.rules, valueRules, Rules.select, Pattern.accepts, hblank,
    hgt.symm, hquote, addValue]

theorem step_value_blank (hquote : b.quote = none) (h : isBlank c = true) :
    tokenizer.step ⟨.value, b⟩ c =
      { configuration := ⟨.betweenAttributes, b.endAttribute⟩ } := by
  simp [Machine.step, tokenizer, Mode.rules, valueRules, Rules.select, Pattern.accepts, h, hquote,
    endValue]

theorem step_value_gt (hquote : b.quote = none) : tokenizer.step ⟨.value, b⟩ '>' =
    { configuration := ⟨modeAfter b.tag, {}⟩
      events := startTokens b.tag b.endAttribute.attributes } := by
  obtain ⟨rules, hrules⟩ := isSome_rules_modeAfter b.tag
  have hselect : valueRules.select '>' = some ⟨.text, fun c b =>
      if b.quote.isSome then { addValue c b with target := some .value }
      else finishStartTag b.endAttribute⟩ := rfl
  cases b
  cases hquote
  exact step_eq rfl hselect hrules

/-! ### Raw text -/

theorem step_rawText_lt (e : RawText) : tokenizer.step ⟨.rawText e, b⟩ '<' =
    { configuration := ⟨.rawEnd e 0, { b with held := b.held.push '<' }⟩ } := by
  cases e <;> rfl

theorem step_rawText (e : RawText) (h : c ≠ '<') : tokenizer.step ⟨.rawText e, b⟩ c =
    { configuration := ⟨.rawText e, { b with text := b.text.push c }⟩ } := by
  simp [Machine.step, tokenizer, Mode.rules, rawTextRules, Rules.select, Pattern.accepts, h.symm,
    addText]

/-- What comes in the end tag of a raw text element, in either case. -/
theorem mem_closing_iff {e : RawText} {d : Char} (hd : d ∈ e.closing) :
    c ∈ [d, d.toUpper] ↔ c.toLower = d := by
  have hlower : e.closing.all fun d => d.toLower = d ∧ d.toUpper.toLower = d := by
    cases e <;> decide
  obtain ⟨hd, hdu⟩ := of_decide_eq_true (List.all_eq_true.mp hlower d hd)
  simp only [List.mem_cons, List.not_mem_nil, or_false]
  constructor
  · rintro (rfl | rfl)
    · exact hd
    · exact hdu
  · exact Case.eq_or_eq_upper_of_lower

theorem ne_gt_of_closing {e : RawText} {m : Nat} {d : Char} (hd : e.closing[m]? = some d)
    (hm : m + 1 < e.closing.length) : d ≠ '>' := by
  have h : ∀ m < e.closing.length - 1, e.closing[m]? ≠ some '>' := by
    cases e <;> decide
  intro heq
  subst heq
  exact h m (by omega) hd

theorem ne_lt_of_closing {e : RawText} {d : Char} (hd : d ∈ e.closing) : d ≠ '<' ∧ d.toUpper ≠ '<' := by
  have h : e.closing.all fun d => d ≠ '<' ∧ d.toUpper ≠ '<' := by
    cases e <;> decide
  exact of_decide_eq_true (List.all_eq_true.mp h d hd)

variable {e : RawText} {m : Nat} {d : Char}

theorem step_rawEnd_match (hd : e.closing[m]? = some d) (hc : c.toLower = d)
    (hm : m + 1 < e.closing.length) : tokenizer.step ⟨.rawEnd e m, b⟩ c =
      { configuration := ⟨.rawEnd e (m + 1), { b with held := b.held.push c }⟩ } := by
  have hmem := (mem_closing_iff (List.mem_of_getElem? hd)).mpr hc
  simp [Machine.step, tokenizer, Mode.rules, rawEndRules, hd, Rules.select, Pattern.accepts,
    hmem, ne_gt_of_closing hd hm, hm, hold]

theorem step_rawEnd_last (hm : m + 1 = e.closing.length) :
    tokenizer.step ⟨.rawEnd e m, b⟩ '>' =
      { configuration := ⟨.text, {}⟩, events := textTokens b.text ++ [.endTag e.name.toUpper] } := by
  obtain rfl : m = e.closing.length - 1 := by omega
  cases e <;> rfl

theorem step_rawEnd_lt (hm : m < e.closing.length) : tokenizer.step ⟨.rawEnd e m, b⟩ '<' =
    { configuration :=
        ⟨.rawEnd e 0, { b with text := b.text ++ b.held, held := "<", endTag := "" }⟩ } := by
  have hd := List.getElem?_eq_getElem hm
  obtain ⟨hne, hneu⟩ := ne_lt_of_closing (List.mem_of_getElem? hd)
  have hnot : '<' ∉ [e.closing[m], e.closing[m].toUpper] := by simp [hne.symm, hneu.symm]
  have hslash : e.closing[0]? = some '/' := rfl
  simp [Machine.step, tokenizer, Mode.rules, rawEndRules, hd, Rules.select, Pattern.accepts, hnot,
    release, hslash]

theorem step_rawEnd (hd : e.closing[m]? = some d) (hc : c.toLower ≠ d) (hlt : c ≠ '<') :
    tokenizer.step ⟨.rawEnd e m, b⟩ c =
      { configuration :=
          ⟨.rawText e, { b with text := (b.text ++ b.held).push c, held := "", endTag := "" }⟩ } := by
  have hmem := mt (mem_closing_iff (c := c) (List.mem_of_getElem? hd)).mp hc
  simp [Machine.step, tokenizer, Mode.rules, rawEndRules, hd, Rules.select, Pattern.accepts, hmem,
    release, hlt]

end Steps

end Hypertext.Markup
