/-
What the buffers hold, mode by mode. Between two tags only the text and what is
held of a tag may wait; inside a start tag only what has been read of that tag;
nothing is left over from a tag that has ended (`Fits`).

This is so after whatever calls, refused characters among them, up to a
`finish`. That empties the buffers and leaves the mode, so behind it the two
need not fit until the tokenizer is reset (`fits_after_calls`).
-/
import Mathlib.Data.List.Induction
import Hypertext.Proofs.Markup.Orderly

namespace Hypertext.Markup

open Automaton Buffers

/-! ## What fits a mode -/

/-- The name of a start tag: letters and digits, one at least. -/
structure TagName (tag : String) : Prop where
  ne : tag ≠ ""
  alphanum : ∀ c ∈ tag.toList, c.isAlphanum = true

/-- A value that has begun. A quoted one has no quote like its own in it; one that is not has begun
with something other than a quote, and has come to no blank and no `>`. -/
inductive Begun : Option Char → String → Prop where
  | quoted {quote value} : quote ∈ ['"', '\''] → quote ∉ value.toList → Begun (some quote) value
  | bare {value c cs} : value.toList = c :: cs → c ∉ ['"', '\''] →
    (∀ x ∈ value.toList, isBlank x = false ∧ x ≠ '>') → Begun none value

/-- The modes in which the name of an attribute is under way or known, and its value is not. -/
def nameModes : List Mode :=
  [.attributeName, .afterName, .beforeValue]

/-- In each mode, the buffers that are not empty, and what they hold. -/
inductive Fits : Position → Prop where
  | text text : Fits ⟨.text, { text }⟩
  | rawText e text : Fits ⟨.rawText e, { text }⟩
  | tagOpen text : Fits ⟨.tagOpen, { text, held := "<" }⟩
  | endTag text {name} : (∀ c ∈ name.toList, c.isAlphanum = true) →
    Fits ⟨.endTag, { text, held := "</" ++ name, endTag := name }⟩
  | rawEnd e text {held matched} : matched ≤ e.name.length + 1 → held.length = matched + 1 →
    held.toLower.toList = ("</" ++ e.name).toList.take (matched + 1) →
    Fits ⟨.rawEnd e matched, { text, held }⟩
  | startTag {tag} : TagName tag → Fits ⟨.startTag, { tag }⟩
  | between {tag attributes} : TagName tag → (∀ a ∈ attributes, ProperName a.name) →
    Fits ⟨.betweenAttributes, { tag, attributes }⟩
  | name {mode tag attributes name} : mode ∈ nameModes → TagName tag →
    (∀ a ∈ attributes, ProperName a.name) → ProperName name → Fits ⟨mode, { tag, attributes, name }⟩
  | value {tag attributes name value quote} : TagName tag → (∀ a ∈ attributes, ProperName a.name) →
    ProperName name → Begun quote value → Fits ⟨.value, { tag, attributes, name, value, quote }⟩

section Names

variable {tag name value : String} {quote : Option Char} {c : Char} {attributes : List Attribute}

theorem TagName.first (hc : c.isAlphanum = true) : TagName (.ofList [c]) :=
  ⟨by simp, by simpa using hc⟩

theorem TagName.push (h : TagName tag) (hc : c.isAlphanum = true) : TagName (tag.push c) where
  ne := by simp
  alphanum x hx := by
    rw [String.toList_push] at hx
    rcases List.mem_append.mp hx with hx | hx
    · exact h.alphanum x hx
    · rw [List.mem_singleton.mp hx, hc]

theorem Begun.single (hquote : c ∉ ['"', '\'']) (hblank : isBlank c = false) (hgt : c ≠ '>') :
    Begun none (.singleton c) :=
  .bare (String.toList_singleton c) hquote (by simp [hblank, hgt])

/-- One more character of a quoted value. -/
theorem Begun.push {q : Char} (h : Begun (some q) value) (hc : c ≠ q) :
    Begun (some q) (value.push c) := by
  cases h with
  | quoted hquote hvalue =>
    refine .quoted hquote ?_
    rw [String.toList_push]
    simp [hvalue, hc.symm]

/-- What ends a value without quotes is not a quote. -/
theorem Begun.ne_quote {q : Char} (h : Begun (some q) value) (hc : isBlank c = true ∨ c = '>') :
    c ≠ q := by
  cases h with
  | quoted hquote =>
    rintro rfl
    simp only [List.mem_cons, List.not_mem_nil, or_false] at hquote
    rcases hquote with rfl | rfl <;> exact absurd hc (by decide)

/-- One more character of a value without quotes. -/
theorem Begun.pushBare (h : Begun none value) (hblank : isBlank c = false) (hgt : c ≠ '>') :
    Begun none (value.push c) := by
  cases h with
  | bare hchars hfirst hall =>
    refine .bare (by rw [String.toList_push, hchars, List.cons_append]) hfirst fun x hx => ?_
    rw [String.toList_push] at hx
    rcases List.mem_append.mp hx with hx | hx
    · exact hall x hx
    · rw [List.mem_singleton.mp hx]
      exact ⟨hblank, hgt⟩

/-- The attribute under way is put to the others. -/
theorem fits_endAttribute (value : String) (quote : Option Char) (htag : TagName tag)
    (h : ∀ a ∈ attributes, ProperName a.name) (hname : ProperName name) :
    Fits ⟨.betweenAttributes, endAttribute { tag, attributes, name, value, quote }⟩ := by
  simp only [endAttribute, if_neg hname.ne]
  refine .between htag fun a ha => ?_
  rcases List.mem_append.mp ha with ha | ha
  · exact h a ha
  · rw [List.mem_singleton.mp ha]
    exact hname

end Names

/-! ## Texts and what may be a tag -/

section Texts

variable {u : List Char} {e : RawText} {p : Position}

theorem Pending.fits (h : Pending u p) : Fits p := by
  cases h with
  | text u => exact .text _
  | «open» u => exact .tagOpen _
  | close u name hname =>
    have hheld : String.ofList ('<' :: '/' :: name) = "</" ++ .ofList name := by
      rw [← String.toList_inj]
      simp
    rw [endTagAt, hheld]
    exact .endTag _ (by simpa using hname)

theorem length_closing (e : RawText) : e.closing.length = e.name.length + 2 := by
  rw [← String.length_toList]
  simp [RawText.closing]

/-- The end tag of a raw text element, but for its end. -/
theorem take_end {matched : Nat} (h : matched ≤ e.name.length + 1) :
    ("</" ++ e.name).toList.take (matched + 1) = '<' :: e.closing.take matched := by
  have hchars : ("</" ++ e.name).toList = '<' :: '/' :: e.name.toList := String.toList_append
  rw [← String.length_toList] at h
  rw [hchars, List.take_succ_cons, RawText.closing, List.take_append_of_le_length h]

theorem RawPending.fits (h : RawPending e u p) : Fits p := by
  cases h with
  | text u => exact .rawText e _
  | close u read hread hlower =>
    have hread' : read.length ≤ e.name.length + 1 := by
      have hlength := length_closing e
      omega
    refine .rawEnd e _ hread' ?_ ?_
    · rw [← String.length_toList, String.toList_ofList, List.length_cons]
    · rw [Case.toList_toLower, String.toList_ofList, List.map_cons, hlower, take_end hread']
      rfl

/-- Where no start tag is under way a text is, in a raw text element or not. -/
theorem Fits.pending_or (h : Fits p) :
    (∃ u, Pending u p) ∨ (∃ e u, RawPending e u p) ∨ p.state = .startTag ∨
      p.state ∈ attributeModes := by
  cases h with
  | text text => exact .inl ⟨text.toList, by simpa using Pending.text text.toList⟩
  | tagOpen text => exact .inl ⟨_, by simpa using Pending.open text.toList⟩
  | @endTag text name hname =>
    have hheld : String.ofList ('<' :: '/' :: name.toList) = "</" ++ name := by
      rw [← String.toList_inj]
      simp
    have hpending := Pending.close text.toList name.toList hname
    simp only [endTagAt, String.ofList_toList, hheld] at hpending
    exact .inl ⟨_, hpending⟩
  | rawText e text => exact .inr (.inl ⟨e, text.toList, by simpa using RawPending.text text.toList⟩)
  | @rawEnd e text held matched hmatched hlength hlower =>
    rw [Case.toList_toLower, take_end hmatched] at hlower
    obtain ⟨c, read, hchars, hc, hread⟩ := List.map_eq_cons_iff.mp hlower
    obtain rfl : c = '<' := by
      have hc := Case.eq_or_eq_upper_of_lower hc
      rwa [show '<'.toUpper = '<' from rfl, or_self] at hc
    rw [← String.length_toList, hchars, List.length_cons] at hlength
    obtain rfl : read.length = matched := by omega
    have hshort : read.length < e.closing.length := by
      rw [length_closing]
      omega
    have hclose := RawPending.close text.toList read hshort hread
    rw [← hchars, String.ofList_toList, String.ofList_toList] at hclose
    exact .inr (.inl ⟨e, _, hclose⟩)
  | startTag => exact .inr (.inr (.inl rfl))
  | name hmode =>
    refine .inr (.inr (.inr ?_))
    simp only [nameModes, List.mem_cons, List.not_mem_nil, or_false] at hmode
    rcases hmode with rfl | rfl | rfl <;> simp [attributeModes]
  | _ => exact .inr (.inr (.inr (by simp [attributeModes])))

end Texts

/-! ## Start tags -/

section Tags

variable {mode : Mode} {tag name value : String} {attributes : List Attribute} {quote : Option Char}
  {c : Char} {rules : ModeRules} {transition : Transition Char Mode Buffers Token} {p : Position}

theorem fits_start : Fits tokenizer.start :=
  .text ""

/-- After a start tag. -/
theorem fits_modeAfter (tag : String) : Fits ⟨modeAfter tag, {}⟩ := by
  rw [modeAfter]
  cases RawText.ofTag? tag with
  | none => exact .text ""
  | some e => exact .rawText e ""

/-- The name of an attribute begins. -/
theorem Fits.beginName {b : Buffers} (h : Fits ⟨.betweenAttributes, b⟩) (hc : c.isAlphanum = true) :
    Fits ⟨.attributeName, (addName c b).data⟩ := by
  cases h with
  | between htag hattributes => exact .name (by simp [nameModes]) htag hattributes (.first hc)
  | name hmode => simp [nameModes] at hmode

theorem fits_of_select_startTag (htag : TagName tag) (hselect : startTagRules.select c = some transition) :
    let o := transition.action c { tag }
    Fits ⟨o.target.getD transition.target, o.data⟩ := by
  rcases cases_of_select hselect with ⟨row, hrow, rfl, haccepts⟩ | ⟨hother, -⟩
  · simp only [startTagRules, List.mem_cons, List.not_mem_nil, or_false] at hrow
    rcases hrow with rfl | rfl | rfl | rfl
    · exact .startTag (htag.push haccepts)
    · exact .between htag (by simp)
    · exact .between htag (by simp)
    · exact fits_modeAfter tag
  · cases hother

theorem fits_of_select_between (htag : TagName tag) (hattributes : ∀ a ∈ attributes, ProperName a.name)
    (hselect : betweenAttributesRules.select c = some transition) :
    let o := transition.action c { tag, attributes }
    Fits ⟨o.target.getD transition.target, o.data⟩ := by
  rcases cases_of_select hselect with ⟨row, hrow, rfl, haccepts⟩ | ⟨hother, -⟩
  · simp only [betweenAttributesRules, List.mem_cons, List.not_mem_nil, or_false] at hrow
    rcases hrow with rfl | rfl | rfl | rfl
    · exact (Fits.between htag hattributes).beginName haccepts
    · exact .between htag hattributes
    · exact .between htag hattributes
    · exact fits_modeAfter tag
  · cases hother

theorem fits_of_select_name (hmode : mode ∈ nameModes) (htag : TagName tag)
    (hattributes : ∀ a ∈ attributes, ProperName a.name) (hname : ProperName name)
    (hrules : mode.rules = some rules) (hselect : rules.select c = some transition) :
    let o := transition.action c { tag, attributes, name }
    Fits ⟨o.target.getD transition.target, o.data⟩ := by
  have hended := fits_endAttribute "" none htag hattributes hname
  simp only [nameModes, List.mem_cons, List.not_mem_nil, or_false] at hmode
  rcases hmode with rfl | rfl | rfl <;> cases hrules <;>
    rcases cases_of_select hselect with ⟨row, hrow, rfl, haccepts⟩ | ⟨hother, hnone⟩
  · simp only [attributeNameRules, List.mem_cons, List.not_mem_nil, or_false] at hrow
    rcases hrow with rfl | rfl | rfl | rfl | rfl
    · exact .name List.mem_cons_self htag hattributes (hname.push haccepts)
    · exact .name (by simp [nameModes]) htag hattributes hname
    · exact .name (by simp [nameModes]) htag hattributes hname
    · exact hended
    · exact fits_modeAfter tag
  · cases hother
  · simp only [afterNameRules, List.mem_cons, List.not_mem_nil, or_false] at hrow
    rcases hrow with rfl | rfl | rfl | rfl | rfl
    · exact hended.beginName haccepts
    · exact .name (by simp [nameModes]) htag hattributes hname
    · exact .name (by simp [nameModes]) htag hattributes hname
    · exact hended
    · exact fits_modeAfter tag
  · cases hother
  · simp only [beforeValueRules, List.mem_cons, List.not_mem_nil, or_false] at hrow
    rcases hrow with rfl | rfl | rfl
    · exact .name (by simp [nameModes]) htag hattributes hname
    · exact .value htag hattributes hname (.quoted (by simpa [Pattern.accepts] using haccepts) (by simp))
    · exact fits_modeAfter tag
  · cases hother
    simp only [beforeValueRules, List.forall_mem_cons, Pattern.accepts] at hnone
    obtain ⟨hblank, hquote, hgt, -⟩ := hnone
    have hbegun : Begun none (.singleton c) :=
      .single (by simpa using hquote) hblank (Ne.symm (of_decide_eq_false hgt))
    exact .value htag hattributes hname hbegun

theorem fits_of_select_value (htag : TagName tag)
    (hattributes : ∀ a ∈ attributes, ProperName a.name) (hname : ProperName name)
    (hvalue : Begun quote value) (hselect : valueRules.select c = some transition) :
    let o := transition.action c { tag, attributes, name, value, quote }
    Fits ⟨o.target.getD transition.target, o.data⟩ := by
  have hended := fits_endAttribute value quote htag hattributes hname
  rcases cases_of_select hselect with ⟨row, hrow, rfl, haccepts⟩ | ⟨hother, hnone⟩
  · simp only [valueRules, List.mem_cons, List.not_mem_nil, or_false] at hrow
    rcases hrow with rfl | rfl
    · cases quote with
      | none => exact hended
      | some q =>
        exact .value htag hattributes hname (hvalue.push (hvalue.ne_quote (.inl haccepts)))
    · cases quote with
      | none => exact fits_modeAfter tag
      | some q =>
        have hc : c = '>' := (of_decide_eq_true haccepts).symm
        exact .value htag hattributes hname (hvalue.push (hvalue.ne_quote (.inr hc)))
  · cases hother
    simp only [valueRules, List.forall_mem_cons, Pattern.accepts] at hnone
    obtain ⟨hblank, hgt, -⟩ := hnone
    dsimp only
    split
    · exact hended
    · next hquote =>
      refine .value htag hattributes hname ?_
      cases quote with
      | none => exact hvalue.pushBare hblank (Ne.symm (of_decide_eq_false hgt))
      | some q => exact hvalue.push fun hc => hquote (congrArg some hc.symm)

/-- Whatever the transitions of a start tag do, it fits. -/
theorem Fits.of_select {b : Buffers} (h : Fits ⟨mode, b⟩)
    (hmode : mode = .startTag ∨ mode ∈ attributeModes) (hrules : mode.rules = some rules)
    (hselect : rules.select c = some transition) :
    let o := transition.action c b
    Fits ⟨o.target.getD transition.target, o.data⟩ := by
  cases h with
  | startTag htag =>
    cases hrules
    exact fits_of_select_startTag htag hselect
  | between htag hattributes =>
    cases hrules
    exact fits_of_select_between htag hattributes hselect
  | name hname htag hattributes hproper =>
    exact fits_of_select_name hname htag hattributes hproper hrules hselect
  | value htag hattributes hproper hvalue =>
    cases hrules
    exact fits_of_select_value htag hattributes hproper hvalue hselect
  | _ => simp [attributeModes] at hmode

end Tags

/-! ## One character -/

/-- The modes some characters are refused in. -/
def strictModes : List Mode :=
  [.startTag, .betweenAttributes, .attributeName, .afterName]

section Steps

variable {p q : Position} {c : Char} {rules : ModeRules} {tokens : List Token}

/-- The table has the mode. -/
theorem Fits.known (h : Fits p) : ∃ rules, p.state.rules = some rules := by
  cases h with
  | @rawEnd e text held matched hmatched =>
    have hlt : matched < e.closing.length := by
      rw [length_closing]
      omega
    simp [Mode.rules, rawEndRules, List.getElem?_eq_getElem hlt]
  | name hmode =>
    simp only [nameModes, List.mem_cons, List.not_mem_nil, or_false] at hmode
    rcases hmode with rfl | rfl | rfl <;> exact ⟨_, rfl⟩
  | _ => exact ⟨_, rfl⟩

theorem Reads.step_eq (h : Reads p [c] tokens q) :
    tokenizer.step p c = { configuration := q, events := tokens } := by
  obtain ⟨q', first, later, hstep, hnil, rfl⟩ := h.uncons
  obtain ⟨rfl, rfl⟩ := hnil.eq_of_nil
  rw [hstep, List.append_nil]

/-- What is refused changes nothing. -/
theorem step_of_select_eq_none (hrules : p.state.rules = some rules) (hselect : rules.select c = none) :
    tokenizer.step p c = { configuration := p, fault := some (.noTransition p.state c) } := by
  simp only [Machine.step, tokenizer, hrules, hselect]

theorem mem_strictModes (hmode : p.state = .startTag ∨ p.state ∈ attributeModes)
    (hrules : p.state.rules = some rules) (hselect : rules.select c = none) :
    p.state ∈ strictModes := by
  have hother : rules.otherwise = none := by
    rw [Rules.select] at hselect
    split at hselect
    · cases hselect
    · exact hselect
  simp only [attributeModes, List.mem_cons, List.not_mem_nil, or_false] at hmode
  rcases hmode with h | h | h | h | h | h <;> rw [h] at hrules ⊢ <;> cases hrules
  · simp [strictModes]
  · simp [strictModes]
  · simp [strictModes]
  · simp [strictModes]
  · cases hother
  · cases hother

/-- A character leads from buffers that fit to buffers that fit, or, in a strict mode, is refused and
changes nothing. -/
theorem Fits.step (h : Fits p) (c : Char) :
    (∃ q tokens, tokenizer.step p c = { configuration := q, events := tokens } ∧ Fits q) ∨
      p.state ∈ strictModes ∧
        tokenizer.step p c = { configuration := p, fault := some (.noTransition p.state c) } := by
  rcases h.pending_or with ⟨u, hpending⟩ | ⟨e, u, hpending⟩ | hmode
  · left
    rcases hpending.next c with ⟨q, hread, hnext⟩ | ⟨v, -, hc, hread⟩ | ⟨v, name, -, -, -, hread⟩
    · exact ⟨_, _, hread.step_eq, hnext.fits⟩
    · exact ⟨_, _, hread.step_eq, .startTag (.first hc)⟩
    · exact ⟨_, _, hread.step_eq, .text ""⟩
  · left
    rcases hpending.next c with ⟨q, hread, hnext⟩ | ⟨v, read, -, -, hread⟩
    · exact ⟨_, _, hread.step_eq, hnext.fits⟩
    · exact ⟨_, _, hread.step_eq, .text ""⟩
  · obtain ⟨rules, hrules⟩ := h.known
    cases hselect : rules.select c with
    | none => exact .inr ⟨mem_strictModes hmode hrules hselect, step_of_select_eq_none hrules hselect⟩
    | some transition =>
      have hfits := h.of_select hmode hrules hselect
      obtain ⟨rules', hrules'⟩ := hfits.known
      exact .inl ⟨_, _, Markup.step_eq hrules hselect hrules', hfits⟩

/-- Also what is refused leaves buffers that fit. -/
theorem Fits.after_step (h : Fits p) (c : Char) : Fits (tokenizer.step p c).configuration := by
  rcases h.step c with ⟨q, tokens, hstep, hfits⟩ | ⟨-, hstep⟩
  · rwa [hstep]
  · rwa [hstep]

end Steps

/-! ## Calls -/

/-- What can be asked of a tokenizer. -/
inductive Call where
  | read (c : Char)
  | finish
  | reset
  deriving DecidableEq, Repr

/-- Where a call leaves the tokenizer, whether or not it refuses a character. -/
def Call.apply (p : Position) : Call → Position
  | .read c => (tokenizer.step p c).configuration
  | .finish => (tokenizer.finish p).configuration
  | .reset => tokenizer.start

/-- Whether a `finish` has come and no `reset` since, if it was so before the call or not. -/
def Call.finishes (before : Bool) : Call → Bool
  | .read _ => before
  | .finish => true
  | .reset => false

/-- Where the calls leave a new tokenizer. -/
def positionAfter (calls : List Call) : Position :=
  calls.foldl Call.apply tokenizer.start

def finished (calls : List Call) : Bool :=
  calls.foldl Call.finishes false

/-- Nothing is read between a `finish` and the next `reset`. -/
def Serial (calls : List Call) : Prop :=
  ∀ before c after, calls = before ++ .read c :: after → finished before = false

section Calls

variable {calls : List Call} {call : Call} {c : Char}

theorem positionAfter_concat (calls : List Call) (call : Call) :
    positionAfter (calls ++ [call]) = call.apply (positionAfter calls) := by
  simp [positionAfter]

theorem finished_concat (calls : List Call) (call : Call) :
    finished (calls ++ [call]) = call.finishes (finished calls) := by
  simp [finished]

theorem Serial.nil : Serial [] :=
  fun before c after heq => by simp at heq

theorem Serial.concat (h : Serial calls) (hcall : ∀ c, call = .read c → finished calls = false) :
    Serial (calls ++ [call]) := by
  intro before c after heq
  rcases place_of_split heq with ⟨more, hcalls, -⟩ | ⟨rfl, hlast, -⟩ | hnone
  · exact h before c more hcalls
  · exact hcall c hlast.symm
  · cases hnone

theorem Serial.init (h : Serial (calls ++ [call])) : Serial calls :=
  fun before c after heq => h before c (after ++ [call]) (by simp [heq])

theorem Serial.not_finished (h : Serial (calls ++ [.read c])) : finished calls = false :=
  h calls c [] rfl

/-- **The buffers fit the mode** after whatever calls, until a `finish`. That leaves the mode as it
was and all buffers empty, up to the next `reset`. -/
theorem fits_after_calls (h : Serial calls) :
    (finished calls = false → Fits (positionAfter calls)) ∧
      (finished calls = true → ∃ before after, calls = before ++ .finish :: after ∧
        finished before = false ∧ (∀ call ∈ after, call = .finish) ∧
        positionAfter calls = ⟨(positionAfter before).state, {}⟩) := by
  induction calls using List.reverseRecOn with
  | nil => exact ⟨fun _ => fits_start, fun h => Bool.noConfusion h⟩
  | append_singleton calls call ih =>
    obtain ⟨hfits, hfinished⟩ := ih h.init
    rw [positionAfter_concat, finished_concat]
    cases call with
    | read c =>
      have hnot := h.not_finished
      refine ⟨fun _ => (hfits hnot).after_step c, fun hyes => ?_⟩
      rw [Call.finishes, hnot] at hyes
      cases hyes
    | finish =>
      refine ⟨fun hnot => Bool.noConfusion hnot, fun _ => ?_⟩
      cases hcalls : finished calls with
      | false => exact ⟨calls, [], rfl, hcalls, by simp, rfl⟩
      | true =>
        -- a second `finish` finds the buffers empty
        obtain ⟨before, after, rfl, hbefore, hafter, hposition⟩ := hfinished hcalls
        refine ⟨before, after ++ [.finish], by simp, hbefore, ?_, by rw [hposition]; rfl⟩
        simpa [or_imp, forall_and] using hafter
    | reset => exact ⟨fun _ => fits_start, fun hyes => Bool.noConfusion hyes⟩

theorem serial_finish : Serial [.read '<', .finish] :=
  (Serial.nil.concat fun _ _ => rfl).concat nofun

theorem serial_reset : Serial [.read '<', .finish, .reset, .read '<'] := by
  have hreset : Serial ([.read '<', .finish] ++ [.reset]) := serial_finish.concat nofun
  exact hreset.concat fun _ _ => rfl

theorem fits_after_reset :
    Fits (positionAfter [.read '<', .finish, .reset, .read '<']) ∧
      ∃ before after, [.read '<', .finish] = before ++ Call.finish :: after ∧
        finished before = false ∧ (∀ call ∈ after, call = .finish) ∧
        positionAfter [.read '<', .finish] = ⟨(positionAfter before).state, {}⟩ :=
  ⟨(fits_after_calls serial_reset).1 rfl, (fits_after_calls serial_finish).2 rfl⟩

/-- Behind a `finish` a tag may be open with nothing held of it. -/
theorem not_held_of_finish : ¬ ∀ calls, Serial calls → (positionAfter calls).state = .tagOpen →
    (positionAfter calls).data.held = "<" := by
  intro h
  have hheld : (positionAfter [.read '<', .finish]).data.held = "<" := h _ serial_finish rfl
  exact absurd hheld (by decide)

end Calls

end Hypertext.Markup
