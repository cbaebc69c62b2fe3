/-
What the tokens of a document are like, whatever the document (`Orderly`). No
tag begins in a text, names are proper, and the content of a raw text element
is at most one text that does not close it, and then its end tag or nothing.

The tokenizer decides on a tag as soon as its characters are there, so of what
it has kept as text none can be a tag: that is the invariant here (`Midway`).
Which way it went is known since reading is determined (`Reads.unique`): the
text before a tag was plain, and it takes plain texts to `Pending` positions.
-/
import Hypertext.Proofs.Markup.Pieces

namespace Hypertext.Markup

open Automaton Buffers

/-! ## Attributes on the way -/

/-- A letter or digit, and then name characters. -/
def ProperName (name : String) : Prop :=
  ∃ c cs, name.toList = c :: cs ∧ c.isAlphanum = true ∧ ∀ x ∈ cs, isNameChar x = true

theorem ProperName.ne {name : String} (h : ProperName name) : name ≠ "" := by
  obtain ⟨c, cs, hchars, -, -⟩ := h
  rintro rfl
  cases hchars

theorem ProperName.first {c : Char} (h : c.isAlphanum = true) : ProperName ("".push c) :=
  ⟨c, [], by simp, h, by simp⟩

theorem ProperName.push {name : String} {c : Char} (h : ProperName name)
    (hc : isNameChar c = true) : ProperName (name.push c) := by
  obtain ⟨d, cs, hchars, hd, hcs⟩ := h
  refine ⟨d, cs ++ [c], by rw [String.toList_push, hchars, List.cons_append], hd, fun x hx => ?_⟩
  rcases List.mem_append.mp hx with hx | hx
  · exact hcs x hx
  · rw [List.mem_singleton.mp hx, hc]

/-- What holds of the attributes before, holds when one more is put to them. -/
def Extends (P : List Attribute → Prop) : Prop :=
  ∀ before a, P before → ProperName a.name → P (before ++ [a])

/-- In a start tag, `P` holds of the attributes so far, and the name of the next one is proper as
soon as it has begun. -/
structure Noted (P : List Attribute → Prop) (mode : Mode) (b : Buffers) : Prop where
  attributes : P b.attributes
  name : if mode = .betweenAttributes then b.name = "" else ProperName b.name

section Noting

variable {P : List Attribute → Prop} {b : Buffers} {mode : Mode} {c : Char}

theorem noted_between (h : P b.attributes) (hname : b.name = "") : Noted P .betweenAttributes b :=
  ⟨h, hname⟩

theorem noted_inside (hmode : mode ≠ .betweenAttributes) (h : P b.attributes)
    (hname : ProperName b.name) : Noted P mode b :=
  ⟨h, by rw [if_neg hmode]; exact hname⟩

theorem Noted.inside (h : Noted P mode b) (hmode : mode ≠ .betweenAttributes) : ProperName b.name := by
  have hname := h.name
  rwa [if_neg hmode] at hname

/-- The attribute under way is one more. -/
theorem Noted.endAttribute (hP : Extends P) (h : Noted P mode b) (hmode : mode ≠ .betweenAttributes) :
    Noted P .betweenAttributes b.endAttribute := by
  refine noted_between ?_ rfl
  simp only [Buffers.endAttribute, if_neg (h.inside hmode).ne]
  exact hP _ _ h.attributes (h.inside hmode)

/-- A name begins. -/
theorem Noted.begun (h : Noted P .betweenAttributes b) (hc : c.isAlphanum = true) :
    Noted P .attributeName (addName c b).data := by
  refine noted_inside (by simp) h.attributes ?_
  have hname : b.name = "" := h.name
  simp only [addName, hname]
  exact .first hc

/-- What a character does goes on like that, or it is a start tag with such attributes. -/
theorem Spelled.noted {mode' : Mode} {data : Buffers} {tokens : List Token} (hP : Extends P)
    (hspelled : Spelled c b mode mode' data tokens) (h : Noted P mode b) :
    (tokens = [] ∧ Noted P mode' data) ∨
      ∃ attributes, P attributes ∧ tokens = startTokens b.tag attributes := by
  cases hspelled with
  | between => exact .inl ⟨rfl, h⟩
  | first hc => exact .inl ⟨rfl, h.begun hc⟩
  | again hc => exact .inl ⟨rfl, (h.endAttribute hP (by simp)).begun hc⟩
  | more hc =>
    have hname := (h.inside (by simp)).push hc
    exact .inl ⟨rfl, noted_inside (by simp) h.attributes hname⟩
  | along hmode hmode' => exact .inl ⟨rfl, noted_inside hmode' h.attributes (h.inside hmode)⟩
  | past hmode => exact .inl ⟨rfl, h.endAttribute hP hmode⟩
  | last => exact .inr ⟨_, h.attributes, rfl⟩
  | lastPast hmode => exact .inr ⟨_, (h.endAttribute hP hmode).attributes, rfl⟩

/-- In a start tag of that name, with such attributes so far. -/
structure Noting (P : List Attribute → Prop) (name : List Char) (p : Position) : Prop
    extends InTag name p where
  noted : Noted P p.state p.data

variable {name cs : List Char} {p q : Position} {tokens : List Token}

theorem startTokens_ne_nil (tag : String) (attributes : List Attribute) :
    startTokens tag attributes ≠ [] := by
  simp [startTokens]

theorem Noting.next (hP : Extends P) (h : Noting P name p) (hread : Reads p [c] tokens q) :
    (tokens = [] ∧ Noting P name q) ∨
      (q = ⟨modeAfter (.ofList name), {}⟩ ∧
        ∃ attributes, P attributes ∧ tokens = startTokens (.ofList name) attributes) := by
  rcases (hread.spelled h.mode).noted hP h.noted with ⟨rfl, hnoted⟩ | ⟨attributes, hattributes, rfl⟩
  · rcases h.toInTag.next hread with ⟨-, hin⟩ | ⟨-, -, attributes, hstart⟩
    · exact .inl ⟨rfl, hin, hnoted⟩
    · exact absurd hstart.symm (startTokens_ne_nil _ _)
  · rcases h.toInTag.next hread with ⟨hnil, -⟩ | ⟨-, hq, -⟩
    · exact absurd hnil (startTokens_ne_nil _ _)
    · exact .inr ⟨hq, attributes, hattributes, by rw [h.tag]⟩

theorem Noting.reads (hP : Extends P) (h : Noting P name p) (hread : Reads p cs tokens q) :
    (tokens = [] ∧ Noting P name q) ∨
      ∃ attributes later, P attributes ∧ tokens = startTokens (.ofList name) attributes ++ later := by
  induction cs generalizing p tokens with
  | nil =>
    obtain ⟨rfl, rfl⟩ := hread.eq_of_nil
    exact .inl ⟨rfl, h⟩
  | cons c cs ih =>
    obtain ⟨q', first, later, hstep, hlater, rfl⟩ := hread.uncons
    rcases h.next hP (.single hstep) with ⟨rfl, h'⟩ | ⟨-, attributes, hattributes, rfl⟩
    · exact ih h' hlater
    · exact .inr ⟨attributes, later, hattributes, rfl⟩

end Noting

/-! ## Texts that stay plain -/

section Texts

variable {u : List Char} {p : Position} {c : Char}

/-- The only ways for one more character to complete a tag. -/
theorem Plain.concat (h : Plain u) (hstart : ∀ v, u = v ++ ['<'] → c.isAlphanum = false)
    (hstop : ∀ v name, u = v ++ '<' :: '/' :: name → (∀ x ∈ name, x.isAlphanum = true) → c ≠ '>') :
    Plain (u ++ [c]) where
  start d hd hi := by
    rcases List.infix_concat_iff.mp hi with ⟨v, hv⟩ | hi
    · have hsplit : (v ++ ['<']) ++ [d] = u ++ [c] := by simpa using hv
      obtain ⟨hu, hc⟩ := List.append_inj' hsplit rfl
      rw [← List.singleton_inj.mp hc, hd] at hstart
      exact absurd (hstart v hu.symm) Bool.noConfusion
    · exact h.start d hd hi
  stop name hname hi := by
    rcases List.infix_concat_iff.mp hi with ⟨v, hv⟩ | hi
    · have hsplit : (v ++ '<' :: '/' :: name) ++ ['>'] = u ++ [c] := by simpa using hv
      obtain ⟨hu, hc⟩ := List.append_inj' hsplit rfl
      exact hstop v name hu.symm hname (List.singleton_inj.mp hc).symm
    · exact h.stop name hname hi

/-- A plain text, read from its beginning, leads to where it is pending. -/
theorem Plain.pending (h : Plain u) (hread : Reads ⟨.text, {}⟩ u [] p) : Pending u p := by
  obtain ⟨q, hq, hpending⟩ := Pending.start.reads (show Plain ([] ++ u) from h)
  obtain ⟨-, rfl⟩ := hread.unique hq
  exact hpending

theorem Plain.reads_lt {v : List Char} (h : Plain v) :
    Reads ⟨.text, {}⟩ (v ++ ['<']) [] ⟨.tagOpen, { text := .ofList v, held := "<" }⟩ := by
  obtain ⟨q, hq, hpending⟩ := Pending.start.reads (show Plain ([] ++ v) from h)
  exact hq.append hpending.lt

/-- One more character leaves a text plain, or it begins the name of a start tag, or it completes an
end tag. -/
theorem Plain.next (h : Plain u) (hread : Reads ⟨.text, {}⟩ u [] p) (c : Char) :
    (Plain (u ++ [c]) ∧ ∃ q, Reads p [c] [] q) ∨
    (∃ v, u = v ++ ['<'] ∧ c.isAlphanum = true ∧
      Reads p [c] (textTokens (.ofList v)) (startTagAt [c])) ∨
    ∃ v name, u = v ++ '<' :: '/' :: name ∧ c = '>' ∧
      Reads p [c] (textTokens (.ofList v) ++
        if name = [] then [] else [.endTag (String.ofList name).toUpper]) ⟨.text, {}⟩ := by
  by_cases hstart : ∃ v, u = v ++ ['<'] ∧ c.isAlphanum = true
  · obtain ⟨v, rfl, hc⟩ := hstart
    obtain ⟨-, rfl⟩ := hread.unique (h.part ⟨[], ['<'], rfl⟩).reads_lt
    exact .inr (.inl ⟨v, rfl, hc, .single (step_tagOpen_name hc)⟩)
  · by_cases hstop : ∃ v name, u = v ++ '<' :: '/' :: name ∧ (∀ x ∈ name, x.isAlphanum = true) ∧ c = '>'
    · obtain ⟨v, name, rfl, hname, rfl⟩ := hstop
      have hv : Plain v := h.part ⟨[], '<' :: '/' :: name, rfl⟩
      have hheld := hv.reads_lt.append (reads_endTagName (u := v) hname)
      rw [List.append_assoc, List.singleton_append] at hheld
      obtain ⟨-, rfl⟩ := hread.unique hheld
      have hstep := step_endTag_gt (b := (endTagAt v name).data)
      simp only [String.ofList_eq_empty_iff] at hstep
      exact .inr (.inr ⟨v, name, rfl, rfl, .single hstep⟩)
    · have hplain : Plain (u ++ [c]) := by
        refine h.concat (fun v hv => ?_) fun v name hv hname hc => hstop ⟨v, name, hv, hname, hc⟩
        exact Bool.eq_false_iff.mpr fun hc => hstart ⟨v, hv, hc⟩
      obtain ⟨q, hq, -⟩ := (h.pending hread).push hplain
      exact .inl ⟨hplain, q, hq⟩

/-! ### Raw texts -/

variable {e : RawText}

theorem RawText.Unclosed.concat (h : e.Unclosed u)
    (hclose : ∀ v read, u = v ++ '<' :: read → (read ++ [c]).map Char.toLower ≠ e.closing) :
    e.Unclosed (u ++ [c]) := by
  intro hi
  rw [List.map_append, List.map_singleton] at hi
  rcases List.infix_concat_iff.mp hi with ⟨v, hv⟩ | hi
  · rw [← List.map_singleton, ← List.map_append] at hv
    obtain ⟨before, after, hsplit, -, hafter⟩ := List.map_eq_append_iff.mp hv.symm
    obtain ⟨lt, rest, rfl, hlt, hrest⟩ := List.map_eq_cons_iff.mp hafter
    have hlt' := Case.eq_or_eq_upper_of_lower hlt
    rw [show '<'.toUpper = '<' from rfl, or_self] at hlt'
    obtain rfl | ⟨read, last, rfl⟩ := List.eq_nil_or_concat rest
    · cases hrest
    · have hsplit' : (before ++ '<' :: read) ++ [last] = u ++ [c] := by simp [hsplit, hlt']
      obtain ⟨hu, hc⟩ := List.append_inj' hsplit' rfl
      rw [List.singleton_inj.mp hc, List.concat_eq_append] at hrest
      exact hclose before read hu.symm hrest
  · exact h hi

theorem RawText.Unclosed.pending (h : e.Unclosed u) (hread : Reads ⟨.rawText e, {}⟩ u [] p) :
    RawPending e u p := by
  obtain ⟨q, hq, hpending⟩ := RawPending.start.reads (show e.Unclosed ([] ++ u) from h)
  obtain ⟨-, rfl⟩ := hread.unique hq
  exact hpending

/-- In what may be the end tag of a raw text element, after a text. -/
abbrev rawEndAt (e : RawText) (u read : List Char) : Position :=
  ⟨.rawEnd e read.length, { text := .ofList u, held := .ofList ('<' :: read) }⟩

/-- As much of an end tag as there is, in whatever letter case, is held. -/
theorem reads_rawEnd (read cs : List Char) (h : (read ++ cs).map Char.toLower <+: e.closing)
    (hmore : (read ++ cs).length < e.closing.length) :
    Reads (rawEndAt e u read) cs [] (rawEndAt e u (read ++ cs)) := by
  induction cs generalizing read with
  | nil =>
    rw [List.append_nil]
    exact .nil _
  | cons c cs ih =>
    obtain ⟨rest, hrest⟩ := h
    have hexpected : e.closing[read.length]? = some c.toLower := by
      rw [← hrest]
      simp
    rw [List.append_cons] at hrest hmore ⊢
    have hnext : read.length + 1 < e.closing.length := by
      simp only [List.length_append, List.length_singleton] at hmore
      omega
    have hstep := step_rawEnd_match (b := (rawEndAt e u read).data) hexpected rfl hnext
    simp only [ofList_push] at hstep
    have hlater := ih (read ++ [c]) ⟨rest, hrest⟩ hmore
    have hlength : (read ++ [c]).length = read.length + 1 := List.length_append
    rw [rawEndAt, hlength] at hlater
    exact .cons hstep hlater

/-- One more character leaves a raw text unclosed, or it completes the element's end tag. -/
theorem RawText.Unclosed.next (h : e.Unclosed u) (hread : Reads ⟨.rawText e, {}⟩ u [] p) (c : Char) :
    (e.Unclosed (u ++ [c]) ∧ ∃ q, Reads p [c] [] q) ∨
    ∃ v read, u = v ++ '<' :: read ∧
      Reads p [c] (textTokens (.ofList v) ++ [.endTag e.name.toUpper]) ⟨.text, {}⟩ := by
  by_cases hclose : ∃ v read, u = v ++ '<' :: read ∧ (read ++ [c]).map Char.toLower = e.closing
  · obtain ⟨v, read, rfl, hclosing⟩ := hclose
    obtain ⟨-, -, -, hgt⟩ := closing_split hclosing
    have hlength : read.length + 1 = e.closing.length := by
      rw [← hclosing]
      simp
    have hv : e.Unclosed ([] ++ v) := h.part ⟨[], '<' :: read, rfl⟩
    obtain ⟨q, hq, hpending⟩ := RawPending.start.reads hv
    have hheld := hq.append (hpending.lt.append (reads_rawEnd (e := e) (u := v) [] read
      (by rw [List.nil_append, ← hclosing, List.map_append]; exact List.prefix_append _ _)
      (by rw [List.nil_append]; omega)))
    obtain ⟨-, rfl⟩ := hread.unique hheld
    rw [hgt]
    exact .inr ⟨v, read, rfl, .single (step_rawEnd_last hlength)⟩
  · have hunclosed : e.Unclosed (u ++ [c]) :=
      h.concat fun v read hv hclosing => hclose ⟨v, read, hv, hclosing⟩
    obtain ⟨q, hq, -⟩ := (h.pending hread).push hunclosed
    exact .inl ⟨hunclosed, q, hq⟩

end Texts

/-! ## Tokens in order -/

/-- Where in a document a token comes: among tags and texts, or in a raw text element, which has got
its text already or not. -/
inductive Phase where
  | markup
  | raw (e : RawText) (said : Bool)

/-- Where the next token comes after a start tag. -/
def Phase.after (tag : String) : Phase :=
  match RawText.ofTag? tag with
  | some e => .raw e false
  | none => .markup

/-- The tokens that can come in a phase, and the phase after each. -/
inductive Turn : Phase → Token → Phase → Prop where
  | text {s} : s ≠ "" → Plain s.toList → Turn .markup (.text s) .markup
  | startTag {tag attributes} : tag ≠ "" → (∀ c ∈ tag.toList, isCapital c = true) →
    (∀ a ∈ attributes, ProperName a.name) → Turn .markup (.startTag tag attributes) (.after tag)
  | endTag {tag} : Turn .markup (.endTag tag) .markup
  | rawText {e s} : s ≠ "" → e.Unclosed s.toList → Turn (.raw e false) (.text s) (.raw e true)
  | rawEnd {e said} : Turn (.raw e said) (.endTag e.name.toUpper) .markup

/-- The tokens come one after the other, and lead from one phase to the other. -/
inductive Orderly : Phase → List Token → Phase → Prop where
  | nil {phase} : Orderly phase [] phase
  | cons {phase phase' phase'' token tokens} : Turn phase token phase' →
    Orderly phase' tokens phase'' → Orderly phase (token :: tokens) phase''

section Orders

variable {phase phase' phase'' : Phase} {tokens later : List Token}

theorem Turn.orderly {token : Token} (h : Turn phase token phase') : Orderly phase [token] phase' :=
  .cons h .nil

theorem Orderly.exists_turn (h : Orderly phase tokens phase') {token : Token} (hmem : token ∈ tokens) :
    ∃ before after, Turn before token after := by
  induction h with
  | nil => cases hmem
  | cons hturn _ ih =>
    rcases List.mem_cons.mp hmem with rfl | hmem
    · exact ⟨_, _, hturn⟩
    · exact ih hmem

/-- Tokens that are in order are so up to anywhere. -/
theorem Orderly.earlier (h : Orderly phase (tokens ++ later) phase'') :
    ∃ phase', Orderly phase tokens phase' := by
  induction tokens generalizing phase with
  | nil => exact ⟨phase, .nil⟩
  | cons token tokens ih =>
    cases h with
    | cons hturn hlater =>
      obtain ⟨phase', hrest⟩ := ih hlater
      exact ⟨phase', .cons hturn hrest⟩

theorem Orderly.append (h : Orderly phase tokens phase') (hlater : Orderly phase' later phase'') :
    Orderly phase (tokens ++ later) phase'' := by
  induction h with
  | nil => exact hlater
  | cons hturn _ ih => exact .cons hturn (ih hlater)

theorem Plain.orderly {u : List Char} (h : Plain u) :
    Orderly .markup (textTokens (.ofList u)) .markup := by
  rw [textTokens]
  split
  · exact .nil
  · next hne => exact (Turn.text hne (by rw [String.toList_ofList]; exact h)).orderly

theorem RawText.Unclosed.orderly {e : RawText} {u : List Char} (h : e.Unclosed u) :
    ∃ said, Orderly (.raw e false) (textTokens (.ofList u)) (.raw e said) := by
  rw [textTokens]
  split
  · exact ⟨false, .nil⟩
  · next hne => exact ⟨true, (Turn.rawText hne (by rw [String.toList_ofList]; exact h)).orderly⟩

theorem isCapital_toUpper {name : List Char} (h : ∀ c ∈ name, c.isAlphanum = true) :
    ∀ c ∈ (String.ofList name).toUpper.toList, isCapital c = true := by
  intro c hc
  rw [Case.toList_toUpper, String.toList_ofList, List.mem_map] at hc
  obtain ⟨d, hd, rfl⟩ := hc
  exact Case.isCapital_upper (h d hd)

theorem after_toUpper (tag : String) : Phase.after tag.toUpper = Phase.after tag := by
  rw [Phase.after, ← ofTag?_toLower, Case.toLower_toUpper, ofTag?_toLower, Phase.after]

theorem after_of_void {tag : String} (h : isVoid tag = true) : Phase.after tag = .markup := by
  rw [Phase.after]
  split
  · next e hraw =>
    rw [isVoid_of_raw hraw] at h
    cases h
  · rfl

theorem orderly_startTokens {name : List Char} (hne : name ≠ [])
    (hname : ∀ c ∈ name, c.isAlphanum = true) {attributes : List Attribute}
    (hattributes : ∀ a ∈ attributes, ProperName a.name) :
    Orderly .markup (startTokens (.ofList name) attributes) (.after (.ofList name)) := by
  have hupper : (String.ofList name).toUpper ≠ "" := by
    intro hempty
    have hchars := congrArg String.toList hempty
    rw [Case.toList_toUpper, String.toList_ofList] at hchars
    exact hne (List.map_eq_nil_iff.mp hchars)
  have hturn := Turn.startTag hupper (isCapital_toUpper hname) hattributes
  rw [← after_toUpper, startTokens]
  split
  · next hvoid =>
    rw [after_of_void hvoid] at hturn ⊢
    exact .cons hturn (Turn.endTag).orderly
  · exact hturn.orderly

end Orders

/-! ## On the way -/

/-- After these tokens, and the characters since. -/
inductive Midway : List Token → Position → Prop where
  | text {before u p} : Orderly .markup before .markup → Plain u → Reads ⟨.text, {}⟩ u [] p →
    Midway before p
  | raw {before e u p} : Orderly .markup before (.raw e false) → e.Unclosed u →
    Reads ⟨.rawText e, {}⟩ u [] p → Midway before p
  | name {before name} : Orderly .markup before .markup → name ≠ [] →
    (∀ c ∈ name, c.isAlphanum = true) → Midway before (startTagAt name)
  | attributes {before name p} : Orderly .markup before .markup → name ≠ [] →
    (∀ c ∈ name, c.isAlphanum = true) → Noting (fun as => ∀ a ∈ as, ProperName a.name) name p →
    Midway before p

section Midway

variable {before tokens : List Token} {cs : List Char} {p q : Position} {c : Char}

theorem extends_properNames : Extends fun as => ∀ a ∈ as, ProperName a.name := by
  intro as a has ha x hx
  rcases List.mem_append.mp hx with hx | hx
  · exact has x hx
  · rw [List.mem_singleton.mp hx]
    exact ha

theorem noting_between (P : List Attribute → Prop) (name : List Char) {attributes : List Attribute}
    (h : P attributes) : Noting P name (betweenAt (.ofList name) attributes) :=
  ⟨inTag_between name attributes, noted_between h rfl⟩

theorem plain_nil : Plain [] where
  start c _ := by simp
  stop name _ := by simp

theorem unclosed_nil (e : RawText) : e.Unclosed [] := by
  simp [RawText.Unclosed]

/-- After a start tag. -/
theorem Midway.started {name : List Char} {attributes : List Attribute}
    (hbefore : Orderly .markup before .markup) (hne : name ≠ [])
    (hname : ∀ c ∈ name, c.isAlphanum = true)
    (hattributes : ∀ a ∈ attributes, ProperName a.name) :
    Midway (before ++ startTokens (.ofList name) attributes) ⟨modeAfter (.ofList name), {}⟩ := by
  have hall := hbefore.append (orderly_startTokens hne hname hattributes)
  rw [Phase.after] at hall
  rw [modeAfter]
  split at hall
  · next e hraw =>
    rw [hraw]
    exact .raw hall (unclosed_nil e) (.nil _)
  · next hraw =>
    rw [hraw]
    exact .text hall plain_nil (.nil _)

/-- What a character adds keeps the tokens in order. -/
theorem Midway.next (h : Midway before p) (hread : Reads p [c] tokens q) :
    Midway (before ++ tokens) q := by
  cases h with
  | @text u _ hbefore hplain hall =>
    rcases hplain.next hall c with ⟨hplain', q', hq⟩ | ⟨v, rfl, hc, hq⟩ | ⟨v, name, rfl, rfl, hq⟩
    · obtain ⟨rfl, rfl⟩ := hread.unique hq
      rw [List.append_nil]
      exact .text hbefore hplain' (hall.append hread)
    · obtain ⟨rfl, rfl⟩ := hread.unique hq
      have hv : Plain v := hplain.part ⟨[], ['<'], rfl⟩
      exact .name (hbefore.append hv.orderly) (by simp) (by simpa using hc)
    · obtain ⟨rfl, rfl⟩ := hread.unique hq
      have hv : Plain v := hplain.part ⟨[], '<' :: '/' :: name, rfl⟩
      refine .text (hbefore.append (hv.orderly.append ?_)) plain_nil (.nil _)
      split
      · exact .nil
      · exact (Turn.endTag).orderly
  | @raw e u _ hbefore hunclosed hall =>
    rcases hunclosed.next hall c with ⟨hunclosed', q', hq⟩ | ⟨v, read, rfl, hq⟩
    · obtain ⟨rfl, rfl⟩ := hread.unique hq
      rw [List.append_nil]
      exact .raw hbefore hunclosed' (hall.append hread)
    · obtain ⟨rfl, rfl⟩ := hread.unique hq
      obtain ⟨said, hv⟩ := (hunclosed.part ⟨[], '<' :: read, rfl⟩ : e.Unclosed v).orderly
      exact .text (hbefore.append (hv.append (Turn.rawEnd).orderly)) plain_nil (.nil _)
  | @name name hbefore hne hname =>
    rcases startTag_next hread with ⟨hc, rfl, rfl⟩ | ⟨-, rfl, rfl⟩ | ⟨rfl, rfl, rfl⟩
    · rw [List.append_nil]
      refine .name hbefore (by simp) fun x hx => ?_
      rcases List.mem_append.mp hx with hx | hx
      · exact hname x hx
      · rw [List.mem_singleton.mp hx, hc]
    · rw [List.append_nil]
      exact .attributes hbefore hne hname (noting_between _ name (by simp))
    · exact .started hbefore hne hname (by simp)
  | @attributes name _ hbefore hne hname hnoting =>
    rcases hnoting.next extends_properNames hread with
      ⟨rfl, hnoting'⟩ | ⟨rfl, attributes, hattributes, rfl⟩
    · rw [List.append_nil]
      exact .attributes hbefore hne hname hnoting'
    · exact .started hbefore hne hname hattributes

/-- At the end of the input what waits is a text, or a start tag that is lost. -/
theorem Midway.finish (h : Midway before p) :
    ∃ phase, Orderly .markup (before ++ textTokens (p.data.text ++ p.data.held)) phase := by
  cases h with
  | text hbefore hplain hall =>
    rw [(hplain.pending hall).flush]
    exact ⟨_, hbefore.append hplain.orderly⟩
  | raw hbefore hunclosed hall =>
    rw [(hunclosed.pending hall).flush]
    obtain ⟨said, hlast⟩ := hunclosed.orderly
    exact ⟨_, hbefore.append hlast⟩
  | name hbefore _ _ => exact ⟨_, hbefore.append .nil⟩
  | attributes hbefore _ _ hnoting =>
    rw [hnoting.text, hnoting.held]
    exact ⟨_, hbefore.append .nil⟩

theorem Midway.orderly (h : Midway before p) : ∃ phase, Orderly .markup before phase := by
  cases h with
  | text hbefore _ _ => exact ⟨_, hbefore⟩
  | raw hbefore _ _ => exact ⟨_, hbefore⟩
  | name hbefore _ _ => exact ⟨_, hbefore⟩
  | attributes hbefore _ _ _ => exact ⟨_, hbefore⟩

/-- What is read from here on, to the end or up to what is refused. -/
theorem Midway.readFrom (h : Midway before p) (index : Nat) (cs : List Char) :
    ∃ phase, Orderly .markup (before ++ (readFrom p index cs).tokens.map (·.2)) phase := by
  have hnumbered : ∀ (i : Nat) (tokens : List Token), (tokens.map (i, ·)).map (·.2) = tokens := by
    simp
  induction cs generalizing before p index with
  | nil =>
    rw [Markup.readFrom, hnumbered]
    exact h.finish
  | cons c cs ih =>
    simp only [Markup.readFrom]
    split
    · rw [List.map_nil, List.append_nil]
      exact h.orderly
    · next hfault =>
      have hnext := h.next (.single (by rw [← hfault]))
      rw [List.map_append, hnumbered, ← List.append_assoc]
      exact ih hnext (index + 1)

end Midway

/-- **The tokens of a document are in order**, wherever it ends or breaks off. -/
theorem orderly_of_read (input : String) :
    ∃ phase, Orderly .markup ((read input.toList).tokens.map (·.2)) phase :=
  Midway.readFrom (.text .nil plain_nil (.nil _)) 0 input.toList

end Hypertext.Markup
