/-
The markup of a proper forest is cut into the tokens of that forest
(`Forest.Proper.reads`). At the end of a text some of it may still be held, as
it could be the beginning of a tag; what `Pending` says of a position is that
nothing is lost by then, and the next `<` puts all of it back into the text.
-/
import Hypertext.Proofs.Markup.Canonical
import Hypertext.Proofs.Markup.Steps

namespace Hypertext

namespace Markup

open Automaton Buffers

/-! ## Characters that are collected -/

theorem ofList_push (cs : List Char) (c : Char) :
    (String.ofList cs).push c = String.ofList (cs ++ [c]) := by
  rw [← String.toList_inj, String.toList_push, String.toList_ofList, String.toList_ofList]

theorem ofList_append (cs ds : List Char) :
    String.ofList cs ++ String.ofList ds = String.ofList (cs ++ ds) :=
  String.ofList_append.symm

/-- Characters that are each put to what has been collected. -/
theorem Reads.collect {at_ : List Char → Position} {P : Char → Prop}
    (hstep : ∀ u c, P c → tokenizer.step (at_ u) c = { configuration := at_ (u ++ [c]) })
    (u : List Char) : ∀ cs : List Char, (∀ c ∈ cs, P c) → Reads (at_ u) cs [] (at_ (u ++ cs)) := by
  intro cs h
  induction cs generalizing u with
  | nil =>
    rw [List.append_nil]
    exact .nil _
  | cons c cs ih =>
    rw [List.append_cons]
    exact .cons (hstep u c (h c List.mem_cons_self)) (ih (u ++ [c]) fun x hx => h x (.tail _ hx))

/-- Characters of a text that is followed by what is known of the position. -/
theorem Reads.follow {At : List Char → Position → Prop} {P : List Char → Prop}
    (hpart : ∀ {cs ds : List Char}, P cs → ds <:+: cs → P ds)
    (hpush : ∀ {u p c}, At u p → P (u ++ [c]) → ∃ q, Reads p [c] [] q ∧ At (u ++ [c]) q)
    {u cs : List Char} {p : Position} (h : At u p) (hP : P (u ++ cs)) :
    ∃ q, Reads p cs [] q ∧ At (u ++ cs) q := by
  induction cs generalizing u p with
  | nil => exact ⟨p, .nil p, by rw [List.append_nil]; exact h⟩
  | cons c cs ih =>
    rw [List.append_cons] at hP
    obtain ⟨q, hq, hat⟩ := hpush h (hpart hP ⟨[], cs, rfl⟩)
    obtain ⟨r, hr, hat'⟩ := ih hat hP
    rw [← List.append_cons] at hat'
    exact ⟨r, hq.append hr, hat'⟩

/-! ## Texts -/

/-- In what may be an end tag, after a text. -/
abbrev endTagAt (u name : List Char) : Position :=
  ⟨.endTag, { text := .ofList u, held := .ofList ('<' :: '/' :: name), endTag := .ofList name }⟩

/-- After the last tag the text `u` has been read, some of it perhaps still held. -/
inductive Pending : List Char → Position → Prop where
  | text u : Pending u ⟨.text, { text := .ofList u }⟩
  | open u : Pending (u ++ ['<']) ⟨.tagOpen, { text := .ofList u, held := "<" }⟩
  | close u name : (∀ c ∈ name, c.isAlphanum = true) → 
    Pending (u ++ '<' :: '/' :: name) (endTagAt u name)

section Texts

variable {u : List Char} {p : Position}

theorem Pending.start : Pending [] ⟨.text, {}⟩ :=
  .text []

theorem Pending.flush (h : Pending u p) : p.data.text ++ p.data.held = String.ofList u := by
  cases h with
  | text => rw [← String.toList_inj]; simp
  | «open» u => rw [← String.toList_inj]; simp
  | close u name => rw [← String.toList_inj]; simp

/-- A `<` puts what was held back into the text, and may itself begin a tag. -/
theorem Pending.lt (h : Pending u p) :
    Reads p ['<'] [] ⟨.tagOpen, { text := .ofList u, held := "<" }⟩ := by
  cases h with
  | text u => exact .single step_text_lt
  | «open» u =>
    rw [← ofList_append]
    exact .single step_tagOpen_lt
  | close u name =>
    rw [← ofList_append]
    exact .single step_endTag_lt

/-- What one more character does after a text: it belongs to the text, or it begins the name of a
start tag, or it completes an end tag. -/
theorem Pending.next (h : Pending u p) (c : Char) :
    (∃ q, Reads p [c] [] q ∧ Pending (u ++ [c]) q) ∨
    (∃ v, u = v ++ ['<'] ∧ c.isAlphanum = true ∧
      Reads p [c] (textTokens (.ofList v)) ⟨.startTag, { tag := .ofList [c] }⟩) ∨
    ∃ v name, u = v ++ '<' :: '/' :: name ∧ (∀ x ∈ name, x.isAlphanum = true) ∧ c = '>' ∧
      Reads p [c] (textTokens (.ofList v) ++
        if name = [] then [] else [.endTag (String.ofList name).toUpper]) ⟨.text, {}⟩ := by
  by_cases hlt : c = '<'
  · rw [hlt]
    exact .inl ⟨_, h.lt, .open u⟩
  · cases h with
    | text u =>
      have hstep := step_text (b := { text := .ofList u }) hlt
      simp only [ofList_push] at hstep
      exact .inl ⟨_, .single hstep, .text _⟩
    | «open» u =>
      by_cases hslash : c = '/'
      · have hclose := Pending.close u [] (by simp)
        rw [hslash, List.append_assoc]
        exact .inl ⟨_, .single step_tagOpen_slash, hclose⟩
      · by_cases hname : c.isAlphanum = true
        · exact .inr (.inl ⟨u, rfl, hname, .single (step_tagOpen_name hname)⟩)
        · have hstep := step_tagOpen (b := { text := .ofList u, held := "<" }) hslash
            (Bool.eq_false_iff.mpr hname) hlt
          rw [show "<" = String.ofList ['<'] from rfl] at hstep ⊢
          simp only [ofList_append, ofList_push] at hstep
          exact .inl ⟨_, .single hstep, .text _⟩
    | close u name hname =>
      by_cases hc : c.isAlphanum = true
      · have hstep := step_endTag_name (b := (endTagAt u name).data) hc
        simp only [ofList_push] at hstep
        rw [List.append_assoc]
        refine .inl ⟨_, .single hstep, .close u (name ++ [c]) ?_⟩
        intro x hx
        rcases List.mem_append.mp hx with hx | hx
        · exact hname x hx
        · rw [List.mem_singleton.mp hx, hc]
      · by_cases hgt : c = '>'
        · have hstep := step_endTag_gt (b := (endTagAt u name).data)
          rw [hgt]
          refine .inr (.inr ⟨u, name, rfl, hname, rfl, ?_⟩)
          simp only [String.ofList_eq_empty_iff] at hstep
          exact .single hstep
        · have hstep := step_endTag (b := (endTagAt u name).data) (Bool.eq_false_iff.mpr hc) hgt hlt
          simp only [ofList_append, ofList_push] at hstep
          exact .inl ⟨_, .single hstep, .text _⟩

/-- One more character of a plain text. -/
theorem Pending.push {c : Char} (h : Pending u p) (hplain : Plain (u ++ [c])) :
    ∃ q, Reads p [c] [] q ∧ Pending (u ++ [c]) q := by
  rcases h.next c with hmore | ⟨v, rfl, hc, -⟩ | ⟨v, name, rfl, hname, rfl, -⟩
  · exact hmore
  · exact absurd ⟨v, [], by simp⟩ (hplain.start c hc)
  · exact absurd ⟨v, [], by simp⟩ (hplain.stop name hname)

theorem Pending.reads (h : Pending u p) {cs : List Char} (hplain : Plain (u ++ cs)) :
    ∃ q, Reads p cs [] q ∧ Pending (u ++ cs) q :=
  Reads.follow Plain.part Pending.push h hplain

end Texts

/-! ## Raw texts -/

/-- The same inside a raw text element. -/
inductive RawPending (e : RawText) : List Char → Position → Prop where
  | text u : RawPending e u ⟨.rawText e, { text := .ofList u }⟩
  | close u read : read.length < e.closing.length →
    read.map Char.toLower = e.closing.take read.length → RawPending e (u ++ '<' :: read)
      ⟨.rawEnd e read.length, { text := .ofList u, held := .ofList ('<' :: read) }⟩

section RawTexts

variable {e : RawText} {u : List Char} {p : Position}

theorem RawPending.start : RawPending e [] ⟨.rawText e, {}⟩ :=
  .text []

/-- The end tag of a raw text element, in whatever letter case, is a name between the two signs. -/
theorem closing_split {read : List Char} {c : Char} (h : (read ++ [c]).map Char.toLower = e.closing) :
    ∃ name, read = '/' :: name ∧ name.map Char.toLower = e.name.toList ∧ c = '>' := by
  rw [List.map_append, RawText.closing, List.map_singleton] at h
  obtain ⟨hread, hlast⟩ := List.append_inj' h rfl
  obtain ⟨slash, name, rfl, hslash, hname⟩ := List.map_eq_cons_iff.mp hread
  have hc := Case.eq_or_eq_upper_of_lower (List.singleton_inj.mp hlast)
  have hs := Case.eq_or_eq_upper_of_lower hslash
  rw [show '>'.toUpper = '>' from rfl, or_self] at hc
  rw [show '/'.toUpper = '/' from rfl, or_self] at hs
  exact ⟨name, by rw [hs], hname, hc⟩

theorem RawPending.lt (h : RawPending e u p) :
    Reads p ['<'] [] ⟨.rawEnd e 0, { text := .ofList u, held := "<" }⟩ := by
  cases h with
  | text u => exact .single (step_rawText_lt e)
  | close u read hread =>
    rw [← ofList_append]
    exact .single (step_rawEnd_lt hread)

/-- What one more character does in a raw text: it belongs to the text, or it completes the
element's own end tag. -/
theorem RawPending.next (h : RawPending e u p) (c : Char) :
    (∃ q, Reads p [c] [] q ∧ RawPending e (u ++ [c]) q) ∨
    ∃ v read, u = v ++ '<' :: read ∧ (read ++ [c]).map Char.toLower = e.closing ∧
      Reads p [c] (textTokens (.ofList v) ++ [.endTag e.name.toUpper]) ⟨.text, {}⟩ := by
  by_cases hlt : c = '<'
  · rw [hlt]
    exact .inl ⟨_, h.lt, .close u [] (Nat.zero_lt_succ _) rfl⟩
  · cases h with
    | text u =>
      have hstep := step_rawText (b := { text := .ofList u }) e hlt
      simp only [ofList_push] at hstep
      exact .inl ⟨_, .single hstep, .text _⟩
    | close u read hread hlower =>
      have hd := List.getElem?_eq_getElem hread
      by_cases hc : c.toLower = e.closing[read.length]
      · have hlower' : (read ++ [c]).map Char.toLower = e.closing.take (read.length + 1) := by
          rw [List.map_append, hlower, List.map_singleton, hc, List.take_append_getElem hread]
        by_cases hmore : read.length + 1 < e.closing.length
        · have hstep := step_rawEnd_match (b := { text := .ofList u, held := .ofList ('<' :: read) })
            hd hc hmore
          simp only [ofList_push] at hstep
          have hclose := RawPending.close u (read ++ [c]) (by simpa using hmore) (by simpa using hlower')
          rw [List.append_assoc]
          rw [List.length_append] at hclose
          exact .inl ⟨_, .single hstep, hclose⟩
        · have hlast : read.length + 1 = e.closing.length := by omega
          rw [List.take_of_length_le (by omega)] at hlower'
          obtain ⟨-, -, -, hgt⟩ := closing_split hlower'
          refine .inr ⟨u, read, rfl, hlower', ?_⟩
          rw [hgt]
          exact .single (step_rawEnd_last hlast)
      · have hstep := step_rawEnd (b := { text := .ofList u, held := .ofList ('<' :: read) }) hd hc hlt
        simp only [ofList_append, ofList_push] at hstep
        exact .inl ⟨_, .single hstep, .text _⟩

theorem RawPending.push {c : Char} (h : RawPending e u p) (hunclosed : e.Unclosed (u ++ [c])) :
    ∃ q, Reads p [c] [] q ∧ RawPending e (u ++ [c]) q := by
  rcases h.next c with hmore | ⟨v, read, rfl, hlower, -⟩
  · exact hmore
  · refine absurd ⟨v.map Char.toLower, [], ?_⟩ hunclosed
    rw [← hlower]
    simp

theorem RawPending.reads (h : RawPending e u p) {cs : List Char} (hunclosed : e.Unclosed (u ++ cs)) :
    ∃ q, Reads p cs [] q ∧ RawPending e (u ++ cs) q :=
  Reads.follow RawText.Unclosed.part RawPending.push h hunclosed

/-- The element's own end tag ends it, whatever of it the text may have ended in. -/
theorem RawPending.closed (h : RawPending e u p) : Reads p ('<' :: e.closing)
    (textTokens (.ofList u) ++ [.endTag e.name.toUpper]) ⟨.text, {}⟩ := by
  have hname : Reads ⟨.rawEnd e 0, { text := .ofList u, held := "<" }⟩ ('/' :: e.name.toList) []
      ⟨.rawEnd e (e.closing.length - 1), { text := .ofList u, held := "</" ++ e.name }⟩ := by
    cases e <;> rfl
  have hgt : Reads ⟨.rawEnd e (e.closing.length - 1), { text := .ofList u, held := "</" ++ e.name }⟩
      ['>'] (textTokens (.ofList u) ++ [.endTag e.name.toUpper]) ⟨.text, {}⟩ :=
    .single (step_rawEnd_last (Nat.succ_pred (Nat.succ_ne_zero _)))
  exact h.lt.append (hname.append hgt)

end RawTexts

/-! ## Tags -/

section Tags

variable {u : List Char} {p : Position} {tag : String}

theorem toUpper_tag {e : Element} (he : e.Proper) : e.tag.toLower.toUpper = e.tag :=
  Case.toUpper_toLower he.capital

theorem isAlphanum_tag {e : Element} (he : e.Proper) :
    ∀ c ∈ e.tag.toLower.toList, c.isAlphanum = true := by
  intro c hc
  rw [Case.toList_toLower, List.mem_map] at hc
  obtain ⟨d, hd, rfl⟩ := hc
  exact Case.isAlphanum_lower_of_isCapital (he.capital d hd)

theorem toLower_tag_ne {e : Element} (he : e.Proper) : e.tag.toLower ≠ "" := by
  intro h
  apply he.ne
  rw [← toUpper_tag he, h, ← String.toList_inj, Case.toList_toUpper]
  rfl

/-- The name of an end tag is held. -/
theorem reads_endTagName {name : List Char} (h : ∀ c ∈ name, c.isAlphanum = true) :
    Reads ⟨.tagOpen, { text := .ofList u, held := "<" }⟩ ('/' :: name) [] (endTagAt u name) := by
  have hslash : Reads ⟨.tagOpen, { text := .ofList u, held := "<" }⟩ ['/'] [] (endTagAt u []) :=
    .single step_tagOpen_slash
  refine hslash.append (Reads.collect (fun n c hc => ?_) [] name h)
  have hstep := step_endTag_name (b := (endTagAt u n).data) hc
  simp only [ofList_push] at hstep
  exact hstep

/-- An element's end tag, after a text. -/
theorem Pending.closed {e : Element} (h : Pending u p) (he : e.Proper) :
    Reads p e.endTag.toList (textTokens (.ofList u) ++ [.endTag e.tag]) ⟨.text, {}⟩ := by
  have hgt : Reads (endTagAt u e.tag.toLower.toList) ['>']
      (textTokens (.ofList u) ++ [.endTag e.tag]) ⟨.text, {}⟩ := by
    have hne : String.ofList e.tag.toLower.toList ≠ "" := by
      rw [String.ofList_toList]
      exact toLower_tag_ne he
    have htag : (String.ofList e.tag.toLower.toList).toUpper = e.tag := by
      rw [String.ofList_toList, toUpper_tag he]
    have hstep := step_endTag_gt (b := (endTagAt u e.tag.toLower.toList).data)
    simp only [hne, ↓reduceIte, htag] at hstep
    exact .single hstep
  have hchars : e.endTag.toList = '<' :: ('/' :: e.tag.toLower.toList ++ ['>']) := by
    simp [Element.endTag]
  rw [hchars]
  exact h.lt.append ((reads_endTagName (isAlphanum_tag he)).append hgt)

/-- In the name of a start tag. -/
abbrev startTagAt (name : List Char) : Position :=
  ⟨.startTag, { tag := .ofList name }⟩

/-- In a start tag, after some attributes. -/
abbrev betweenAt (tag : String) (attributes : List Attribute) : Position :=
  ⟨.betweenAttributes, { tag, attributes }⟩

/-- In the name of one more attribute. -/
abbrev nameAt (tag : String) (attributes : List Attribute) (name : List Char) : Position :=
  ⟨.attributeName, { tag, attributes, name := .ofList name }⟩

/-- In its value. -/
abbrev valueAt (tag : String) (attributes : List Attribute) (name : String) (quote : Char)
    (value : List Char) : Position :=
  ⟨.value, { tag, attributes, name, value := .ofList value, quote := some quote }⟩

theorem quoteFor_eq (value : String) : quoteFor value = '"' ∨ quoteFor value = '\'' := by
  rw [quoteFor]
  split
  · exact .inr rfl
  · exact .inl rfl

/-- The quote an attribute is written with is not in its value. -/
theorem quoteFor_not_mem {a : Attribute} (ha : a.Proper) : quoteFor a.value ∉ a.value.toList := by
  rw [quoteFor]
  split
  · next h => exact h.2
  · next h => exact fun hmem => h ⟨hmem, fun hmem' => ha.value ⟨hmem, hmem'⟩⟩

/-- The name of an attribute goes on. -/
theorem reads_nameChars {before : List Attribute} {cs : List Char} (name : List Char)
    (h : ∀ c ∈ cs, isNameChar c = true) :
    Reads (nameAt tag before name) cs [] (nameAt tag before (name ++ cs)) := by
  refine Reads.collect (fun n x hx => ?_) name cs h
  have hstep := step_name (b := (nameAt tag before n).data) hx
  simp only [ofList_push] at hstep
  exact hstep

/-- The attribute under way is put to the others. -/
theorem endAttribute_named {before : List Attribute} {name : String} (hname : name ≠ "")
    {value : String} {quote : Option Char} :
    endAttribute { tag, attributes := before, name, value, quote } =
      { tag, attributes := before ++ [⟨name, value⟩] } := by
  simp only [endAttribute, if_neg hname]

/-- A value in quotes, and the attribute with it. -/
theorem reads_quoted {before : List Attribute} {name : String} (hname : name ≠ "") {quote : Char}
    (hquote : quote = '"' ∨ quote = '\'') {value : List Char} (hvalue : quote ∉ value) :
    Reads ⟨.beforeValue, { tag, attributes := before, name }⟩ (quote :: (value ++ [quote])) []
      (betweenAt tag (before ++ [⟨name, .ofList value⟩])) := by
  have hopen : Reads ⟨.beforeValue, { tag, attributes := before, name }⟩ [quote] []
      (valueAt tag before name quote []) := .single (step_beforeValue_quote hquote)
  have hinside : Reads (valueAt tag before name quote []) value [] (valueAt tag before name quote value) := by
    refine Reads.collect (P := (· ≠ quote)) (fun v x hx => ?_) [] value fun x hx he => hvalue (he ▸ hx)
    have hstep := step_value_quoted (b := (valueAt tag before name quote v).data) rfl hx
    simp only [ofList_push] at hstep
    exact hstep
  have hclose : Reads (valueAt tag before name quote value) [quote] []
      (betweenAt tag (before ++ [⟨name, .ofList value⟩])) := by
    have hstep := step_value_end (b := (valueAt tag before name quote value).data) rfl hquote
    rw [endAttribute_named hname] at hstep
    exact .single hstep
  exact hopen.append (hinside.append hclose)

/-- An attribute, written, is read back. -/
theorem reads_attribute {a : Attribute} (ha : a.Proper) {before : List Attribute}
    (h : Reads p [' '] [] (betweenAt tag before)) :
    Reads p a.written.toList [] (betweenAt tag (before ++ [a])) := by
  obtain ⟨c, cs, hchars, hc, hcs⟩ := ha.name
  have hnameOf : String.ofList (c :: cs) = a.name := by rw [← hchars, String.ofList_toList]
  have hne : a.name ≠ "" := by
    rw [← hnameOf]
    simp
  have hfirst : Reads (betweenAt tag before) [c] [] (nameAt tag before [c]) :=
    .single (step_between_name hc)
  have hname : Reads (nameAt tag before [c]) cs [] (nameAt tag before (c :: cs)) :=
    reads_nameChars [c] hcs
  have hequals : Reads (nameAt tag before (c :: cs)) ['='] []
      ⟨.beforeValue, { tag, attributes := before, name := a.name }⟩ := by
    rw [nameAt, hnameOf]
    exact .single (step_named_equals (.inl rfl))
  have hvalue : Reads ⟨.beforeValue, { tag, attributes := before, name := a.name }⟩
      (quoteFor a.value :: (a.value.toList ++ [quoteFor a.value])) []
      (betweenAt tag (before ++ [⟨a.name, .ofList a.value.toList⟩])) :=
    reads_quoted hne (quoteFor_eq a.value) (quoteFor_not_mem ha)
  have hwritten : a.written.toList = ' ' :: ([c] ++ (cs ++ (['='] ++ (quoteFor a.value ::
      (a.value.toList ++ [quoteFor a.value]))))) := by
    simp [Attribute.written, hchars]
  rw [String.ofList_toList] at hvalue
  rw [hwritten]
  exact h.append (hfirst.append (hname.append (hequals.append hvalue)))

/-- The attributes, and the end of their tag. -/
theorem reads_attributes {attributes before : List Attribute} (h : ∀ a ∈ attributes, a.Proper)
    (hspace : Reads p [' '] [] (betweenAt tag before))
    (hgt : Reads p ['>'] (startTokens tag before) ⟨modeAfter tag, {}⟩) :
    Reads p (attributes.flatMap (·.written.toList) ++ ['>'])
      (startTokens tag (before ++ attributes)) ⟨modeAfter tag, {}⟩ := by
  induction attributes generalizing p before with
  | nil =>
    rw [List.append_nil]
    exact hgt
  | cons a attributes ih =>
    have hfirst := reads_attribute (h a List.mem_cons_self) hspace
    have hrest := ih (fun x hx => h x (.tail _ hx)) (.single (step_between_skip (.inl rfl)))
      (.single step_between_gt : Reads (betweenAt tag (before ++ [a])) _ _ _)
    rw [List.flatMap_cons, List.append_assoc, List.append_cons before]
    exact hfirst.append hrest

theorem ofTag?_toLower (tag : String) : RawText.ofTag? tag.toLower = RawText.ofTag? tag := by
  rw [RawText.ofTag?, Case.toLower_toLower, RawText.ofTag?]

/-- The name of a start tag ends the text before it. -/
theorem Pending.named (h : Pending u p) {name : List Char} (hne : name ≠ [])
    (hname : ∀ c ∈ name, c.isAlphanum = true) :
    Reads p ('<' :: name) (textTokens (.ofList u)) (startTagAt name) := by
  obtain ⟨c, cs, rfl⟩ := List.exists_cons_of_ne_nil hne
  have hfirst : Reads ⟨.tagOpen, { text := .ofList u, held := "<" }⟩ [c]
      (textTokens (.ofList u)) (startTagAt [c]) :=
    .single (step_tagOpen_name (hname c List.mem_cons_self))
  have hrest : Reads (startTagAt [c]) cs [] (startTagAt (c :: cs)) := by
    refine Reads.collect (fun n x hx => ?_) [c] cs fun x hx => hname x (.tail _ hx)
    have hstep := step_startTag_name (b := (startTagAt n).data) hx
    simp only [ofList_push] at hstep
    exact hstep
  have hall := h.lt.append (hfirst.append hrest)
  rw [List.append_nil] at hall
  exact hall

/-- An element's start tag, after a text. -/
theorem Pending.opened {e : Element} (h : Pending u p) (he : e.Proper) :
    Reads p e.startTag.toList
      (textTokens (.ofList u) ++ .startTag e.tag e.attributes.entries ::
        if isVoid e.tag then [.endTag e.tag] else [])
      ⟨modeAfter e.tag, {}⟩ := by
  have hne : e.tag.toLower.toList ≠ [] :=
    fun hnil => toLower_tag_ne he (String.toList_eq_nil_iff.mp hnil)
  have hnamed := h.named hne (isAlphanum_tag he)
  have hrest := reads_attributes (p := startTagAt e.tag.toLower.toList) he.attributes
    (.single (step_startTag_blank rfl)) (.single step_startTag_gt)
  have hwritten : e.startTag.toList = '<' :: e.tag.toLower.toList ++
      (e.attributes.entries.flatMap (·.written.toList) ++ ['>']) := by
    simp [Element.startTag, List.flatMap_map]
  rw [List.nil_append, String.ofList_toList, startTokens, toUpper_tag he, modeAfter,
    ofTag?_toLower, ← modeAfter] at hrest
  rw [hwritten]
  exact hnamed.append hrest

end Tags

/-! ## Forests -/

theorem ofTag?_eq_some {tag : String} {r : RawText} (h : RawText.ofTag? tag = some r) :
    tag.toLower = r.name := by
  simp only [RawText.ofTag?] at h
  split at h
  · next hs =>
    cases h
    exact hs
  · split at h
    · next hs =>
      cases h
      exact hs
    · cases h

theorem isVoid_of_raw {tag : String} {r : RawText} (hr : RawText.ofTag? tag = some r) :
    isVoid tag = false := by
  rw [isVoid, Case.toUpper_of_toLower_eq (ofTag?_eq_some hr)]
  cases r <;> decide +kernel

/-- A raw text element, whose content its end tag cannot occur in. -/
theorem reads_rawText {e : Element} (he : e.Proper) {r : RawText}
    (hr : RawText.ofTag? e.tag = some r) {s : String} (hs : r.Unclosed s.toList) {u : List Char}
    {p : Position} (h : Pending u p) :
    Reads p (e.startTag ++ s ++ e.endTag).toList
      (textTokens (.ofList u) ++ .startTag e.tag e.attributes.entries ::
        (textTokens s ++ [.endTag e.tag])) ⟨.text, {}⟩ := by
  have htag : r.name.toUpper = e.tag := by rw [← ofTag?_eq_some hr, toUpper_tag he]
  have hopened := h.opened he
  rw [isVoid_of_raw hr, modeAfter, hr] at hopened
  have hs' : r.Unclosed ([] ++ s.toList) := hs
  obtain ⟨q, hq, hpending⟩ := RawPending.start.reads hs'
  have hclosed := hpending.closed
  rw [htag, List.nil_append, String.ofList_toList] at hclosed
  have hend : e.endTag.toList = '<' :: r.closing := by
    simp [Element.endTag, RawText.closing, ofTag?_eq_some hr]
  have hall := (hopened.append hq).append hclosed
  rw [String.toList_append, String.toList_append, hend]
  simpa using hall

end Markup

open Markup Buffers

/-- The tokens that make a forest. -/
def Forest.tokens : Forest → List Token
  | .nil => []
  | .text s rest => .text s :: rest.tokens
  | .element e inside rest =>
    .startTag e.tag e.attributes.entries :: inside.tokens ++ .endTag e.tag :: rest.tokens

theorem textTokens_toList {s : String} (h : s ≠ "") :
    textTokens (.ofList s.toList) = [.text s] := by
  rw [String.ofList_toList, textTokens, if_neg h]

/-- **Cutting undoes writing.** The markup of a proper forest is cut into its tokens, but for a
text at the end, which is still to come. -/
theorem Forest.Proper.reads {parent : Option Element} {f : Forest} (hf : f.Proper parent)
    {u : List Char} {p : Position} (h : Pending u p) (hapart : u = [] ∨ f.Apart) :
    ∃ q v tokens, Reads p f.written.toList tokens q ∧ Pending v q ∧
      tokens ++ textTokens (.ofList v) = textTokens (.ofList u) ++ f.tokens := by
  induction hf generalizing u p with
  | nil => exact ⟨p, u, [], .nil p, h, by simp [Forest.tokens]⟩
  | @text parent s rest hne hplain hrest _ ih =>
    obtain rfl : u = [] := hapart.resolve_right fun hno => hno s rest rfl
    have hplain' : Plain ([] ++ s.toList) := hplain
    obtain ⟨q, hq, hpending⟩ := h.reads hplain'
    obtain ⟨r, v, tokens, hr, hpending', htokens⟩ := ih hpending (.inr hrest)
    refine ⟨r, v, tokens, ?_, hpending', ?_⟩
    · rw [Forest.written, String.toList_append]
      exact hq.append hr
    · rw [htokens, List.nil_append, textTokens_toList hne]
      rfl
  | @element parent e inside rest he _ hraw hvoid _ _ ihinside ihrest =>
    have hopened := h.opened he
    rw [modeAfter, hraw] at hopened
    obtain ⟨r, w, later, hr, hpendingw, hlater⟩ := ihrest .start (.inl rfl)
    by_cases hv : isVoid e.tag = true
    · rw [Forest.written, if_pos hv, String.toList_append]
      refine ⟨r, w, _, hopened.append hr, hpendingw, ?_⟩
      rw [List.append_assoc, hlater, hvoid hv]
      simp [hv, Forest.tokens, textTokens]
    · rw [if_neg hv] at hopened
      obtain ⟨q, v, tokens, hq, hpendingv, htokens⟩ := ihinside .start (.inl rfl)
      have hclosed := hpendingv.closed he
      rw [Forest.written, if_neg hv, String.toList_append, String.toList_append,
        String.toList_append]
      refine ⟨r, w, _, ((hopened.append hq).append hclosed).append hr, hpendingw, ?_⟩
      rw [List.append_assoc, hlater, List.append_assoc (_ ++ _ :: _), ← List.append_assoc tokens,
        htokens]
      simp [Forest.tokens, textTokens]
  | @raw parent e r inside rest he _ hraw hinside _ ihrest =>
    obtain ⟨q, w, later, hq, hpendingw, hlater⟩ := ihrest .start (.inl rfl)
    obtain ⟨s, hs, hwritten, htokens⟩ : ∃ s : String, r.Unclosed s.toList ∧ inside.written = s ∧
        inside.tokens = textTokens s := by
      rcases hinside with rfl | ⟨s, hne, hs, rfl⟩
      · exact ⟨"", by simp [RawText.Unclosed], rfl, rfl⟩
      · exact ⟨s, hs, String.append_empty, by rw [textTokens, if_neg hne]; rfl⟩
    rw [Forest.written, isVoid_of_raw hraw, if_neg Bool.false_ne_true, hwritten,
      String.toList_append]
    refine ⟨q, w, _, (reads_rawText he hraw hs h).append hq, hpendingw, ?_⟩
    rw [List.append_assoc, hlater, Forest.tokens, htokens]
    simp [textTokens]

end Hypertext
