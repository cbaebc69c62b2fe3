/-
Where raw text ends: at the first end tag of its own element, in whatever letter
case, and nowhere else (`raw_text_ends`). Up to there all is text, half an end
tag with which another one breaks into it as well.

No character of a raw text is refused. Behind its end tag the document goes on
as markup, in which characters may be (`refused_behind_raw_text`).
-/
import Hypertext.Proofs.Markup.Orderly

namespace Hypertext.Markup

open Automaton Buffers

namespace RawText

/-- The end tag of the element, in lower case. -/
def endTag (e : RawText) : List Char :=
  ("</" ++ e.name ++ ">").toList

/-- An end tag of the element, in whatever letter case, begins at the place. -/
def ClosesAt (e : RawText) (w : List Char) (i : Nat) : Prop :=
  e.endTag <+: (w.drop i).map Char.toLower

instance (e : RawText) (w : List Char) (i : Nat) : Decidable (e.ClosesAt w i) :=
  inferInstanceAs (Decidable (_ <+: _))

/-- The first end tag of the element begins at the place. -/
structure FirstClosesAt (e : RawText) (w : List Char) (i : Nat) : Prop where
  closes : e.ClosesAt w i
  first : ∀ j < i, ¬ e.ClosesAt w j

variable {e : RawText} {w : List Char} {i j : Nat}

theorem endTag_eq (e : RawText) : e.endTag = '<' :: e.closing := by
  simp [endTag, closing]

/-- Where no end tag begins there is none. -/
theorem unclosed_of_not_closesAt (h : ∀ j, ¬ e.ClosesAt w j) : e.Unclosed w := by
  rintro ⟨before, after, hw⟩
  refine h before.length ?_
  rw [ClosesAt, endTag_eq, List.map_drop, ← hw, List.append_assoc, List.drop_left]
  exact List.prefix_append _ _

/-- An end tag in the beginning of a text is one of the text. -/
theorem ClosesAt.of_take (h : e.ClosesAt (w.take i) j) : e.ClosesAt w j := by
  rw [ClosesAt, List.drop_take] at h
  exact h.trans ((List.take_prefix _ _).map _)

theorem ClosesAt.lt_length (h : e.ClosesAt w i) : i < w.length := by
  have hlength := h.length_le
  rw [endTag_eq, List.length_cons, List.length_map, List.length_drop] at hlength
  omega

/-- Before the first end tag there is none. -/
theorem FirstClosesAt.unclosed (h : e.FirstClosesAt w i) : e.Unclosed (w.take i) := by
  refine unclosed_of_not_closesAt fun j hj => ?_
  refine h.first j ?_ hj.of_take
  have hlt := hj.lt_length
  rw [List.length_take] at hlt
  omega

/-- A text up to its first end tag, and that end tag but for its last character. -/
theorem FirstClosesAt.exists_read (h : e.FirstClosesAt w i) : ∃ read : List Char,
    w.take (i + e.endTag.length) = w.take i ++ '<' :: (read ++ ['>']) ∧
      (read ++ ['>']).map Char.toLower = e.closing := by
  have hfound := List.prefix_iff_eq_take.mp h.closes
  rw [← List.map_take, endTag_eq] at hfound
  obtain ⟨lt, rest, htake, hlt, hrest⟩ := List.map_eq_cons_iff.mp hfound.symm
  have hlt := Case.eq_or_eq_upper_of_lower hlt
  rw [show '<'.toUpper = '<' from rfl, or_self] at hlt
  obtain rfl | ⟨read, last, rfl⟩ := List.eq_nil_or_concat rest
  · cases hrest
  · rw [List.concat_eq_append] at hrest htake
    obtain ⟨-, -, -, hlast⟩ := closing_split hrest
    refine ⟨read, ?_, hlast ▸ hrest⟩
    rw [List.take_add, endTag_eq, htake, hlt, hlast]

end RawText

variable {e : RawText} {w : List Char} {i : Nat}

/-- The end tag that comes first ends a raw text. -/
theorem RawText.FirstClosesAt.reads (h : e.FirstClosesAt w i) :
    Reads ⟨.rawText e, {}⟩ (w.take (i + e.endTag.length))
      (textTokens (.ofList (w.take i)) ++ [.endTag e.name.toUpper]) ⟨.text, {}⟩ := by
  obtain ⟨read, hw, hclosing⟩ := h.exists_read
  have hlength : read.length + 1 = e.closing.length := by
    rw [← hclosing]
    simp
  have hread : read.map Char.toLower <+: e.closing := by
    rw [← hclosing, List.map_append]
    exact List.prefix_append _ _
  obtain ⟨q, hq, hpending⟩ := RawPending.start.reads (show e.Unclosed ([] ++ w.take i) from h.unclosed)
  have hheld := reads_rawEnd (u := w.take i) [] read hread (by rw [List.nil_append]; omega)
  have hgt : Reads (rawEndAt e (w.take i) read) ['>'] _ _ := .single (step_rawEnd_last hlength)
  rw [hw]
  exact hq.append (hpending.lt.append (hheld.append hgt))

/-- A raw text without an end tag goes on, and at the end of the input it is all text. -/
theorem RawText.Unclosed.reads (h : e.Unclosed w) :
    ∃ q, Reads ⟨.rawText e, {}⟩ w [] q ∧ (tokenizer.finish q).events = textTokens (.ofList w) := by
  obtain ⟨q, hq, hpending⟩ := RawPending.start.reads (show e.Unclosed ([] ++ w) from h)
  have hflush := hpending.flush
  rw [List.nil_append] at hflush
  exact ⟨q, hq, congrArg textTokens hflush⟩

theorem textTokens_ofList (cs : List Char) :
    textTokens (.ofList cs) = if cs = [] then [] else [.text (.ofList cs)] := by
  simp only [textTokens, String.ofList_eq_empty_iff]

/-- **Raw text ends at its first end tag and nowhere else.** Up to it no character is refused, and
the tokens are the text before it, if there is any, and the end of the element; then markup begins,
with nothing left in the buffers. Where there is no end tag, no character at all is refused and no
token comes; at the end of the input the whole is one text, if it is not empty. -/
theorem raw_text_ends (e : RawText) (w : List Char) :
    (∀ i, e.ClosesAt w i → (∀ j < i, ¬ e.ClosesAt w j) →
      tokenizer.run ⟨.rawText e, {}⟩ (w.take (i + e.endTag.length)) =
        { configuration := ⟨.text, {}⟩
          events := (if i = 0 then [] else [.text (.ofList (w.take i))]) ++ [.endTag e.name.toUpper] }) ∧
    ((∀ i, ¬ e.ClosesAt w i) → ∃ q,
      tokenizer.run ⟨.rawText e, {}⟩ w = { configuration := q } ∧
        (tokenizer.finish q).events = if w = [] then [] else [.text (.ofList w)]) := by
  constructor
  · intro i hcloses hfirst
    have hread := RawText.FirstClosesAt.reads ⟨hcloses, hfirst⟩
    have hempty : w.take i = [] ↔ i = 0 := by
      have hlt := hcloses.lt_length
      rw [List.take_eq_nil_iff, or_iff_left]
      rintro rfl
      exact absurd hlt (Nat.not_lt_zero i)
    rw [Reads, textTokens_ofList] at hread
    simpa only [hempty] using hread
  · intro hnone
    obtain ⟨q, hq, hfinish⟩ := (RawText.unclosed_of_not_closesAt hnone).reads
    rw [textTokens_ofList] at hfinish
    exact ⟨q, hq, hfinish⟩

/-- Two end tags that break off, and then a whole one; and one that the input breaks off. -/
theorem raw_text_ends_restarted :
    let closed := "1<</sc</SCRIPT></script>".toList
    let cut := "a</script></styl".toList
    (RawText.script.ClosesAt closed 6 ∧ (∀ j < 6, ¬ RawText.script.ClosesAt closed j) ∧
      tokenizer.run ⟨.rawText .script, {}⟩ (closed.take 15) =
        { configuration := ⟨.text, {}⟩, events := [.text "1<</sc", .endTag "SCRIPT"] }) ∧
    (∀ i, ¬ RawText.style.ClosesAt cut i) ∧ ∃ q,
      tokenizer.run ⟨.rawText .style, {}⟩ cut = { configuration := q } ∧
        (tokenizer.finish q).events = [.text "a</script></styl"] := by
  intro closed cut
  constructor
  · have hcloses : RawText.script.ClosesAt closed 6 := by decide
    have hfirst : ∀ j < 6, ¬ RawText.script.ClosesAt closed j := by decide
    have hupper : RawText.script.name.toUpper = "SCRIPT" := by decide +kernel
    have hends := (raw_text_ends .script closed).1 6 hcloses hfirst
    rw [hupper] at hends
    exact ⟨hcloses, hfirst, hends⟩
  · have hnot : ∀ i < cut.length, ¬ RawText.style.ClosesAt cut i := by decide
    have hnone : ∀ i, ¬ RawText.style.ClosesAt cut i := fun i hi => hnot i hi.lt_length hi
    exact ⟨hnone, (raw_text_ends .style cut).2 hnone⟩

/-- What comes behind the end tag is no raw text, and a character there may be refused. -/
theorem refused_behind_raw_text :
    ¬ ∀ (e : RawText) (w : List Char), (tokenizer.run ⟨.rawText e, {}⟩ w).fault = none := by
  intro h
  have hfault : (tokenizer.run ⟨.rawText .script, {}⟩ "</script><a-".toList).fault =
      some (.noTransition .startTag '-') := by decide
  rw [h] at hfault
  cases hfault

end Hypertext.Markup
