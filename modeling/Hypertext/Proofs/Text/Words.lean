/-
The words of a text are maximal: none has a blank, and a blank or the end of
the text follows. So words that are joined by single spaces are read back as
they are (`words_intercalate`).
-/
import Hypertext.Text.Ascii

namespace Hypertext

/-- At least one character, and no blank. -/
structure IsWord (w : List Char) : Prop where
  ne_nil : w ≠ []
  solid : ∀ c ∈ w, isBlank c = false

instance (w : List Char) : Decidable (IsWord w) :=
  decidable_of_iff (w ≠ [] ∧ w.all (fun c => !isBlank c) = true)
    ⟨fun h => ⟨h.1, by simpa using h.2⟩, fun h => ⟨h.ne_nil, by simpa using h.solid⟩⟩

variable {c : Char} {cs w : List Char}

theorem words_blank (hc : isBlank c = true) (cs : List Char) : words (c :: cs) = words cs := by
  rw [words, if_pos hc]

/-- A word ends before a blank or at the end of the text. -/
theorem words_append (hw : IsWord w) (hcs : ∀ c ∈ cs.head?, isBlank c = true) :
    words (w ++ cs) = w :: words cs := by
  obtain ⟨hne, hsolid⟩ := hw
  induction w with
  | nil => exact absurd rfl hne
  | cons c w ih =>
    have hc : isBlank c = false := hsolid c List.mem_cons_self
    rw [List.cons_append, words, hc, if_neg (by simp)]
    cases w with
    | nil =>
      have hend : (cs.head?.map isBlank).getD true = true := by
        cases hhead : cs.head? with
        | none => rfl
        | some b => exact hcs b hhead
      rw [List.nil_append, if_pos hend]
    | cons d w =>
      have hd : isBlank d = false := hsolid d (.tail _ List.mem_cons_self)
      have hrest := ih (by simp) fun b hb => hsolid b (.tail _ hb)
      rw [List.cons_append] at hrest ⊢
      rw [hrest, if_neg (by simp [hd])]

theorem isWord_of_mem_words (hw : w ∈ words cs) : IsWord w := by
  have hsingle : ∀ {c}, ¬ isBlank c = true → IsWord [c] := fun hc => ⟨by simp, by simpa using hc⟩
  fun_induction words cs generalizing w with
  | case1 => cases hw
  | case2 c cs hblank ih => exact ih hw
  | case3 c cs hsolid hend ih =>
    rcases List.mem_cons.mp hw with rfl | hw
    · exact hsingle hsolid
    · exact ih hw
  | case4 c cs hsolid hmore hwords ih =>
    obtain rfl := List.mem_singleton.mp hw
    exact hsingle hsolid
  | case5 c cs hsolid hmore v vs hwords ih =>
    rw [hwords] at ih
    rcases List.mem_cons.mp hw with rfl | hw
    · have hv := ih List.mem_cons_self
      exact ⟨by simp, List.forall_mem_cons.mpr ⟨by simpa using hsolid, hv.solid⟩⟩
    · exact ih (.tail _ hw)

/-- Words joined by single spaces are read back. -/
theorem words_intercalate {ws : List (List Char)} (hws : ∀ w ∈ ws, IsWord w) :
    words ([' '].intercalate ws) = ws := by
  induction ws with
  | nil => rfl
  | cons w ws ih =>
    obtain ⟨hw, hrest⟩ := List.forall_mem_cons.mp hws
    cases ws with
    | nil =>
      have h : words (w ++ []) = w :: words [] := words_append hw (by simp)
      rw [List.append_nil] at h
      rw [List.intercalate_singleton, h]
      rfl
    | cons v vs =>
      rw [List.intercalate_cons_cons, List.append_assoc, List.singleton_append,
        words_append hw (by simp [isBlank]), words_blank (by decide), ih hrest]

end Hypertext
