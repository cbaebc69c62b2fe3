/-
Letter case, of characters and of strings: what is in capitals stays so, and a
name in capitals and digits comes back from lower case.
-/
import Mathlib.Data.String.Basic

namespace Hypertext

/-- An ASCII capital or digit. -/
def isCapital (c : Char) : Bool :=
  c.isUpper || c.isDigit

namespace Case

/-- Of ASCII characters it is enough to look at each. -/
theorem of_ascii {P : Char → Prop} (hP : ∀ n < 128, P (.ofNat n)) {c : Char}
    (h : c.toNat < 128) : P c := by
  have hc := hP c.toNat h
  rw [Char.ofNat_toNat] at hc
  exact hc

theorem toNat_lt {c d : Char} (h : c.val ≤ d.val) (hd : d.toNat < 128) : c.toNat < 128 :=
  Nat.lt_of_le_of_lt (UInt32.le_iff_toNat_le.mp h) hd

theorem toNat_lt_of_isCapital {c : Char} (h : isCapital c = true) : c.toNat < 128 := by
  rcases Bool.or_eq_true_iff.mp h with h | h
  · exact toNat_lt (of_decide_eq_true h).2 (by decide : 'Z'.toNat < 128)
  · exact toNat_lt (of_decide_eq_true (Bool.and_eq_true_iff.mp h).2) (by decide : '9'.toNat < 128)

/-! ## Characters -/

/-- Only capitals are written otherwise in lower case. -/
theorem lower_eq_or (c : Char) : c.toLower = c ∨ c.isUpper = true := by
  by_cases h : c.val ≥ 'A'.val ∧ c.val ≤ 'Z'.val
  · exact .inr (decide_eq_true h)
  · exact .inl (dif_neg h)

theorem upper_upper (c : Char) : c.toUpper.toUpper = c.toUpper := by
  by_cases h : 'a'.val ≤ c.val ∧ c.val ≤ 'z'.val
  · exact of_ascii (P := fun c => c.toUpper.toUpper = c.toUpper) (by decide +kernel)
      (toNat_lt h.2 (by decide : 'z'.toNat < 128))
  · have hc : c.toUpper = c := dif_neg h
    rw [hc, hc]

theorem isCapital_of_isUpper {c : Char} (h : c.isUpper = true) : isCapital c = true := by
  rw [isCapital, h, Bool.true_or]

theorem lower_lower (c : Char) : c.toLower.toLower = c.toLower := by
  rcases lower_eq_or c with h | h
  · rw [h, h]
  · exact of_ascii (P := fun c => c.toLower.toLower = c.toLower) (by decide +kernel)
      (toNat_lt_of_isCapital (isCapital_of_isUpper h))

theorem upper_lower_of_isCapital {c : Char} (h : isCapital c = true) : c.toLower.toUpper = c :=
  of_ascii (P := fun c => isCapital c = true → c.toLower.toUpper = c) (by decide +kernel)
    (toNat_lt_of_isCapital h) h

/-- What a capital is written as is a letter or a digit, whatever its case. -/
theorem isAlphanum_lower_of_isCapital {c : Char} (h : isCapital c = true) :
    c.toLower.isAlphanum = true :=
  of_ascii (P := fun c => isCapital c = true → c.toLower.isAlphanum = true) (by decide +kernel)
    (toNat_lt_of_isCapital h) h

theorem isAlphanum_of_lower {c : Char} (h : c.toLower.isAlphanum = true) : c.isAlphanum = true := by
  rcases lower_eq_or c with hc | hc
  · rw [← hc]
    exact h
  · show (c.isUpper || c.isLower || c.isDigit) = true
    rw [hc]
    rfl

theorem upper_of_isCapital {c : Char} (h : isCapital c = true) : c.toUpper = c := by
  rw [← upper_lower_of_isCapital h, upper_upper]

/-- Lower case in between is of no matter. -/
theorem upper_lower (c : Char) : c.toLower.toUpper = c.toUpper := by
  rcases lower_eq_or c with hc | hc
  · rw [hc]
  · rw [upper_lower_of_isCapital (isCapital_of_isUpper hc), upper_of_isCapital (isCapital_of_isUpper hc)]

theorem lower_upper (c : Char) : c.toUpper.toLower = c.toLower := by
  by_cases h : 'a'.val ≤ c.val ∧ c.val ≤ 'z'.val
  · exact of_ascii (P := fun c => c.toUpper.toLower = c.toLower) (by decide +kernel)
      (toNat_lt h.2 (by decide : 'z'.toNat < 128))
  · have hc : c.toUpper = c := dif_neg h
    rw [hc]

theorem toNat_lt_of_isAlphanum {c : Char} (h : c.isAlphanum = true) : c.toNat < 128 := by
  rcases Bool.or_eq_true_iff.mp h with h | h
  · rcases Bool.or_eq_true_iff.mp h with h | h
    · exact toNat_lt_of_isCapital (isCapital_of_isUpper h)
    · exact toNat_lt (of_decide_eq_true (Bool.and_eq_true_iff.mp h).2)
        (by decide : 'z'.toNat < 128)
  · exact toNat_lt_of_isCapital (by rw [isCapital, h, Bool.or_true])

/-- Letters and digits are capitals when written as such. -/
theorem isCapital_upper {c : Char} (h : c.isAlphanum = true) : isCapital c.toUpper = true :=
  of_ascii (P := fun c => c.isAlphanum = true → isCapital c.toUpper = true) (by decide +kernel)
    (toNat_lt_of_isAlphanum h) h

/-- Two characters are the same in lower case. -/
theorem eq_or_eq_upper_of_lower {c d : Char} (h : c.toLower = d) : c = d ∨ c = d.toUpper := by
  rcases lower_eq_or c with hc | hc
  · exact .inl (hc.symm.trans h)
  · exact .inr (by rw [← h, upper_lower_of_isCapital (isCapital_of_isUpper hc)])

/-! ## Strings -/

theorem toList_toUpper (s : String) : s.toUpper.toList = s.toList.map Char.toUpper :=
  String.toList_map

theorem toList_toLower (s : String) : s.toLower.toList = s.toList.map Char.toLower :=
  String.toList_map

@[simp] theorem toUpper_toUpper (s : String) : s.toUpper.toUpper = s.toUpper := by
  rw [← String.toList_inj, toList_toUpper, toList_toUpper, List.map_map]
  exact List.map_congr_left fun c _ => upper_upper c

@[simp] theorem toLower_toLower (s : String) : s.toLower.toLower = s.toLower := by
  rw [← String.toList_inj, toList_toLower, toList_toLower, List.map_map]
  exact List.map_congr_left fun c _ => lower_lower c

theorem toLower_toUpper (s : String) : s.toUpper.toLower = s.toLower := by
  rw [← String.toList_inj, toList_toLower, toList_toLower, toList_toUpper, List.map_map]
  exact List.map_congr_left fun c _ => lower_upper c

theorem toUpper_of_toLower_eq {s t : String} (h : s.toLower = t) : s.toUpper = t.toUpper := by
  rw [← h, ← String.toList_inj, toList_toUpper, toList_toUpper, toList_toLower, List.map_map]
  exact List.map_congr_left fun c _ => (upper_lower c).symm

theorem toUpper_toLower {s : String} (h : ∀ c ∈ s.toList, isCapital c = true) :
    s.toLower.toUpper = s := by
  rw [← String.toList_inj, toList_toUpper, toList_toLower, List.map_map]
  exact (List.map_congr_left fun c hc => upper_lower_of_isCapital (h c hc)).trans (List.map_id _)

end Case

end Hypertext
