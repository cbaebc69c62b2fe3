/-
Where mistakes stand: never behind the end of the text. Offsets count from its
beginning, the white space there included, and a mistake is either at a
character of the text or, where something is missing, at its end.
-/
import Hypertext.Selector.Reading
import Hypertext.Proofs.Text.Trimming
import Hypertext.Proofs.Selector.Spelling

namespace Hypertext.Selector

variable {total start : Nat} {c : Char} {name rest cs : List Char} {e : Mistake}

theorem offset_comparison (h : comparison total c rest = .error e) : e.offset ≤ total := by
  unfold comparison at h
  split at h
  · cases h
  split at h
  · cases h
    exact Nat.sub_le _ _
  split at h
  · cases h
  · cases h
    exact Nat.sub_le _ _

theorem offset_bareValue (h : bareValue total cs = .error e) : e.offset ≤ total := by
  unfold bareValue at h
  split at h
  · cases h
    exact Nat.sub_le _ _
  · cases h

theorem offset_attributeValue (h : attributeValue total cs = .error e) : e.offset ≤ total := by
  unfold attributeValue at h
  split at h
  · exact offset_bareValue h
  split at h
  · split at h
    · cases h
      exact Nat.sub_le _ _
    · cases h
  · exact offset_bareValue h

theorem offset_comparisonEnd (hstart : start ≤ total)
    (h : comparisonEnd total start name c rest = .error e) : e.offset ≤ total := by
  unfold comparisonEnd at h
  split at h
  · next herror =>
    cases h
    exact offset_comparison herror
  split at h
  · next herror =>
    cases h
    exact offset_attributeValue herror
  split at h
  · cases h
    exact hstart
  split at h
  · cases h
  · cases h
    exact Nat.sub_le _ _

theorem offset_attributeTest (hstart : start ≤ total)
    (h : attributeTest total start cs = .error e) : e.offset ≤ total := by
  unfold attributeTest at h
  split at h
  · cases h
    exact Nat.sub_le _ _
  split at h
  · cases h
    exact hstart
  split at h
  · cases h
  · exact offset_comparisonEnd hstart h

theorem offset_signed {sign : Char} {make : String → Lexeme}
    (h : signed total sign make rest = .error e) : e.offset ≤ total := by
  unfold signed at h
  split at h
  · cases h
    exact Nat.sub_le _ _
  · cases h

theorem offset_lexeme (h : lexeme total c rest = .error e) : e.offset ≤ total := by
  unfold lexeme at h
  split at h
  · exact offset_signed h
  split at h
  · exact offset_signed h
  split at h
  · cases h
  split at h
  · cases h
  split at h
  · split at h
    · next herror =>
      cases h
      exact offset_attributeTest (Nat.sub_le _ _) herror
    · cases h
  split at h
  · cases h
  split at h
  · cases h
  · cases h
    exact Nat.sub_le _ _

/-- Neither a lexeme nor a mistake stands behind the end. -/
theorem offset_lexemesFrom (total : Nat) (cs : List Char) :
    match lexemesFrom total cs with
    | .ok ls => ∀ l ∈ ls, l.1 ≤ total
    | .error e => e.offset ≤ total := by
  -- On the length, since a lexeme takes more than one character.
  induction hn : cs.length using Nat.strongRecOn generalizing cs with
  | _ n ih =>
    cases cs with
    | nil => simp [lexemesFrom_nil]
    | cons c rest =>
      cases hlexeme : lexeme total c rest with
      | error e =>
        rw [lexemesFrom_of_error hlexeme]
        exact offset_lexeme hlexeme
      | ok cut =>
        obtain ⟨l, after⟩ := cut
        have hlt : after.length < n := hn ▸ Nat.lt_succ_of_le (length_lexeme hlexeme)
        have hlater := ih after.length hlt after rfl
        rw [lexemesFrom_of_ok hlexeme]
        cases hls : lexemesFrom total after with
        | error e =>
          rw [hls] at hlater
          exact hlater
        | ok ls =>
          rw [hls] at hlater
          intro l hl
          rcases List.mem_cons.mp hl with rfl | hl
          · exact Nat.sub_le _ _
          · exact hlater l hl

end Hypertext.Selector
