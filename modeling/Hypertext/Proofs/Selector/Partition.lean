/-
Lexemes as a partition of the text. Each stands at its offset and spells the
text from there up to the next one, or to the end; and names and white space
take all there is of them, so none is followed by what it would have taken
(`Partition`). Cutting finds the one partition that a text has, and where it
finds none there is none (`lexemes_eq_ok_iff`).
-/
import Mathlib.Data.List.Chain
import Hypertext.Proofs.Selector.Mistakes

namespace Hypertext.Selector

/-- The second lexeme may stand right behind the first, which would not have gone on into it. -/
def Lexeme.Precedes : Lexeme → Lexeme → Prop
  | .ident _, next | .hasClass _, next | .hasId _, next => ∀ name, next ≠ .ident name
  | .blank, next => next ≠ .blank
  | .universal, _ | .hasAttribute _, _ | .child, _ => True

/-- Each lexeme with the text from its offset up to the next one's, or to the end. -/
def slices (cs : List Char) : List (Nat × Lexeme) → List (List Char × Lexeme)
  | [] => []
  | (offset, l) :: ls =>
    (cs.extract offset ((ls.head?.map (·.1)).getD cs.length), l) :: slices cs ls

/-- The lexemes, each at its offset, are the whole text and overlap nowhere. -/
structure Partition (cs : List Char) (ls : List (Nat × Lexeme)) : Prop where
  start : cs ≠ [] → ls.head?.map (·.1) = some 0
  increasing : ls.Pairwise (·.1 < ·.1)
  whole : (slices cs ls).flatMap (·.1) = cs
  spelled : ∀ slice ∈ slices cs ls, Spelling slice.1 slice.2
  apart : ls.IsChain (·.2.Precedes ·.2)

/-- The text, which begins at an offset, cut lexeme by lexeme. -/
inductive Cuts : Nat → List Char → List (Nat × Lexeme) → Prop where
  | nil {offset} : Cuts offset [] []
  | cons {offset text rest l ls} : Spelling text l → l.Stops rest →
    Cuts (offset + text.length) rest ls → Cuts offset (text ++ rest) ((offset, l) :: ls)

/-! ## What a lexeme begins with -/

section Heads

variable {cs rest : List Char} {l : Lexeme}

theorem Spelling.lacks_name_iff (h : Spelling cs l) :
    Lacks isNamePart (cs ++ rest) ↔ ∀ name, l ≠ .ident name := by
  cases h with
  | ident hname =>
    obtain ⟨c, name, rfl⟩ := List.exists_cons_of_ne_nil hname.ne_nil
    simp [lacks_cons, hname.parts c List.mem_cons_self]
  | universal => exact iff_of_true (lacks_cons.mpr (by decide)) (by simp)
  | hasClass _ => exact iff_of_true (lacks_cons.mpr (by decide)) (by simp)
  | hasId _ => exact iff_of_true (lacks_cons.mpr (by decide)) (by simp)
  | hasAttribute htest =>
    obtain ⟨tail, rfl⟩ := htest.head
    exact iff_of_true (lacks_cons.mpr (by decide)) (by simp)
  | blank hne hblanks => exact iff_of_true (lacks_append hne hblanks.lacks_name) (by simp)
  | child => exact iff_of_true (lacks_cons.mpr (by decide)) (by simp)

theorem Spelling.lacks_blank_iff (h : Spelling cs l) :
    Lacks isBlank (cs ++ rest) ↔ l ≠ .blank := by
  cases h with
  | ident hname => exact iff_of_true (lacks_append hname.ne_nil hname.lacks_blank) (by simp)
  | universal => exact iff_of_true (lacks_cons.mpr (by decide)) (by simp)
  | hasClass _ => exact iff_of_true (lacks_cons.mpr (by decide)) (by simp)
  | hasId _ => exact iff_of_true (lacks_cons.mpr (by decide)) (by simp)
  | hasAttribute htest =>
    obtain ⟨tail, rfl⟩ := htest.head
    exact iff_of_true (lacks_cons.mpr (by decide)) (by simp)
  | blank hne hblanks =>
    obtain ⟨c, w, rfl⟩ := List.exists_cons_of_ne_nil hne
    simp [lacks_cons, hblanks c List.mem_cons_self]
  | child => exact iff_of_true (lacks_cons.mpr (by decide)) (by simp)

end Heads

/-! ## Cutting -/

section Cutting

variable {offset total : Nat} {cs front : List Char} {l : Lexeme} {ls : List (Nat × Lexeme)}

theorem cuts_of_lexemesFrom (htotal : cs.length ≤ total) (h : lexemesFrom total cs = .ok ls) :
    Cuts (total - cs.length) cs ls := by
  -- On the length, since a lexeme takes more than one character.
  induction hn : cs.length using Nat.strongRecOn generalizing cs ls with
  | _ n ih =>
    cases cs with
    | nil =>
      rw [lexemesFrom_nil] at h
      cases h
      exact .nil
    | cons c rest =>
      cases hlexeme : lexeme total c rest with
      | error e =>
        rw [lexemesFrom_of_error hlexeme] at h
        cases h
      | ok cut =>
        obtain ⟨l, after⟩ := cut
        obtain ⟨text, htext, hspelling, hstops⟩ := spelling_of_lexeme hlexeme
        have hlt : after.length < n := hn ▸ Nat.lt_succ_of_le (length_lexeme hlexeme)
        have hlength := congrArg List.length htext
        rw [List.length_append] at hlength
        rw [lexemesFrom_of_ok hlexeme] at h
        cases hlater : lexemesFrom total after with
        | error e =>
          rw [hlater] at h
          cases h
        | ok later =>
          rw [hlater] at h
          cases h
          have hafter := ih after.length hlt (by omega) hlater rfl
          have hnext : total - after.length = total - n + text.length := by omega
          rw [hnext] at hafter
          rw [List.length_cons] at hn
          rw [htext, hn]
          exact .cons hspelling hstops hafter

theorem Cuts.lexemesFrom_eq (h : Cuts offset cs ls) :
    lexemesFrom (offset + cs.length) cs = .ok ls := by
  induction h with
  | nil => exact lexemesFrom_nil _
  | @cons offset text rest l ls hspelling hstops _ ih =>
    obtain ⟨c, tail, hcs, hlexeme⟩ := lexeme_of_spelling hspelling hstops
    have hlength := congrArg List.length hcs
    rw [List.length_cons] at hlength
    rw [Nat.add_assoc, ← List.length_append] at ih
    rw [hcs, lexemesFrom_of_ok (hlexeme _), ← hcs, ih, ← hlength, Nat.add_sub_cancel]
    rfl

theorem lexemes_eq_ok_iff_cuts : lexemes cs = .ok ls ↔ Cuts 0 cs ls := by
  constructor
  · intro h
    have hcuts := cuts_of_lexemesFrom (Nat.le_refl _) h
    rwa [Nat.sub_self] at hcuts
  · intro h
    have hls := h.lexemesFrom_eq
    rwa [Nat.zero_add] at hls

/-! ### Cuts are partitions -/

/-- The first lexeme stands where the text begins, which is its end if there is none. -/
theorem Cuts.next_eq (h : Cuts offset cs ls) :
    (ls.head?.map (·.1)).getD (offset + cs.length) = offset := by
  cases h <;> rfl

/-- Whether a lexeme would have gone on can be told from the next one. -/
theorem Cuts.stops_iff (h : Cuts offset cs ls) (l : Lexeme) :
    l.Stops cs ↔ ∀ next ∈ ls.head?, l.Precedes next.2 := by
  cases h with
  | nil => cases l <;> simp [Lexeme.Stops, lacks_nil]
  | cons hspelling _ _ =>
    cases l <;>
      simp [Lexeme.Stops, Lexeme.Precedes, hspelling.lacks_name_iff, hspelling.lacks_blank_iff]

theorem Cuts.increasing (h : Cuts offset cs ls) :
    ls.Pairwise (·.1 < ·.1) ∧ ∀ l ∈ ls, offset ≤ l.1 := by
  induction h with
  | nil => exact ⟨.nil, by simp⟩
  | cons hspelling _ _ ih =>
    have hpos := List.length_pos_iff.mpr hspelling.ne_nil
    refine ⟨List.pairwise_cons.mpr ⟨fun l hl => ?_, ih.1⟩, fun l hl => ?_⟩
    · have := ih.2 l hl
      omega
    · rcases List.mem_cons.mp hl with rfl | hl
      · exact Nat.le_refl _
      · have := ih.2 l hl
        omega

/-- The first slice is what is cut off first, whatever stands in front of it. -/
theorem Cuts.slices_cons {text rest : List Char} (h : Cuts (offset + text.length) rest ls)
    (hfront : front.length = offset) : slices (front ++ (text ++ rest)) ((offset, l) :: ls) =
      (text, l) :: slices (front ++ text ++ rest) ls := by
  have hnext := h.next_eq
  have hlength : offset + text.length + rest.length = (front ++ (text ++ rest)).length := by
    rw [List.length_append, List.length_append, hfront, Nat.add_assoc]
  rw [hlength] at hnext
  rw [slices, hnext, List.extract_eq_take_drop, ← hfront, List.drop_left, Nat.add_sub_cancel_left,
    List.take_left, List.append_assoc]

theorem Cuts.slices_spec (h : Cuts offset cs ls) (front : List Char) (hfront : front.length = offset) :
    (slices (front ++ cs) ls).flatMap (·.1) = cs ∧
      ∀ slice ∈ slices (front ++ cs) ls, Spelling slice.1 slice.2 := by
  induction h generalizing front with
  | nil => simp [slices]
  | @cons offset text rest l ls hspelling _ hlater ih =>
    obtain ⟨hwhole, hspelled⟩ := ih (front ++ text) (by rw [List.length_append, hfront])
    rw [hlater.slices_cons hfront]
    refine ⟨by rw [List.flatMap_cons, hwhole], fun slice hmem => ?_⟩
    rcases List.mem_cons.mp hmem with rfl | hmem
    · exact hspelling
    · exact hspelled slice hmem

theorem Cuts.apart (h : Cuts offset cs ls) : ls.IsChain (·.2.Precedes ·.2) := by
  induction h with
  | nil => exact .nil
  | cons _ hstops hlater ih => exact List.isChain_cons.mpr ⟨(hlater.stops_iff _).mp hstops, ih⟩

theorem Cuts.partition (h : Cuts 0 cs ls) : Partition cs ls where
  start hne := by
    cases h with
    | nil => exact absurd rfl hne
    | cons => rfl
  increasing := h.increasing.1
  whole := (h.slices_spec [] rfl).1
  spelled := (h.slices_spec [] rfl).2
  apart := h.apart

/-! ### Partitions are cuts -/

theorem lt_of_extract_ne_nil {start stop : Nat} (h : cs.extract start stop ≠ []) :
    start < stop ∧ start < cs.length := by
  have hpos := List.length_pos_iff.mpr h
  rw [List.extract_eq_take_drop, List.length_take, List.length_drop] at hpos
  omega

/-- Where the slices are spelled and could not have gone on, they are what is cut off. -/
theorem cuts_of_slices (hspelled : ∀ slice ∈ slices cs ls, Spelling slice.1 slice.2)
    (hapart : ls.IsChain (·.2.Precedes ·.2)) (hoffset : (ls.head?.map (·.1)).getD cs.length = offset) :
    offset ≤ cs.length ∧ Cuts offset (cs.drop offset) ls := by
  induction ls generalizing offset with
  | nil =>
    obtain rfl : cs.length = offset := hoffset
    rw [List.drop_length]
    exact ⟨Nat.le_refl _, .nil⟩
  | cons first ls ih =>
    obtain ⟨start, l⟩ := first
    obtain rfl : start = offset := hoffset
    obtain ⟨hnext, hlater⟩ := List.isChain_cons.mp hapart
    obtain ⟨hstop, hcuts⟩ := ih (fun slice hmem => hspelled slice (.tail _ hmem)) hlater rfl
    have hspelling := hspelled _ List.mem_cons_self
    generalize (ls.head?.map (·.1)).getD cs.length = stop at hstop hcuts hspelling
    obtain ⟨hlt, hknown⟩ := lt_of_extract_ne_nil hspelling.ne_nil
    have hlength : start + (cs.extract start stop).length = stop := by
      rw [List.extract_eq_take_drop, List.length_take, List.length_drop]
      omega
    have hsplit : cs.drop start = cs.extract start stop ++ cs.drop stop := by
      rw [List.extract_eq_take_drop, ← Nat.add_sub_cancel' (Nat.le_of_lt hlt), ← List.drop_drop,
        Nat.add_sub_cancel_left, List.take_append_drop]
    rw [hsplit]
    exact ⟨Nat.le_of_lt hknown,
      .cons hspelling ((hcuts.stops_iff l).mpr hnext) (by rw [hlength]; exact hcuts)⟩

theorem Partition.cuts (h : Partition cs ls) : Cuts 0 cs ls := by
  have hoffset : (ls.head?.map (·.1)).getD cs.length = 0 := by
    by_cases hnil : cs = []
    · subst hnil
      cases ls with
      | nil => rfl
      | cons first ls => exact absurd (by simp) (h.spelled _ List.mem_cons_self).ne_nil
    · rw [h.start hnil]
      rfl
  exact (cuts_of_slices h.spelled h.apart hoffset).2

/-- Cutting finds a partition, and there is no other. -/
theorem lexemes_eq_ok_iff : lexemes cs = .ok ls ↔ Partition cs ls :=
  lexemes_eq_ok_iff_cuts.trans ⟨Cuts.partition, Partition.cuts⟩

end Cutting

/-- **Lexemes partition the text.** A text that is cut is cut into the one partition it has: the first
lexeme stands at its beginning, each spells the text from its offset, in characters, up to the next
one or to the end, white space does not follow white space, nor a name what could have gone on with
it. A text that is refused has no partition, and the mistake stands inside it or at its end. -/
theorem lexemes_partition (source : String) :
    match lexemes source.toList with
    | .ok ls => Partition source.toList ls ∧ ∀ ls', Partition source.toList ls' → ls' = ls
    | .error e => e.offset ≤ source.length ∧ ∀ ls, ¬ Partition source.toList ls := by
  cases hlexemes : lexemes source.toList with
  | ok ls =>
    refine ⟨lexemes_eq_ok_iff.mp hlexemes, fun ls' h => ?_⟩
    cases hlexemes.symm.trans (lexemes_eq_ok_iff.mpr h)
    rfl
  | error e =>
    have hoffset := offset_lexemesFrom source.toList.length source.toList
    rw [← lexemes, hlexemes, String.length_toList] at hoffset
    refine ⟨hoffset, fun ls h => ?_⟩
    cases hlexemes.symm.trans (lexemes_eq_ok_iff.mpr h)

/-- Offsets count characters, and between quotes any may stand. -/
example : lexemes "é [a=\"] >\"]".toList =
    .ok [(0, .ident "é"), (1, .blank), (2, .hasAttribute (.compare "a" .equals "] >"))] := by
  cbv

end Hypertext.Selector
