/-
The grammar of selectors, and that reading accepts just what it derives. A
compound is a tag or `*` with conditions behind it, or conditions alone; a
selector is compounds with combinators between them, white space or `>`.

Reading goes from left to right with a draft of what is known so far. What it
has read spells that draft at each step (`Draft.Spelled.step`), and what spells a
selector leads the empty draft to it (`SelectorSpelling.leads`).
-/
import Hypertext.Proofs.Selector.Mistakes

namespace Hypertext.Selector

/-! ## Grammar -/

/-- The text spells what only the first condition of a compound can be. Tags are in capitals. -/
inductive HeadSpelling : List Char → Simple → Prop where
  | tag {name} : IsName name → HeadSpelling name (.tag (String.ofList name).toUpper)
  | universal : HeadSpelling ['*'] .universal

inductive PartSpelling : List Char → Simple → Prop where
  | hasClass {name} : IsName name → PartSpelling ('.' :: name) (.hasClass (.ofList name))
  | hasId {name} : IsName name → PartSpelling ('#' :: name) (.hasId (.ofList name))
  | hasAttribute {cs test} : TestSpelling cs test → PartSpelling cs (.hasAttribute test)

/-- The text spells the conditions of a compound, in their order. -/
inductive CompoundSpelling : List Char → Compound → Prop where
  | head {cs s} : HeadSpelling cs s → CompoundSpelling cs [s]
  | part {cs s} : PartSpelling cs s → CompoundSpelling cs [s]
  | more {cs compound part s} : CompoundSpelling cs compound → PartSpelling part s →
    CompoundSpelling (cs ++ part) (compound ++ [s])

inductive CombinatorSpelling : List Char → Combinator → Prop where
  | descendant {w} : w ≠ [] → Blanks w → CombinatorSpelling w .descendant
  | child {w₁ w₂} : Blanks w₁ → Blanks w₂ → CombinatorSpelling (w₁ ++ '>' :: w₂) .child

/-- The text spells a selector: its last compound, and the others from right to left, each with the
combinator that joins it to the one on its right. -/
inductive SelectorSpelling : List Char → List (Combinator × Compound) → Compound → Prop where
  | single {cs subject} : CompoundSpelling cs subject → SelectorSpelling cs [] subject
  | joined {cs chain left sign combinator more subject} : SelectorSpelling cs chain left →
    CombinatorSpelling sign combinator → CompoundSpelling more subject →
    SelectorSpelling (cs ++ (sign ++ more)) ((combinator, left) :: chain) subject

section Spellings

variable {cs more sign w : List Char} {s : Simple} {compound subject : Compound}
  {chain : List (Combinator × Compound)} {combinator : Combinator}

theorem CompoundSpelling.ne_nil (h : CompoundSpelling cs compound) : compound ≠ [] := by
  cases h <;> simp

theorem SelectorSpelling.ne_nil (h : SelectorSpelling cs chain subject) : subject ≠ [] := by
  cases h with
  | single h => exact h.ne_nil
  | joined _ _ h => exact h.ne_nil

/-- The last compound may go on. -/
theorem SelectorSpelling.push (h : SelectorSpelling cs chain subject) (hpart : PartSpelling more s) :
    SelectorSpelling (cs ++ more) chain (subject ++ [s]) := by
  cases h with
  | single h => exact .single (h.more hpart)
  | joined h hsign hsubject =>
    rw [List.append_assoc, List.append_assoc]
    exact .joined h hsign (hsubject.more hpart)

/-- White space behind a combinator is part of it. -/
theorem CombinatorSpelling.blanks (h : CombinatorSpelling sign combinator) (hw : Blanks w) :
    CombinatorSpelling (sign ++ w) combinator := by
  have hboth : ∀ {w₁}, Blanks w₁ → Blanks (w₁ ++ w) := fun hw₁ c hc =>
    (List.mem_append.mp hc).elim (hw₁ c) (hw c)
  cases h with
  | descendant hne hblanks => exact .descendant (by simp [hne]) (hboth hblanks)
  | child hw₁ hw₂ =>
    rw [List.append_assoc, List.cons_append]
    exact .child hw₁ (hboth hw₂)

/-! ### First characters -/

theorem PartSpelling.lacks_name (h : PartSpelling cs s) : cs ≠ [] ∧ Lacks isNamePart cs := by
  cases h with
  | hasClass _ => exact ⟨by simp, lacks_cons.mpr (by decide)⟩
  | hasId _ => exact ⟨by simp, lacks_cons.mpr (by decide)⟩
  | hasAttribute h =>
    obtain ⟨rest, rfl⟩ := h.head
    exact ⟨by simp, lacks_cons.mpr (by decide)⟩

theorem PartSpelling.lacks_blank (h : PartSpelling cs s) : Lacks isBlank cs := by
  cases h with
  | hasClass _ => exact lacks_cons.mpr (by decide)
  | hasId _ => exact lacks_cons.mpr (by decide)
  | hasAttribute h =>
    obtain ⟨rest, rfl⟩ := h.head
    exact lacks_cons.mpr (by decide)

theorem CompoundSpelling.lacks_blank (h : CompoundSpelling cs compound) :
    cs ≠ [] ∧ Lacks isBlank cs := by
  induction h with
  | head h =>
    cases h with
    | tag hname => exact ⟨hname.ne_nil, hname.lacks_blank⟩
    | universal => exact ⟨by simp, lacks_cons.mpr (by decide)⟩
  | part h => exact ⟨h.lacks_name.1, h.lacks_blank⟩
  | more _ _ ih => exact ⟨by simp [ih.1], lacks_append ih.1 ih.2⟩

theorem CombinatorSpelling.lacks_name (h : CombinatorSpelling sign combinator) :
    sign ≠ [] ∧ Lacks isNamePart sign := by
  cases h with
  | descendant hne hw => exact ⟨hne, hw.lacks_name⟩
  | child hw₁ _ =>
    exact ⟨by simp, hw₁.lacks_append (fun _ => not_namePart_of_blank) (lacks_cons.mpr (by decide))⟩

end Spellings

/-! ## What is read is spelled -/

namespace Draft

/-- The text spells what has been drafted. -/
inductive Spelled : List Char → Draft → Prop where
  | empty : Spelled [] {}
  | settled {cs chain current} : SelectorSpelling cs chain current →
    Spelled cs { chain, current }
  | pending {cs chain current sign combinator} : SelectorSpelling cs chain current →
    CombinatorSpelling sign combinator →
    Spelled (cs ++ sign) { chain, current, pending := some combinator }

variable {cs more : List Char} {d d' d₁ : Draft} {s : Simple} {l : Lexeme} {offset : Nat}

/-- A condition that may stand anywhere in a compound. -/
theorem Spelled.add (h : Spelled cs d) (hs : PartSpelling more s) : Spelled (cs ++ more) (d.add s) := by
  cases h with
  | empty => exact .settled (.single (.part hs))
  | settled h => exact .settled (h.push hs)
  | pending h hsign =>
    rw [List.append_assoc]
    exact .settled (.joined h hsign (.part hs))

/-- A condition that can only be the first of its compound. -/
theorem Spelled.addFirst (h : Spelled cs d) (hs : HeadSpelling more s)
    (hadd : d.addFirst offset s = .ok d') : Spelled (cs ++ more) d' := by
  unfold Draft.addFirst at hadd
  split at hadd
  · cases hadd
  · next hfree =>
    cases hadd
    cases h with
    | empty => exact .settled (.single (.head hs))
    | settled h => exact absurd ⟨rfl, h.ne_nil⟩ hfree
    | pending h hsign =>
      rw [List.append_assoc]
      exact .settled (.joined h hsign (.head hs))

/-- White space, which does not come first. -/
theorem Spelled.blank (h : Spelled cs d) (hcs : cs ≠ []) (hne : more ≠ []) (hmore : Blanks more) :
    Spelled (cs ++ more) { d with pending := d.pending.or (some .descendant) } := by
  cases h with
  | empty => exact absurd rfl hcs
  | settled h => exact .pending h (.descendant hne hmore)
  | pending h hsign =>
    rw [List.append_assoc]
    exact .pending h (hsign.blanks hmore)

theorem Spelled.child (h : Spelled cs d) (hstep : d.step (offset, .child) = .ok d') :
    Spelled (cs ++ ['>']) d' := by
  simp only [step] at hstep
  split at hstep
  · cases hstep
  split at hstep
  · cases hstep
  · next hcurrent hpending =>
    cases hstep
    cases h with
    | empty => exact absurd rfl hcurrent
    | settled h => exact .pending h (@CombinatorSpelling.child [] [] (by simp [Blanks]) (by simp [Blanks]))
    | @pending cs chain current sign combinator h hsign =>
      rw [List.append_assoc]
      cases hsign with
      | descendant _ hw => exact .pending h (.child hw (by simp [Blanks]))
      | child _ _ => exact absurd rfl hpending

/-- One more lexeme. -/
theorem Spelled.step (h : Spelled cs d) (hl : Spelling more l) (hfirst : cs = [] → l ≠ .blank)
    (hstep : d.step (offset, l) = .ok d') : Spelled (cs ++ more) d' := by
  cases hl with
  | ident hname => exact h.addFirst (.tag hname) hstep
  | universal => exact h.addFirst .universal hstep
  | hasClass hname =>
    cases hstep
    exact h.add (.hasClass hname)
  | hasId hname =>
    cases hstep
    exact h.add (.hasId hname)
  | hasAttribute htest =>
    cases hstep
    exact h.add (.hasAttribute htest)
  | blank hne hblanks =>
    cases hstep
    exact h.blank (fun hcs => hfirst hcs rfl) hne hblanks
  | child => exact h.child hstep

/-! ## Reading on -/

/-- Reading the text leads from one draft to another. -/
def Leads (total : Nat) (d : Draft) (cs : List Char) (d' : Draft) : Prop :=
  ∃ ls, lexemesFrom total cs = .ok ls ∧ ls.foldlM Draft.step d = .ok d'

variable {total : Nat} {c : Char} {rest after : List Char}

theorem leads_nil : Leads total d [] d' ↔ d' = d := by
  simp only [Leads, lexemesFrom_nil, Except.ok.injEq, exists_eq_left', List.foldlM_nil]
  exact ⟨fun h => (Except.ok.inj h).symm, fun h => congrArg Except.ok h.symm⟩

theorem Leads.uncons (h : Leads total d (c :: rest) d') : ∃ l after offset d₁,
    lexeme total c rest = .ok (l, after) ∧ d.step (offset, l) = .ok d₁ ∧ Leads total d₁ after d' := by
  obtain ⟨ls, hls, hfold⟩ := h
  cases hlexeme : lexeme total c rest with
  | error e =>
    rw [lexemesFrom_of_error hlexeme] at hls
    cases hls
  | ok cut =>
    obtain ⟨l, after⟩ := cut
    rw [lexemesFrom_of_ok hlexeme] at hls
    cases hlater : lexemesFrom total after with
    | error e =>
      rw [hlater] at hls
      cases hls
    | ok later =>
      rw [hlater] at hls
      cases hls
      rw [List.foldlM_cons] at hfold
      cases hstep : d.step (total - (rest.length + 1), l) with
      | error e =>
        rw [hstep] at hfold
        cases hfold
      | ok d₁ =>
        rw [hstep] at hfold
        exact ⟨l, after, _, d₁, rfl, hstep, later, hlater, hfold⟩

/-- A lexeme that is spelled is read, and the draft takes it in. -/
theorem leads_of_spelling (hl : Spelling more l) (hstops : l.Stops rest)
    (hstep : ∀ offset, d.step (offset, l) = .ok d₁) (h : Leads total d₁ rest d') :
    Leads total d (more ++ rest) d' := by
  obtain ⟨c, tail, hcs, hlexeme⟩ := lexeme_of_spelling hl hstops
  obtain ⟨ls, hls, hfold⟩ := h
  rw [hcs]
  refine ⟨(total - (tail.length + 1), l) :: ls, ?_, ?_⟩
  · rw [lexemesFrom_of_ok (hlexeme total), hls]
    rfl
  · rw [List.foldlM_cons, hstep]
    exact hfold

/-- What leads from a draft to another spells the rest of the other. -/
theorem Spelled.leads (h : Spelled cs d) (hleads : Leads total d rest d')
    (hfirst : cs = [] → Lacks isBlank rest) : Spelled (cs ++ rest) d' := by
  induction hn : rest.length using Nat.strongRecOn generalizing cs d rest with
  | _ n ih =>
    cases rest with
    | nil =>
      rw [leads_nil.mp hleads, List.append_nil]
      exact h
    | cons c rest =>
      obtain ⟨l, after, offset, d₁, hlexeme, hstep, hlater⟩ := hleads.uncons
      obtain ⟨more, hmore, hl, -⟩ := spelling_of_lexeme hlexeme
      -- White space at the very beginning would be no combinator, and there is none.
      have hblank : cs = [] → l ≠ .blank := by
        rintro hcs rfl
        cases hl with
        | blank hne hblanks =>
          obtain ⟨b, more, rfl⟩ := List.exists_cons_of_ne_nil hne
          obtain ⟨rfl, -⟩ := List.cons.inj hmore
          have hb := hblanks c List.mem_cons_self
          rw [lacks_cons.mp (hfirst hcs)] at hb
          cases hb
      have hlt : after.length < n := hn ▸ Nat.lt_succ_of_le (length_lexeme hlexeme)
      rw [hmore, ← List.append_assoc]
      exact ih after.length hlt (h.step hl hblank hstep) hlater
        (fun hnil => absurd (List.append_eq_nil_iff.mp hnil).2 hl.ne_nil) rfl

/-! ## What is spelled is read -/

/-- The next condition opens a compound. -/
def Ready (d : Draft) : Prop :=
  d.pending.isSome = true ∨ d.current = []

/-- The draft with a new compound, which a combinator joins to what was there. -/
def opened (d : Draft) (compound : Compound) : Draft :=
  match d.pending with
  | none => { d with current := compound }
  | some combinator => { chain := (combinator, d.current) :: d.chain, current := compound }

theorem Ready.add_eq (h : d.Ready) (s : Simple) : d.add s = d.opened [s] := by
  cases hpending : d.pending with
  | none =>
    have hcurrent : d.current = [] := h.resolve_left (by simp [hpending])
    simp only [Draft.add, opened, hpending, hcurrent, List.nil_append]
  | some combinator => simp only [Draft.add, opened, hpending]

theorem Ready.addFirst_eq (h : d.Ready) (offset : Nat) (s : Simple) :
    d.addFirst offset s = .ok (d.opened [s]) := by
  rw [addFirst, if_neg, h.add_eq]
  rintro ⟨hnone, hcurrent⟩
  rcases h with h | h
  · rw [Option.isNone_iff_eq_none] at hnone
    simp [hnone] at h
  · exact hcurrent h

theorem add_opened (d : Draft) (compound : Compound) (s : Simple) :
    (d.opened compound).add s = d.opened (compound ++ [s]) := by
  unfold opened
  cases hpending : d.pending with
  | none => simp only [Draft.add]
  | some combinator => rfl

end Draft

section Leads

open Draft (Leads leads_of_spelling)

variable {total : Nat} {d d' : Draft} {cs rest sign : List Char} {s : Simple}
  {compound current subject : Compound} {chain : List (Combinator × Compound)}
  {combinator : Combinator}

theorem PartSpelling.leads (h : PartSpelling cs s) (hrest : Lacks isNamePart rest)
    (hleads : Leads total (d.add s) rest d') : Leads total d (cs ++ rest) d' := by
  cases h with
  | hasClass hname => exact leads_of_spelling (.hasClass hname) hrest (fun _ => rfl) hleads
  | hasId hname => exact leads_of_spelling (.hasId hname) hrest (fun _ => rfl) hleads
  | hasAttribute htest =>
    exact leads_of_spelling (.hasAttribute htest) trivial (fun _ => rfl) hleads

theorem CompoundSpelling.leads (h : CompoundSpelling cs compound) (hd : d.Ready)
    (hrest : Lacks isNamePart rest) (hleads : Leads total (d.opened compound) rest d') :
    Leads total d (cs ++ rest) d' := by
  induction h generalizing rest with
  | head h =>
    cases h with
    | tag hname => exact leads_of_spelling (.ident hname) hrest (hd.addFirst_eq · _) hleads
    | universal => exact leads_of_spelling .universal trivial (hd.addFirst_eq · _) hleads
  | part h =>
    rw [← hd.add_eq] at hleads
    exact h.leads hrest hleads
  | more _ hpart ih =>
    rw [← Draft.add_opened] at hleads
    rw [List.append_assoc]
    exact ih (lacks_append hpart.lacks_name.1 hpart.lacks_name.2) (hpart.leads hrest hleads)

theorem CombinatorSpelling.leads (h : CombinatorSpelling sign combinator) (hcurrent : current ≠ [])
    (hrest : Lacks isBlank rest)
    (hleads : Leads total { chain, current, pending := some combinator } rest d') :
    Leads total { chain, current } (sign ++ rest) d' := by
  cases h with
  | descendant hne hw => exact leads_of_spelling (.blank hne hw) hrest (fun _ => rfl) hleads
  | @child w₁ w₂ hw₁ hw₂ =>
    -- The blanks around the sign are lexemes of their own: those before it make a combinator that it
    -- replaces, those behind it leave it as it is.
    have hbehind : Leads total { chain, current, pending := some .child } (w₂ ++ rest) d' := by
      by_cases hnil : w₂ = []
      · rw [hnil]
        exact hleads
      · exact leads_of_spelling (.blank hnil hw₂) hrest (fun _ => rfl) hleads
    have hchild : ∀ pending, pending ≠ some .child →
        Leads total { chain, current, pending } ('>' :: (w₂ ++ rest)) d' := fun pending hpending =>
      leads_of_spelling .child trivial (fun _ => by
        simp only [Draft.step, if_neg hcurrent, if_neg hpending]) hbehind
    rw [List.append_assoc, List.cons_append]
    by_cases hnil : w₁ = []
    · rw [hnil]
      exact hchild none (by simp)
    · exact leads_of_spelling (.blank hnil hw₁) (lacks_cons.mpr (by decide)) (fun _ => rfl)
        (hchild (some .descendant) (by simp))

/-- What spells a selector is read as that selector. -/
theorem SelectorSpelling.leads (h : SelectorSpelling cs chain subject)
    (hrest : Lacks isNamePart rest) (hleads : Leads total { chain, current := subject } rest d') :
    Leads total {} (cs ++ rest) d' := by
  induction h generalizing rest with
  | single h => exact h.leads (d := {}) (.inr rfl) hrest hleads
  | joined h hsign hmore ih =>
    rw [List.append_assoc, List.append_assoc]
    refine ih (lacks_append hsign.lacks_name.1 hsign.lacks_name.2) ?_
    refine hsign.leads h.ne_nil (lacks_append hmore.lacks_blank.1 hmore.lacks_blank.2) ?_
    exact hmore.leads (.inl rfl) hrest hleads

end Leads

/-! ## Selectors -/

end Hypertext.Selector
