/-
How lexemes are spelled, and that cutting finds spellings: what is cut off an
input is a lexeme just where it spells that lexeme and the rest could not have
been part of it (`lexeme_eq_ok_iff`). A name takes all the name characters there
are and white space all the blanks; the other lexemes tell themselves where they
end.
-/
import Hypertext.Selector.Lexeme

namespace Hypertext.Selector

/-! ## Spellings -/

/-- White space, perhaps none. -/
def Blanks (cs : List Char) : Prop :=
  ∀ c ∈ cs, isBlank c = true

structure IsName (cs : List Char) : Prop where
  ne_nil : cs ≠ []
  parts : ∀ c ∈ cs, isNamePart c = true

/-- The text spells the value of an attribute, in quotes or without. -/
inductive ValueSpelling : List Char → List Char → Prop where
  | quoted {quote value} : isQuoteMark quote = true → quote ∉ value →
    ValueSpelling (quote :: value ++ [quote]) value
  | bare {value} : value ≠ [] → (∀ c ∈ value, isBareChar c = true) → ValueSpelling value value

/-- The text spells an attribute selector, with white space between any two of its parts. -/
inductive TestSpelling : List Char → AttributeTest → Prop where
  | present {w₁ name w₂} : Blanks w₁ → IsName name → Blanks w₂ →
    TestSpelling ('[' :: (w₁ ++ (name ++ (w₂ ++ [']'])))) (.present (.ofList name))
  | compare {w₁ name w₂ w₃ text value w₄} (comparison : Comparison) : Blanks w₁ → IsName name →
    Blanks w₂ → Blanks w₃ → ValueSpelling text value → Blanks w₄ →
    TestSpelling
      ('[' :: (w₁ ++ (name ++ (w₂ ++ (comparison.symbol.toList ++ (w₃ ++ (text ++ (w₄ ++ [']']))))))))
      (.compare (.ofList name) comparison (.ofList value))

inductive Spelling : List Char → Lexeme → Prop where
  | ident {name} : IsName name → Spelling name (.ident (.ofList name))
  | universal : Spelling ['*'] .universal
  | hasClass {name} : IsName name → Spelling ('.' :: name) (.hasClass (.ofList name))
  | hasId {name} : IsName name → Spelling ('#' :: name) (.hasId (.ofList name))
  | hasAttribute {cs test} : TestSpelling cs test → Spelling cs (.hasAttribute test)
  | blank {cs} : cs ≠ [] → Blanks cs → Spelling cs .blank
  | child : Spelling ['>'] .child

/-- The text does not begin with one of the characters. -/
def Lacks (p : Char → Bool) (cs : List Char) : Prop :=
  ∀ c ∈ cs.head?, p c = false

/-- The lexeme could not have gone on into the text. -/
def Lexeme.Stops (cs : List Char) : Lexeme → Prop
  | .ident _ | .hasClass _ | .hasId _ => Lacks isNamePart cs
  | .blank => Lacks isBlank cs
  | .universal | .hasAttribute _ | .child => True

/-! ## Runs of characters -/

section Runs

variable {p : Char → Bool} {front rest cs : List Char} {c : Char}

theorem lacks_nil (p : Char → Bool) : Lacks p [] := by
  simp [Lacks]

theorem lacks_cons : Lacks p (c :: cs) ↔ p c = false := by
  simp [Lacks]

theorem lacks_append (h : front ≠ []) (hfront : Lacks p front) : Lacks p (front ++ rest) := by
  cases front with
  | nil => exact absurd rfl h
  | cons c front => exact hfront

theorem lacks_dropWhile (p : Char → Bool) (cs : List Char) : Lacks p (cs.dropWhile p) := by
  intro c hc
  have hhead := List.head?_dropWhile_not p cs
  rw [Option.mem_def] at hc
  rw [hc] at hhead
  simpa using hhead

/-- A run ends where the rest lacks its characters. -/
theorem dropWhile_run (hfront : ∀ c ∈ front, p c = true) (hrest : Lacks p rest) :
    (front ++ rest).dropWhile p = rest := by
  rw [List.dropWhile_append_of_pos hfront]
  cases rest with
  | nil => rfl
  | cons c rest => exact List.dropWhile_cons_of_neg (by simp [lacks_cons.mp hrest])

theorem takeWhile_run (hfront : ∀ c ∈ front, p c = true) (hrest : Lacks p rest) :
    (front ++ rest).takeWhile p = front := by
  rw [List.takeWhile_append_of_pos hfront]
  cases rest with
  | nil => simp
  | cons c rest => rw [List.takeWhile_cons_of_neg (by simp [lacks_cons.mp hrest]), List.append_nil]

theorem of_mem_takeWhile (h : c ∈ cs.takeWhile p) : p c = true :=
  List.all_eq_true.mp List.all_takeWhile c h

/-- What is skipped is white space. -/
theorem exists_blanks (cs : List Char) : ∃ w, Blanks w ∧ cs = w ++ skipBlanks cs :=
  ⟨cs.takeWhile isBlank, fun _ h => of_mem_takeWhile h, List.takeWhile_append_dropWhile.symm⟩

theorem skipBlanks_run (hw : Blanks front) (hrest : Lacks isBlank rest) :
    skipBlanks (front ++ rest) = rest :=
  dropWhile_run hw hrest

/-- A name and what follows it. -/
theorem isName_takeWhile (h : cs.takeWhile isNamePart ≠ []) : IsName (cs.takeWhile isNamePart) :=
  ⟨h, fun _ hc => of_mem_takeWhile hc⟩

theorem not_namePart_of_blank (h : isBlank c = true) : isNamePart c = false := by
  simp only [isBlank, Bool.or_eq_true, beq_iff_eq] at h
  rcases h with (((rfl | rfl) | rfl) | rfl) | rfl <;> decide

theorem not_blank_of_namePart (h : isNamePart c = true) : isBlank c = false :=
  Bool.eq_false_iff.mpr fun hc => by simp [not_namePart_of_blank hc] at h

theorem IsName.lacks_blank (h : IsName cs) : Lacks isBlank cs := by
  intro c hc
  exact not_blank_of_namePart (h.parts c (List.mem_of_mem_head? hc))

theorem Blanks.lacks_name (h : Blanks cs) : Lacks isNamePart cs :=
  fun c hc => not_namePart_of_blank (h c (List.mem_of_mem_head? hc))

/-- White space does not matter to what a text lacks, as long as what is lacked is no blank. -/
theorem Blanks.lacks_append (h : Blanks front) (hp : ∀ c, isBlank c = true → p c = false)
    (hrest : Lacks p rest) : Lacks p (front ++ rest) := by
  cases front with
  | nil => exact hrest
  | cons c front => exact lacks_cons.mpr (hp c (h c List.mem_cons_self))

end Runs

/-! ## Attribute selectors -/

section Tests

variable {total start : Nat} {c : Char} {cs rest after text value name : List Char}
  {found : Comparison} {test : AttributeTest}

/-- A comparison is read where its sign stands. -/
theorem comparison_eq_ok_iff :
    comparison total c rest = .ok (found, after) ↔ c :: rest = found.symbol.toList ++ after := by
  constructor
  · intro h
    unfold comparison at h
    split at h
    · next hc =>
      cases h
      rw [hc]
      rfl
    · split at h
      · cases h
      · next found' hsign =>
        split at h
        · next hhead =>
          cases h
          obtain ⟨rest, rfl⟩ := List.head?_eq_some_iff.mp hhead
          unfold Comparison.ofSign? at hsign
          split at hsign <;> cases hsign <;> rfl
        · cases h
  · intro h
    cases found <;> cases h <;> rfl

theorem symbol_ne_nil (found : Comparison) : found.symbol.toList ≠ [] := by
  cases found <;> decide

theorem lacks_blank_symbol (found : Comparison) : Lacks isBlank found.symbol.toList := by
  cases found <;> exact lacks_cons.mpr (by decide)

theorem lacks_name_symbol (found : Comparison) : Lacks isNamePart found.symbol.toList := by
  cases found <;> exact lacks_cons.mpr (by decide)

theorem not_bareChar_of_blank (h : isBlank c = true) : isBareChar c = false := by
  simp [isBareChar, h]

theorem spelling_of_bareValue (h : bareValue total cs = .ok (value, after)) :
    cs = value ++ after ∧ ValueSpelling value value := by
  unfold bareValue at h
  split at h
  · cases h
  · next hne =>
    cases h
    exact ⟨List.takeWhile_append_dropWhile.symm, .bare hne fun _ hc => of_mem_takeWhile hc⟩

theorem spelling_of_attributeValue (h : attributeValue total cs = .ok (value, after)) :
    ∃ text, cs = text ++ after ∧ ValueSpelling text value := by
  unfold attributeValue at h
  split at h
  · exact ⟨value, spelling_of_bareValue h⟩
  · next quote rest =>
    split at h
    · next hquote =>
      split at h
      · cases h
      · next closing after' hdrop =>
        cases h
        have hclosing := List.head?_dropWhile_not (fun d => decide (d ≠ quote)) rest
        rw [hdrop] at hclosing
        obtain rfl : closing = quote := by simpa using hclosing
        refine ⟨closing :: rest.takeWhile (fun d => decide (d ≠ closing)) ++ [closing], ?_,
          .quoted hquote fun hmem => ?_⟩
        · have hrest := List.takeWhile_append_dropWhile (p := fun d => decide (d ≠ closing)) (l := rest)
          rw [hdrop] at hrest
          rw [List.cons_append, List.cons_append, List.append_assoc, List.singleton_append, hrest]
        · simpa using of_mem_takeWhile hmem
    · exact ⟨value, spelling_of_bareValue h⟩

theorem attributeValue_of_spelling (h : ValueSpelling text value) (hafter : Lacks isBareChar after) :
    attributeValue total (text ++ after) = .ok (value, after) := by
  cases h with
  | @quoted quote _ hquote hvalue =>
    have hrun : ∀ d ∈ value, decide (d ≠ quote) = true := fun d hd =>
      decide_eq_true fun heq => hvalue (heq ▸ hd)
    have hstop : Lacks (fun d => decide (d ≠ quote)) (quote :: after) := lacks_cons.mpr (by simp)
    have hcs : quote :: value ++ [quote] ++ after = quote :: (value ++ quote :: after) := by simp
    rw [hcs, attributeValue, if_pos hquote, dropWhile_run hrun hstop, takeWhile_run hrun hstop]
  | bare hne hchars =>
    have hbare : bareValue total (text ++ after) = .ok (text, after) := by
      rw [bareValue, takeWhile_run hchars hafter, dropWhile_run hchars hafter]
      split
      · exact absurd rfl hne
      · rfl
    obtain ⟨c, text, rfl⟩ := List.exists_cons_of_ne_nil hne
    have hquote : isQuoteMark c = false := by
      have hc := hchars c List.mem_cons_self
      simp only [isBareChar, Bool.not_eq_true', Bool.or_eq_false_iff] at hc
      exact hc.2
    rw [List.cons_append] at hbare ⊢
    simp only [attributeValue, hquote, Bool.false_eq_true, if_false, hbare]

/-- A value does not begin with white space. -/
theorem ValueSpelling.lacks_blank (h : ValueSpelling text value) :
    text ≠ [] ∧ Lacks isBlank text := by
  cases h with
  | @quoted quote _ hquote _ =>
    refine ⟨by simp, lacks_cons.mpr ?_⟩
    simp only [isQuoteMark, Bool.or_eq_true, beq_iff_eq] at hquote
    rcases hquote with rfl | rfl <;> decide
  | bare hne hchars =>
    refine ⟨hne, fun c hc => Bool.eq_false_iff.mpr fun hblank => ?_⟩
    have hbare := hchars c (List.mem_of_mem_head? hc)
    simp [not_bareChar_of_blank hblank] at hbare

theorem spelling_of_comparisonEnd (h : comparisonEnd total start name c rest = .ok (test, after)) :
    ∃ found w₃ text value w₄, Blanks w₃ ∧ ValueSpelling text value ∧ Blanks w₄ ∧
      c :: rest = found.symbol.toList ++ (w₃ ++ (text ++ (w₄ ++ (']' :: after)))) ∧
      test = .compare (.ofList name) found (.ofList value) := by
  unfold comparisonEnd at h
  split at h
  · cases h
  · next found rest' hfound =>
    split at h
    · cases h
    · next value rest'' hvalue =>
      split at h
      · cases h
      · next d rest''' hskip =>
        split at h
        · next hd =>
          cases h
          obtain ⟨w₃, hw₃, hrest⟩ := exists_blanks rest'
          obtain ⟨text, htext, hspelling⟩ := spelling_of_attributeValue hvalue
          obtain ⟨w₄, hw₄, hrest'⟩ := exists_blanks rest''
          rw [hskip, hd] at hrest'
          rw [htext, hrest'] at hrest
          refine ⟨found, w₃, text, value, w₄, hw₃, hspelling, hw₄, ?_, rfl⟩
          rw [comparison_eq_ok_iff.mp hfound, hrest]
        · cases h

theorem comparisonEnd_of_spelling {w₃ w₄ : List Char} (hw₃ : Blanks w₃)
    (hvalue : ValueSpelling text value) (hw₄ : Blanks w₄)
    (hrest : c :: rest = found.symbol.toList ++ (w₃ ++ (text ++ (w₄ ++ (']' :: after))))) :
    comparisonEnd total start name c rest =
      .ok (.compare (.ofList name) found (.ofList value), after) := by
  obtain ⟨hne, hblank⟩ := hvalue.lacks_blank
  have hclosed : Lacks isBareChar (w₄ ++ ']' :: after) :=
    hw₄.lacks_append (fun _ => not_bareChar_of_blank) (lacks_cons.mpr (by decide))
  simp only [comparisonEnd, comparison_eq_ok_iff.mpr hrest,
    skipBlanks_run hw₃ (lacks_append hne hblank), attributeValue_of_spelling hvalue hclosed,
    skipBlanks_run hw₄ (lacks_cons.mpr (show isBlank ']' = false by decide)), if_true]

theorem spelling_of_attributeTest (h : attributeTest total start rest = .ok (test, after)) :
    ∃ cs, '[' :: rest = cs ++ after ∧ TestSpelling cs test := by
  obtain ⟨w₁, hw₁, hrest⟩ := exists_blanks rest
  unfold attributeTest at h
  generalize hcs : skipBlanks rest = cs at h hrest
  obtain ⟨w₂, hw₂, hcs'⟩ := exists_blanks (cs.dropWhile isNamePart)
  have hsplit := List.takeWhile_append_dropWhile (p := isNamePart) (l := cs)
  rw [hcs'] at hsplit
  split at h
  · cases h
  · next hne =>
    have hname := isName_takeWhile hne
    generalize cs.takeWhile isNamePart = name at h hsplit hname
    generalize skipBlanks (cs.dropWhile isNamePart) = end' at h hsplit
    split at h
    · cases h
    · next c later =>
      split at h
      · next hc =>
        cases h
        refine ⟨_, ?_, .present hw₁ hname hw₂⟩
        rw [hrest, ← hsplit, hc]
        simp
      · obtain ⟨found, w₃, text, value, w₄, hw₃, hvalue, hw₄, hlater, rfl⟩ :=
          spelling_of_comparisonEnd h
        refine ⟨_, ?_, .compare found hw₁ hname hw₂ hw₃ hvalue hw₄⟩
        rw [hrest, ← hsplit, hlater]
        simp

theorem attributeTest_of_spelling (h : TestSpelling ('[' :: cs) test) :
    attributeTest total start (cs ++ after) = .ok (test, after) := by
  -- What follows the name, up to the end: the closing bracket, or a comparison.
  have hread : ∀ {w₁ name w₂ : List Char} {c : Char} {later : List Char}, Blanks w₁ → IsName name →
      Blanks w₂ → isBlank c = false → isNamePart c = false →
      attributeTest total start (w₁ ++ (name ++ (w₂ ++ c :: later))) =
        if c = ']' then .ok (.present (.ofList name), later)
        else comparisonEnd total start name c later := by
    intro w₁ name w₂ c later hw₁ hname hw₂ hblank hpart
    have hrest : Lacks isNamePart (w₂ ++ c :: later) :=
      hw₂.lacks_append (fun _ => not_namePart_of_blank) (lacks_cons.mpr hpart)
    simp only [attributeTest, skipBlanks_run hw₁ (lacks_append hname.ne_nil hname.lacks_blank),
      takeWhile_run hname.parts hrest, dropWhile_run hname.parts hrest,
      skipBlanks_run hw₂ (lacks_cons.mpr hblank)]
    split
    · exact absurd rfl hname.ne_nil
    · rfl
  generalize hopen : '[' :: cs = text at h
  cases h with
  | present hw₁ hname hw₂ =>
    obtain ⟨-, rfl⟩ := List.cons.inj hopen
    have hblank : isBlank ']' = false := by decide
    have hpart : isNamePart ']' = false := by decide
    simp only [List.append_assoc, List.singleton_append]
    rw [hread hw₁ hname hw₂ hblank hpart, if_pos rfl]
  | compare found hw₁ hname hw₂ hw₃ hvalue hw₄ =>
    obtain ⟨-, rfl⟩ := List.cons.inj hopen
    obtain ⟨c, sign, hsymbol⟩ := List.exists_cons_of_ne_nil (symbol_ne_nil found)
    have hblank := lacks_blank_symbol found
    have hpart := lacks_name_symbol found
    have hclosing : c ≠ ']' := by
      rintro rfl
      cases found <;> cases hsymbol
    rw [hsymbol, lacks_cons] at hblank hpart
    simp only [hsymbol, List.cons_append, List.append_assoc]
    rw [hread hw₁ hname hw₂ hblank hpart, if_neg hclosing]
    refine comparisonEnd_of_spelling hw₃ hvalue hw₄ ?_
    rw [hsymbol]
    simp

end Tests

/-! ## Lexemes -/

section Lexemes

variable {total : Nat} {c : Char} {cs rest after : List Char} {l : Lexeme}

theorem signed_eq_ok_iff {sign : Char} {make : String → Lexeme} :
    signed total sign make rest = .ok (l, after) ↔
      ∃ name, IsName name ∧ rest = name ++ after ∧ Lacks isNamePart after ∧ l = make (.ofList name) := by
  constructor
  · intro h
    unfold signed at h
    split at h
    · cases h
    · next hne =>
      cases h
      exact ⟨_, isName_takeWhile hne, List.takeWhile_append_dropWhile.symm, lacks_dropWhile _ _, rfl⟩
  · rintro ⟨name, hname, rfl, hafter, rfl⟩
    simp only [signed, takeWhile_run hname.parts hafter, dropWhile_run hname.parts hafter]
    split
    · exact absurd rfl hname.ne_nil
    · rfl

theorem TestSpelling.head {test : AttributeTest} (h : TestSpelling cs test) : ∃ rest, cs = '[' :: rest := by
  cases h <;> exact ⟨_, rfl⟩

theorem Spelling.ne_nil (h : Spelling cs l) : cs ≠ [] := by
  cases h with
  | ident hname => exact hname.ne_nil
  | hasAttribute htest =>
    obtain ⟨rest, rfl⟩ := htest.head
    simp
  | blank hne _ => exact hne
  | universal => simp
  | hasClass _ => simp
  | hasId _ => simp
  | child => simp

theorem spelling_of_lexeme (h : lexeme total c rest = .ok (l, after)) :
    ∃ cs, c :: rest = cs ++ after ∧ Spelling cs l ∧ l.Stops after := by
  unfold lexeme at h
  split at h
  · next hc =>
    obtain ⟨name, hname, rfl, hafter, rfl⟩ := signed_eq_ok_iff.mp h
    exact ⟨_, by rw [hc]; rfl, .hasClass hname, hafter⟩
  split at h
  · next hc =>
    obtain ⟨name, hname, rfl, hafter, rfl⟩ := signed_eq_ok_iff.mp h
    exact ⟨_, by rw [hc]; rfl, .hasId hname, hafter⟩
  split at h
  · next hc =>
    cases h
    exact ⟨_, by rw [hc]; rfl, .universal, trivial⟩
  split at h
  · next hc =>
    cases h
    exact ⟨_, by rw [hc]; rfl, .child, trivial⟩
  split at h
  · next hc =>
    split at h
    · cases h
    · next htest =>
      cases h
      obtain ⟨cs, hcs, hspelling⟩ := spelling_of_attributeTest htest
      exact ⟨cs, by rw [hc, hcs], .hasAttribute hspelling, trivial⟩
  split at h
  · next hblank =>
    cases h
    obtain ⟨w, hw, hrest⟩ := exists_blanks rest
    refine ⟨c :: w, congrArg (c :: ·) hrest, .blank (by simp) fun d hd => ?_, lacks_dropWhile _ _⟩
    rcases List.mem_cons.mp hd with rfl | hd
    · exact hblank
    · exact hw d hd
  split at h
  · next hpart =>
    cases h
    refine ⟨c :: rest.takeWhile isNamePart, congrArg (c :: ·) List.takeWhile_append_dropWhile.symm,
      .ident ⟨by simp, fun d hd => ?_⟩, lacks_dropWhile _ _⟩
    rcases List.mem_cons.mp hd with rfl | hd
    · exact hpart
    · exact of_mem_takeWhile hd
  · cases h

theorem not_namePart_of_sign : ∀ sign ∈ ['.', '#', '*', '>', '['], ¬ isNamePart sign = true := by
  have hall : ['.', '#', '*', '>', '['].all (fun sign => !isNamePart sign) = true := by decide
  intro sign hsign
  simpa using List.all_eq_true.mp hall sign hsign

theorem not_blank_of_sign : ∀ sign ∈ ['.', '#', '*', '>', '['], ¬ isBlank sign = true := by
  have hall : ['.', '#', '*', '>', '['].all (fun sign => !isBlank sign) = true := by decide
  intro sign hsign
  simpa using List.all_eq_true.mp hall sign hsign

/-- A lexeme without a sign in front is white space or a name. -/
theorem lexeme_of_ordinary (hc : ∀ sign ∈ ['.', '#', '*', '>', '['], c ≠ sign) :
    lexeme total c rest =
      if isBlank c then .ok (.blank, skipBlanks rest)
      else if isNamePart c then
        .ok (.ident (.ofList (c :: rest.takeWhile isNamePart)), rest.dropWhile isNamePart)
      else .error ⟨total - (rest.length + 1), .unexpected c⟩ := by
  simp only [List.mem_cons, List.not_mem_nil, or_false, forall_eq_or_imp, forall_eq] at hc
  obtain ⟨hclass, hid, huniversal, hchild, hattribute⟩ := hc
  simp only [lexeme, hclass, hid, huniversal, hchild, hattribute, if_false]

theorem lexeme_of_spelling (h : Spelling cs l) (hafter : l.Stops after) :
    ∃ c rest, cs ++ after = c :: rest ∧ ∀ total, lexeme total c rest = .ok (l, after) := by
  cases h with
  | ident hname =>
    obtain ⟨c, name, rfl⟩ := List.exists_cons_of_ne_nil hname.ne_nil
    have hpart := hname.parts c List.mem_cons_self
    have hname' : ∀ d ∈ name, isNamePart d = true := fun d hd => hname.parts d (.tail _ hd)
    refine ⟨c, name ++ after, rfl, fun total => ?_⟩
    have hc : ∀ sign ∈ ['.', '#', '*', '>', '['], c ≠ sign := by
      rintro sign hsign rfl
      exact absurd hpart (not_namePart_of_sign c hsign)
    rw [lexeme_of_ordinary hc, not_blank_of_namePart hpart, if_neg Bool.false_ne_true, if_pos hpart,
      takeWhile_run hname' hafter, dropWhile_run hname' hafter]
  | universal => exact ⟨'*', after, rfl, fun _ => rfl⟩
  | hasClass hname =>
    exact ⟨'.', _, rfl, fun _ => signed_eq_ok_iff.mpr ⟨_, hname, rfl, hafter, rfl⟩⟩
  | hasId hname =>
    exact ⟨'#', _, rfl, fun _ => signed_eq_ok_iff.mpr ⟨_, hname, rfl, hafter, rfl⟩⟩
  | hasAttribute htest =>
    obtain ⟨rest, rfl⟩ := htest.head
    refine ⟨'[', rest ++ after, rfl, fun total => ?_⟩
    have hread : attributeTest total (total - ((rest ++ after).length + 1)) (rest ++ after) =
        .ok (_, after) := attributeTest_of_spelling htest
    simp only [lexeme, hread]
    rfl
  | blank hne hblanks =>
    obtain ⟨c, w, rfl⟩ := List.exists_cons_of_ne_nil hne
    have hblank := hblanks c List.mem_cons_self
    have hw : Blanks w := fun d hd => hblanks d (.tail _ hd)
    refine ⟨c, w ++ after, rfl, fun total => ?_⟩
    have hc : ∀ sign ∈ ['.', '#', '*', '>', '['], c ≠ sign := by
      rintro sign hsign rfl
      exact absurd hblank (not_blank_of_sign c hsign)
    rw [lexeme_of_ordinary hc, if_pos hblank, skipBlanks_run hw hafter]
  | child => exact ⟨'>', after, rfl, fun _ => rfl⟩

/-- A lexeme is cut off where it is spelled and stops. -/
theorem lexeme_eq_ok_iff : lexeme total c rest = .ok (l, after) ↔
    ∃ cs, c :: rest = cs ++ after ∧ Spelling cs l ∧ l.Stops after := by
  constructor
  · exact spelling_of_lexeme
  · rintro ⟨cs, hcs, hspelling, hstops⟩
    obtain ⟨d, later, hd, hlexeme⟩ := lexeme_of_spelling hspelling hstops
    obtain ⟨rfl, rfl⟩ := List.cons.inj (hcs.trans hd)
    exact hlexeme total

/-! ### Inputs -/

theorem lexemesFrom_nil (total : Nat) : lexemesFrom total [] = .ok [] := by
  rw [lexemesFrom]

theorem lexemesFrom_of_error {e : Mistake} (h : lexeme total c rest = .error e) :
    lexemesFrom total (c :: rest) = .error e := by
  rw [lexemesFrom]
  split
  · next herror =>
    cases h.symm.trans herror
    rfl
  · next hok => cases h.symm.trans hok

theorem lexemesFrom_of_ok (h : lexeme total c rest = .ok (l, after)) :
    lexemesFrom total (c :: rest) =
      (lexemesFrom total after).map ((total - (rest.length + 1), l) :: ·) := by
  rw [lexemesFrom]
  split
  · next herror => cases h.symm.trans herror
  · next hok =>
    cases h.symm.trans hok
    cases lexemesFrom total after <;> rfl

end Lexemes

end Hypertext.Selector
