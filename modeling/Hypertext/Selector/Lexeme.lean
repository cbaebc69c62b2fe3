/-
Selectors cut into lexemes. An attribute selector is one lexeme, because its
value may hold any character between quotes.

The rest of the input tells where a lexeme begins: `total`, the length of the
whole, less the length of the rest.
-/
import Hypertext.Text.Ascii
import Hypertext.Selector.Basic

namespace Hypertext.Selector

inductive Lexeme where
  | ident (name : String)
  | universal
  | hasClass (word : String)
  | hasId (value : String)
  | hasAttribute (test : AttributeTest)
  /-- A run of white space. -/
  | blank
  | child
  deriving DecidableEq, Repr

def isNamePart (c : Char) : Bool :=
  c.isAlphanum || c == '-' || c == '_' || 0x80 ≤ c.toNat

def isQuoteMark (c : Char) : Bool :=
  c == '"' || c == '\''

/-- The characters of a value that stands without quotes. -/
def isBareChar (c : Char) : Bool :=
  !(c == ']' || isBlank c || isQuoteMark c)

def skipBlanks (cs : List Char) : List Char :=
  cs.dropWhile isBlank

/-- The comparison a sign makes together with the `=` after it. -/
def Comparison.ofSign? : Char → Option Comparison
  | '^' => some .startsWith
  | '*' => some .contains
  | '$' => some .endsWith
  | '~' => some .includesWord
  | '|' => some .dashMatch
  | _ => none

/-- The comparison at the head of the input, which is not empty. -/
def comparison (total : Nat) (c : Char) (rest : List Char) :
    Except Mistake (Comparison × List Char) :=
  if c = '=' then .ok (.equals, rest)
  else
    match Comparison.ofSign? c with
    | none => .error ⟨total - (rest.length + 1), .unexpectedInAttribute c⟩
    | some found =>
      if rest.head? = some '=' then .ok (found, rest.tail)
      else .error ⟨total - (rest.length + 1), .equalsExpected c⟩

def bareValue (total : Nat) (cs : List Char) : Except Mistake (List Char × List Char) :=
  match cs.takeWhile isBareChar with
  | [] => .error ⟨total - cs.length, .noValue⟩
  | value => .ok (value, cs.dropWhile isBareChar)

/-- A value up to the quote that opened it, or a bare one. -/
def attributeValue (total : Nat) (cs : List Char) : Except Mistake (List Char × List Char) :=
  match cs with
  | [] => bareValue total []
  | quote :: rest =>
    if isQuoteMark quote then
      match rest.dropWhile (· ≠ quote) with
      | [] => .error ⟨total - cs.length, .unclosed quote⟩
      | _ :: after => .ok (rest.takeWhile (· ≠ quote), after)
    else bareValue total cs

/-- The end of a comparison, from its sign `c` on; `start` is where the selector's `[` stands. -/
def comparisonEnd (total start : Nat) (name : List Char) (c : Char) (rest : List Char) :
    Except Mistake (AttributeTest × List Char) :=
  match comparison total c rest with
  | .error e => .error e
  | .ok (found, rest) =>
    match attributeValue total (skipBlanks rest) with
    | .error e => .error e
    | .ok (value, rest) =>
      match skipBlanks rest with
      | [] => .error ⟨start, .unterminated⟩
      | c :: rest =>
        if c = ']' then .ok (.compare (.ofList name) found (.ofList value), rest)
        else .error ⟨total - (rest.length + 1), .bracketExpected c⟩

/-- An attribute selector, from behind its `[`, which stands at `start`. -/
def attributeTest (total start : Nat) (cs : List Char) : Except Mistake (AttributeTest × List Char) :=
  match (skipBlanks cs).takeWhile isNamePart with
  | [] => .error ⟨total - (skipBlanks cs).length, .noAttributeName⟩
  | name =>
    match skipBlanks ((skipBlanks cs).dropWhile isNamePart) with
    | [] => .error ⟨start, .unterminated⟩
    | c :: rest =>
      if c = ']' then .ok (.present (.ofList name), rest)
      else comparisonEnd total start name c rest

/-- A name behind the sign of a class or an id. -/
def signed (total : Nat) (sign : Char) (make : String → Lexeme) (rest : List Char) :
    Except Mistake (Lexeme × List Char) :=
  match rest.takeWhile isNamePart with
  | [] => .error ⟨total - (rest.length + 1), .nameExpected sign⟩
  | name => .ok (make (.ofList name), rest.dropWhile isNamePart)

/-- The lexeme that begins with the character `c`, and the rest of the input. -/
def lexeme (total : Nat) (c : Char) (rest : List Char) : Except Mistake (Lexeme × List Char) :=
  if c = '.' then signed total c .hasClass rest
  else if c = '#' then signed total c .hasId rest
  else if c = '*' then .ok (.universal, rest)
  else if c = '>' then .ok (.child, rest)
  else if c = '[' then
    match attributeTest total (total - (rest.length + 1)) rest with
    | .error e => .error e
    | .ok (test, rest) => .ok (.hasAttribute test, rest)
  else if isBlank c then .ok (.blank, skipBlanks rest)
  else if isNamePart c then
    .ok (.ident (.ofList (c :: rest.takeWhile isNamePart)), rest.dropWhile isNamePart)
  else .error ⟨total - (rest.length + 1), .unexpected c⟩

/-! ## Each lexeme takes at least its first character -/

theorem length_dropWhile_le {α : Type} (p : α → Bool) (l : List α) :
    (l.dropWhile p).length ≤ l.length :=
  (List.dropWhile_suffix p).length_le

theorem length_skipBlanks_le (cs : List Char) : (skipBlanks cs).length ≤ cs.length :=
  length_dropWhile_le _ _

theorem length_comparison {total c rest found after}
    (h : comparison total c rest = .ok (found, after)) : after.length ≤ rest.length := by
  unfold comparison at h
  split at h
  · cases h; exact Nat.le_refl _
  · split at h
    · cases h
    · split at h
      · cases h; simp
      · cases h

theorem length_bareValue {total cs value after}
    (h : bareValue total cs = .ok (value, after)) : after.length ≤ cs.length := by
  unfold bareValue at h
  split at h
  · cases h
  · cases h; exact length_dropWhile_le _ _

theorem length_attributeValue {total cs value after}
    (h : attributeValue total cs = .ok (value, after)) : after.length ≤ cs.length := by
  unfold attributeValue at h
  split at h
  · exact length_bareValue h
  · split at h
    · split at h
      · cases h
      · rename_i drop
        cases h
        have := drop ▸ length_dropWhile_le _ _
        simp only [List.length_cons] at this ⊢
        omega
    · exact length_bareValue h

theorem length_comparisonEnd {total start name c rest test after}
    (h : comparisonEnd total start name c rest = .ok (test, after)) :
    after.length ≤ rest.length := by
  unfold comparisonEnd at h
  split at h
  · cases h
  · rename_i hc
    split at h
    · cases h
    · rename_i hv
      split at h
      · cases h
      · rename_i hs
        split at h
        · cases h
          have h1 := length_comparison hc
          have h2 := length_attributeValue hv
          have h3 := congrArg List.length hs
          have h4 := length_skipBlanks_le
          grind
        · cases h

theorem length_attributeTest {total start cs test after}
    (h : attributeTest total start cs = .ok (test, after)) : after.length ≤ cs.length := by
  unfold attributeTest at h
  have h1 := length_skipBlanks_le cs
  have h2 := length_dropWhile_le isNamePart (skipBlanks cs)
  have h3 := length_skipBlanks_le ((skipBlanks cs).dropWhile isNamePart)
  split at h
  · cases h
  · split at h
    · cases h
    · rename_i hs
      rw [hs] at h3
      simp only [List.length_cons] at h3
      split at h
      · cases h; omega
      · have := length_comparisonEnd h; omega

theorem length_signed {total sign make rest l after}
    (h : signed total sign make rest = .ok (l, after)) : after.length ≤ rest.length := by
  unfold signed at h
  split at h
  · cases h
  · cases h; exact length_dropWhile_le _ _

theorem length_lexeme {total c rest l after} (h : lexeme total c rest = .ok (l, after)) :
    after.length ≤ rest.length := by
  unfold lexeme at h
  split at h
  · exact length_signed h
  split at h
  · exact length_signed h
  split at h
  · cases h; exact Nat.le_refl _
  split at h
  · cases h; exact Nat.le_refl _
  split at h
  · split at h
    · cases h
    · rename_i ha; cases h; exact length_attributeTest ha
  split at h
  · cases h; exact length_skipBlanks_le _
  split at h
  · cases h; exact length_dropWhile_le _ _
  · cases h

/-- The lexemes of an input whose whole has length `total`, each with its offset. -/
def lexemesFrom (total : Nat) (cs : List Char) : Except Mistake (List (Nat × Lexeme)) :=
  match cs with
  | [] => .ok []
  | c :: rest =>
    match _h : lexeme total c rest with
    | .error e => .error e
    | .ok (l, after) =>
      match lexemesFrom total after with
      | .error e => .error e
      | .ok ls => .ok ((total - (rest.length + 1), l) :: ls)
termination_by cs.length
decreasing_by exact Nat.lt_succ_of_le (length_lexeme (by assumption))

def lexemes (cs : List Char) : Except Mistake (List (Nat × Lexeme)) :=
  lexemesFrom cs.length cs

end Hypertext.Selector
