/-
Selectors read from text. White space of any kind is trimmed off first, and
the offset of a mistake counts it too.
-/
import Hypertext.Text.Space
import Hypertext.Selector.Lexeme

namespace Hypertext.Selector

/-- A selector of which only the left is known: the compounds so far, the last of them open, and
the combinator read since. -/
structure Draft where
  chain : List (Combinator × Compound) := []
  current : Compound := []
  pending : Option Combinator := none
  deriving DecidableEq, Repr

/-- The next condition. A combinator before it ends the compound on its left. -/
def Draft.add (d : Draft) (s : Simple) : Draft :=
  match d.pending with
  | none => { d with current := d.current ++ [s] }
  | some combinator => { chain := (combinator, d.current) :: d.chain, current := [s] }

/-- A tag or `*`, which only the first condition of a compound can be. -/
def Draft.addFirst (d : Draft) (offset : Nat) (s : Simple) : Except Mistake Draft :=
  if d.pending.isNone ∧ d.current ≠ [] then .error ⟨offset, .tagNotFirst⟩ else .ok (d.add s)

def Draft.step (d : Draft) : Nat × Lexeme → Except Mistake Draft
  | (_, .blank) => .ok { d with pending := d.pending.or (some .descendant) }
  | (offset, .child) =>
    if d.current = [] then .error ⟨offset, .nothingOnLeft⟩
    else if d.pending = some .child then .error ⟨offset, .twoCombinators⟩
    else .ok { d with pending := some .child }
  | (offset, .ident name) => d.addFirst offset (.tag name.toUpper)
  | (offset, .universal) => d.addFirst offset .universal
  | (_, .hasClass word) => .ok (d.add (.hasClass word))
  | (_, .hasId value) => .ok (d.add (.hasId value))
  | (_, .hasAttribute test) => .ok (d.add (.hasAttribute test))

/-- The selector that lexemes make up, of a source with that text. -/
def ofLexemes (source : String) (ls : List (Nat × Lexeme)) : Except Mistake Selector := do
  let draft ← ls.foldlM Draft.step {}
  if draft.pending = some .child then .error ⟨source.length, .combinatorAtEnd⟩
  else .ok { subject := draft.current, chain := draft.chain, source }

/-- The selector of a text without white space at its ends, which stands in `source` after
`leading` characters. -/
def ofTrimmed (source : String) (leading : Nat) : List Char → Except Mistake Selector
  | [] => .error ⟨0, .empty⟩
  | cs => lexemesFrom (leading + cs.length) cs >>= ofLexemes source

def parse (source : String) : Except SyntaxError Selector :=
  (ofTrimmed source (source.toList.takeWhile isSpace).length (trim source.toList)).mapError
    (⟨source, ·⟩)

end Hypertext.Selector
