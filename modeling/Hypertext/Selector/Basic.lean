/-
Selectors: conditions on an element and on its ancestors. A compound is what
one element must satisfy; a selector has a compound for its subject and a
chain of others to its left, read from right to left, each with the
combinator that joins it to the one on its right.
-/
import Hypertext.Text.Literal

namespace Hypertext

namespace Selector

/-- How an attribute's value is compared with the one in the selector. -/
inductive Comparison where
  | equals
  | startsWith
  | contains
  | endsWith
  | includesWord
  | dashMatch
  deriving DecidableEq, Repr

def Comparison.symbol : Comparison → String
  | .equals => "="
  | .startsWith => "^="
  | .contains => "*="
  | .endsWith => "$="
  | .includesWord => "~="
  | .dashMatch => "|="

inductive AttributeTest where
  | present (name : String)
  | compare (name : String) (comparison : Comparison) (expected : String)
  deriving DecidableEq, Repr

def AttributeTest.name : AttributeTest → String
  | .present name => name
  | .compare name _ _ => name

inductive Simple where
  /-- A tag, in capitals. -/
  | tag (name : String)
  | universal
  | hasClass (word : String)
  | hasId (value : String)
  | hasAttribute (test : AttributeTest)
  deriving DecidableEq, Repr

abbrev Compound := List Simple

inductive Combinator where
  | descendant
  | child
  deriving DecidableEq, Repr

end Selector

structure Selector where
  subject : Selector.Compound
  chain : List (Selector.Combinator × Selector.Compound) := []
  /-- The text the selector was read from. -/
  source : String
  deriving DecidableEq, Repr

namespace Selector

/-! ## Errors -/

/-- What is wrong with the text of a selector. -/
inductive Cause where
  | empty
  | nameExpected (sign : Char)
  | unexpected (c : Char)
  | noAttributeName
  | equalsExpected (sign : Char)
  | unexpectedInAttribute (c : Char)
  | unterminated
  | unclosed (quote : Char)
  | noValue
  | bracketExpected (found : Char)
  | nothingOnLeft
  | twoCombinators
  | tagNotFirst
  | combinatorAtEnd
  deriving DecidableEq, Repr

def quoted (c : Char) : String :=
  "'" ++ String.singleton c ++ "'"

def Cause.reason : Cause → String
  | .empty => "empty selector"
  | .nameExpected sign => "expected a name after " ++ quoted sign
  | .unexpected c => "unexpected " ++ quoted c
  | .noAttributeName => "attribute selector has no name"
  | .equalsExpected sign => "expected '=' after " ++ quoted sign
  | .unexpectedInAttribute c => "unexpected " ++ quoted c ++ " in attribute selector"
  | .unterminated => "unterminated attribute selector"
  | .unclosed quote => "missing closing " ++ String.singleton quote
  | .noValue => "attribute selector has no value"
  | .bracketExpected found => "expected ']' but found " ++ quoted found
  | .nothingOnLeft => "'>' has no selector on its left"
  | .twoCombinators => "two combinators in a row"
  | .tagNotFirst => "type selector must come first in a compound"
  | .combinatorAtEnd => "selector ends with a combinator"

/-- A cause and the number of characters before it. -/
structure Mistake where
  offset : Nat
  cause : Cause
  deriving DecidableEq, Repr

structure SyntaxError where
  selector : String
  mistake : Mistake
  deriving DecidableEq, Repr

def SyntaxError.message (e : SyntaxError) : String :=
  "invalid selector " ++ Literal.ofString e.selector ++ " at offset " ++
    toString e.mistake.offset ++ ": " ++ e.mistake.cause.reason

end Selector

end Hypertext
