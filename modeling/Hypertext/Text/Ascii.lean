/-
The ASCII classes markup is written in. Letters, digits and letter case are
those of `Char.isAlphanum`, `String.toUpper` and `String.toLower`, which know
ASCII only; white space is the five characters below, which is not
`Char.isWhitespace` (that one leaves out the form feed).
-/
namespace Hypertext

/-- Space, tab, line feed, form feed and carriage return. -/
def isBlank (c : Char) : Bool :=
  c == ' ' || c == '\t' || c == '\n' || c == '\x0c' || c == '\r'

/-- The maximal runs of non-blank characters, in order. -/
def words : List Char → List (List Char)
  | [] => []
  | c :: cs =>
    if isBlank c then words cs
    else if (cs.head?.map isBlank).getD true then [c] :: words cs
    else match words cs with
      | [] => [[c]]
      | w :: ws => (c :: w) :: ws

end Hypertext
