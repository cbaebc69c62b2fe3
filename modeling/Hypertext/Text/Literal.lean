/-
Quoted literals: the form in which messages show a text or a character, so
that every character of it can be seen. The quote in use and the backslash
are escaped, as are tab, newline, return and NUL; what cannot be printed is
written as its code point in hexadecimal.
-/
import Hypertext.Text.Unprintable

namespace Hypertext.Literal

/-- The code point in hexadecimal, between braces. -/
def codePoint (c : Char) : List Char :=
  ['\\', 'u', '\x7b'] ++ Nat.toDigits 16 c.toNat ++ ['\x7d']

/-- One character inside a literal that stands between two `quote`s. -/
def escape (quote c : Char) : List Char :=
  if c = '\x00' then ['\\', '0']
  else if c = '\t' then ['\\', 't']
  else if c = '\x0d' then ['\\', 'r']
  else if c = '\n' then ['\\', 'n']
  else if c = '\\' ∨ c = quote then ['\\', c]
  else if isUnprintable c then codePoint c
  else [c]

/-- A text between double quotes. -/
def ofString (s : String) : String :=
  String.ofList (['"'] ++ s.toList.flatMap (escape '"') ++ ['"'])

/-- A character between single quotes. -/
def ofChar (c : Char) : String :=
  String.ofList (['\''] ++ escape '\'' c ++ ['\''])

end Hypertext.Literal
