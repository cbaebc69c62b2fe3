/-
Unicode white space (the property `White_Space`) and trimming by it.
-/
namespace Hypertext

def isSpace (c : Char) : Bool :=
  let n := c.toNat
  (0x9 ≤ n && n ≤ 0xd) || n == 0x20 || n == 0x85 || n == 0xa0 || n == 0x1680 ||
  (0x2000 ≤ n && n ≤ 0x200a) || n == 0x2028 || n == 0x2029 || n == 0x202f || n == 0x205f ||
  n == 0x3000

/-- A text without the white space at its end. -/
def trimRight : List Char → List Char
  | [] => []
  | c :: cs =>
    match trimRight cs with
    | [] => if isSpace c then [] else [c]
    | d :: ds => c :: d :: ds

/-- A text without the white space at its two ends. -/
def trim (cs : List Char) : List Char :=
  trimRight (cs.dropWhile isSpace)

end Hypertext
