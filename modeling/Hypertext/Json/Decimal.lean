/-
Decimal numbers of a text, kept as closely as doubles need them: a mantissa
below `2 ^ 64` and a power of ten. Whether a number is in the range of doubles
is decided on these two factors, each rounded to a double first. Close to the
end of the range it therefore matters where a text puts the point.
-/
namespace Hypertext

/-- `mantissa · 10 ^ exponent`. -/
structure Decimal where
  mantissa : Int
  exponent : Int := 0
  deriving DecidableEq, Repr

namespace Decimal

/-- Appends digits to a number while it stays below `2 ^ 64`; the digits left over are second. -/
def append (n : Nat) : List Nat → Nat × List Nat
  | [] => (n, [])
  | d :: rest => if 10 * n + d < 2 ^ 64 then append (10 * n + d) rest else (n, d :: rest)

/-- The number with these digits before and behind the point, times a power of ten. Of the digits
without room in the mantissa those before the point count as zeros, those behind it not at all. -/
def ofDigits (whole fraction : List Nat) (exponent : Int) : Decimal :=
  let (mantissa, zeros) := append 0 whole
  let (mantissa, ignored) := append mantissa fraction
  ⟨mantissa, exponent + zeros.length - (fraction.length - ignored.length)⟩

def neg (d : Decimal) : Decimal := { d with mantissa := -d.mantissa }

/-- The nearest number all of whose bits but the `bits` foremost are zero; halfway between two, the
one whose last such bit is zero. -/
def roundTo (bits n : Nat) : Nat :=
  let unit := Nat.pow 2 (n.log2 + 1 - bits)
  let steps := n / unit
  let rest := n % unit
  if unit < 2 * rest ∨ unit = 2 * rest ∧ steps % 2 = 1 then (steps + 1) * unit else steps * unit

/-- Whether the number is finite as a double: its two factors are, rounded to the 53 bits that a
double has, and their product is less than halfway from the largest double to `2 ^ 1024`. A number
too small for a double is finite. -/
def isFinite (d : Decimal) : Bool :=
  d.mantissa = 0 || d.exponent < 0 ||
    d.exponent ≤ 308 &&
      roundTo 53 d.mantissa.natAbs * roundTo 53 (Nat.pow 10 d.exponent.toNat) <
        Nat.pow 2 1024 - Nat.pow 2 970

/-- The number as an integer and how many of its digits are decimal places. One too small for a
double is zero. -/
def places (d : Decimal) : Int × Nat :=
  let digits := (Nat.toDigits 10 d.mantissa.natAbs).length
  if d.mantissa = 0 ∨ d.exponent + digits < -400 then (0, 0)
  else if 0 ≤ d.exponent then (d.mantissa * Nat.pow 10 d.exponent.toNat, 0)
  else (d.mantissa, (-d.exponent).toNat)

end Decimal

end Hypertext
