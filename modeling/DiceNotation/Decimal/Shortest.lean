/-
# The shortest decimal of a floating point number

Of all decimals that are read back as a given floating point number, the shortest is the one with
the fewest significant digits, and of several with that many the one nearest to the number.

`shortestDecimal` looks at coarser and finer decimal grids: on the grid of `n` significant digits it
tests the two neighbours of the number, for `n` from 1 to 17.  The first grid with a hit has the
fewest digits, since a grid that has any point close enough has one of the two neighbours close
enough.
-/
import DiceNotation.Decimal.Exact

namespace DiceNotation

/-- A decimal number: `coefficient * 10 ^ exponent`. -/
structure Decimal where
  coefficient : Nat
  exponent : Int
deriving DecidableEq, Repr

namespace Decimal

/-- The number that a decimal stands for. -/
def value (d : Decimal) : Rat :=
  scaleTen d.coefficient d.exponent

end Decimal

/-- The numbers that are rounded to one floating point number: those between `low` and `high`, and
these two themselves if `closed`. -/
structure RoundingInterval where
  low : Rat
  high : Rat
  closed : Bool

/-- Whether a number lies in a rounding interval. -/
def RoundingInterval.contains (i : RoundingInterval) (q : Rat) : Bool :=
  if i.closed then decide (i.low ≤ q) && decide (q ≤ i.high)
  else decide (i.low < q) && decide (q < i.high)

/-- The rounding interval of a positive floating point number.  It reaches half way to the
neighbours; below a power of two they are twice as dense as above.  The ends are rounded to the
number with the even mantissa. -/
def roundingInterval (mantissa : Nat) (exponent : Int) : RoundingInterval where
  low :=
    if mantissa = 4503599627370496 ∧ leastExponent < exponent then
      scaleTwo (4 * mantissa - 1) (exponent - 2)
    else scaleTwo (2 * mantissa - 1) (exponent - 1)
  high := scaleTwo (2 * mantissa + 1) (exponent - 1)
  closed := mantissa % 2 == 0

/-- The number of decimal digits of a natural number. -/
def digitCount (n : Nat) : Nat := (Nat.toDigits 10 n).length

/-- The exponent of the first digit of a positive number: `10 ^ e ≤ q < 10 ^ (e + 1)`. -/
def leadingExponent (q : Rat) : Int :=
  let guess : Int := (digitCount q.num.toNat : Int) - digitCount q.den
  if scaleTen 1 guess ≤ q then guess else guess - 1

/-- Of the two neighbours of `q` among the multiples of `10 ^ exponent`, the one in the interval, or
the nearer one if both are; if they are equally near, the even one. -/
def nearestOnGrid? (i : RoundingInterval) (q : Rat) (exponent : Int) : Option Decimal :=
  let scaled := q * scaleTen 1 (-exponent)
  let below : Decimal := ⟨scaled.floor.toNat, exponent⟩
  let above : Decimal := ⟨scaled.floor.toNat + 1, exponent⟩
  if i.contains below.value then
    if i.contains above.value then some ⟨(nearestEven scaled).toNat, exponent⟩ else some below
  else if i.contains above.value then some above
  else none

/-- The most digits that a floating point number of 64 bits can need. -/
def mostDigits : Nat := 17

/-- The decimal with `digits` significant digits nearest to a positive number. -/
def roundedDecimal (digits : Nat) (q : Rat) : Decimal :=
  let exponent := leadingExponent q + 1 - digits
  ⟨(nearestEven (q * scaleTen 1 (-exponent))).toNat, exponent⟩

/-- The shortest decimal that is read back as `mantissa * 2 ^ exponent`. -/
def shortestDecimal (mantissa : Nat) (exponent : Int) : Decimal :=
  let q := scaleTwo mantissa exponent
  let interval := roundingInterval mantissa exponent
  let leading := leadingExponent q
  let hit := (List.range mostDigits).findSome? fun (further : Nat) =>
    nearestOnGrid? interval q (leading - (further : Int))
  hit.getD (roundedDecimal mostDigits q)

end DiceNotation
