/-
# The quantity of a scalar

What a scalar is when it is compared: an exact rational number, an infinity, or not a number.
Integers are taken exactly, characters by their code point, and floating point numbers rounded to
six decimal places, so that the order of scalars is the order of exact numbers and no conversion can
blur it.  What is not a number is equal to itself and comes before everything else.
-/
import DiceNotation.Scalar
import DiceNotation.Decimal.Exact

namespace DiceNotation

/-! ## 1. Quantities -/

/-- A rational number, an infinity or not a number. -/
inductive Quantity where
  | nan
  | bottom
  | exact (q : Rat)
  | top
deriving DecidableEq

namespace Quantity

/-- The order of rational numbers as a comparison. -/
def compareRat (q r : Rat) : Ordering :=
  if q < r then .lt else if r < q then .gt else .eq

/-- The place of a kind of quantity among the kinds. -/
def rank : Quantity → Nat
  | nan => 0
  | bottom => 1
  | exact _ => 2
  | top => 3

/-- The order of quantities. -/
def compare : Quantity → Quantity → Ordering
  | exact q, exact r => compareRat q r
  | a, b => Ord.compare a.rank b.rank

/-- The exact value of a floating point number. -/
def ofFloat (x : Float) : Quantity :=
  match FloatParts.ofFloat x with
  | .nan => nan
  | .infinite negative => if negative then bottom else top
  | .finite negative mantissa exponent =>
    exact (if negative then -scaleTwo mantissa exponent else scaleTwo mantissa exponent)

/-- The integer that a quantity is, if it is one. -/
def toInt? : Quantity → Option Int
  | exact q => if q.den = 1 then some q.num else none
  | _ => none

end Quantity

/-! ## 2. The order of scalars -/

namespace Scalar

/-- What a scalar counts as in comparisons. -/
def quantity : Scalar → Quantity
  | int n => .exact (n : Rat)
  | real x => .ofFloat (roundPlaces x)
  | char c => .exact (charCode c : Rat)

/-- The order of scalars. -/
def compare (a b : Scalar) : Ordering := a.quantity.compare b.quantity

/-- The integer that a scalar is, up to the sixth decimal place, if there is one. -/
def toInt? (a : Scalar) : Option Int := a.quantity.toInt?

/-- Whether two scalars are equal, as an integer. -/
def eq (a b : Scalar) : Scalar := ofBool (a.compare b == .eq)

/-- Whether the left scalar is less, as an integer. -/
def lt (a b : Scalar) : Scalar := ofBool (a.compare b == .lt)

/-- Whether the left scalar is greater, as an integer. -/
def gt (a b : Scalar) : Scalar := ofBool (a.compare b == .gt)

/-- Whether a scalar is the floating point value that is no number. -/
def isNaN : Scalar → Bool
  | real x => x.isNaN
  | _ => false

end Scalar

end DiceNotation
