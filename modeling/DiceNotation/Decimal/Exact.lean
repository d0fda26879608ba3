/-
# The exact value of a floating point number

A floating point number is a signed multiple of a power of two, an infinity or not a number.
`FloatParts` takes it apart, and everything that rounds or writes one works on its parts with exact
rational arithmetic.

Values that differ in the seventh decimal place count as the same, so comparisons round to six
places first (`roundPlaces`).  The exact binary value is rounded, a half goes to the even neighbour,
and the result is the floating point number nearest to that decimal.
-/

namespace DiceNotation

/-! ## 1. The parts of a number -/

/-- What a floating point number consists of.  A finite one is `mantissa * 2 ^ exponent`, negative
if `negative` says so; a zero has mantissa 0. -/
inductive FloatParts where
  | nan
  | infinite (negative : Bool)
  | finite (negative : Bool) (mantissa : Nat) (exponent : Int)
deriving DecidableEq, Repr

/-- The least exponent of a floating point number of 64 bits. -/
def leastExponent : Int := -1074

/-- The parts of a floating point number.  Its mantissa has 53 bits, or fewer if its exponent is
the least. -/
def FloatParts.ofFloat (x : Float) : FloatParts :=
  match x.toModel.unpack with
  | .notANumber => .nan
  | .infinity .negative => .infinite true
  | .infinity .positive => .infinite false
  | .zero .negative => .finite true 0 leastExponent
  | .zero .positive => .finite false 0 leastExponent
  | .finite .negative mantissa exponent _ => .finite true mantissa exponent
  | .finite .positive mantissa exponent _ => .finite false mantissa exponent

/-- A multiple of a power of two. -/
def scaleTwo (n : Nat) (exponent : Int) : Rat :=
  (n : Rat) * Rat.zpow 2 exponent

/-- A multiple of a power of ten. -/
def scaleTen (n : Nat) (exponent : Int) : Rat :=
  (n : Rat) * Rat.zpow 10 exponent

/-! ## 2. Rounding -/

/-- The integer nearest to a number; a half goes to the even neighbour. -/
def nearestEven (q : Rat) : Int :=
  let below := q.floor
  let part := q - (below : Rat)
  if part + part < 1 then below
  else if 1 < part + part then below + 1
  else if below % 2 = 0 then below
  else below + 1

/-- The number of decimal places that comparisons look at. -/
def comparedPlaces : Nat := 6

/-- The floating point number nearest to the decimal of six places nearest to `x`.  The sign is
kept, also that of a zero; infinities and the number that is none stay as they are. -/
def roundPlaces (x : Float) : Float :=
  match FloatParts.ofFloat x with
  | .finite negative mantissa exponent =>
    let scaled := scaleTwo mantissa exponent * scaleTen 1 comparedPlaces
    let rounded := Float.ofScientific (nearestEven scaled).toNat true comparedPlaces
    if negative then -rounded else rounded
  | _ => x

end DiceNotation
