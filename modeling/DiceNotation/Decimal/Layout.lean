/-
# Writing decimals

How the digits of a number are laid out: with a point among them, or with an exponent behind them.
A `Layout` is the set of decisions a written form makes; the three forms in use are `Layout.value`
(results), `Layout.plain` (records of time limits) and `Layout.brief` (messages).
-/
import DiceNotation.Decimal.Shortest

namespace DiceNotation

/-- The decisions of a written form. -/
structure Layout where
  /-- The significant digits that are kept; the fewest that identify the number if there is no
  bound. -/
  digits : Option Nat
  /-- The first exponent, from which on an exponent is written. -/
  greatest : Int
  /-- Whether a whole number written without an exponent gets `.0`. -/
  wholeWithPoint : Bool
  /-- The text for the number that is none. -/
  nan : String

namespace Layout

/-- Results have the fewest digits that read back the same, and show that they are no integers. -/
def value : Layout := ⟨none, 16, true, "NaN"⟩

/-- Time limits in records are written like results, but for the number that is none. -/
def plain : Layout := ⟨none, 16, true, "nan"⟩

/-- Durations in messages have up to six significant digits. -/
def brief : Layout := ⟨some 6, 6, false, "nan"⟩

end Layout

/-- The least exponent of a number that is written without one. -/
def leastPositional : Int := -4

namespace Decimal

/-- A decimal without zeros at the end of its coefficient, looking at up to `fuel` of them. -/
def strip (d : Decimal) : (fuel : Nat) → Decimal
  | 0 => d
  | fuel + 1 =>
    if d.coefficient ≠ 0 ∧ d.coefficient % 10 = 0 then
      strip ⟨d.coefficient / 10, d.exponent + 1⟩ fuel
    else d

/-- The text of an exponent: a sign and at least two digits. -/
def exponentText (e : Int) : String :=
  let digits := toString e.natAbs
  let sign := if e < 0 then "-" else "+"
  if digits.length < 2 then s!"{sign}0{digits}" else sign ++ digits

/-- A run of zeros. -/
def zeros (n : Nat) : String := String.ofList (List.replicate n '0')

/-- The text of a positive decimal whose coefficient ends in no zero. -/
def layOut (layout : Layout) (d : Decimal) : String :=
  let digits := Nat.toDigits 10 d.coefficient
  let leading := d.exponent + digits.length - 1
  if leastPositional ≤ leading ∧ leading < layout.greatest then
    if 0 ≤ d.exponent then
      String.ofList digits ++ zeros d.exponent.toNat ++ (if layout.wholeWithPoint then ".0" else "")
    else if 0 ≤ leading then
      let whole := (leading + 1).toNat
      String.ofList (digits.take whole) ++ "." ++ String.ofList (digits.drop whole)
    else
      "0." ++ zeros (-leading - 1).toNat ++ String.ofList digits
  else
    let fraction := digits.drop 1
    String.ofList (digits.take 1) ++
      (if fraction.isEmpty then "" else "." ++ String.ofList fraction) ++
      "e" ++ exponentText leading

end Decimal

/-- The text of the size of a number without its sign. -/
def Layout.magnitude (layout : Layout) (mantissa : Nat) (exponent : Int) : String :=
  if mantissa = 0 then if layout.wholeWithPoint then "0.0" else "0"
  else
    let decimal :=
      match layout.digits with
      | none => shortestDecimal mantissa exponent
      | some digits => roundedDecimal digits (scaleTwo mantissa exponent)
    (decimal.strip mostDigits).layOut layout

/-- The text of a floating point number. -/
def Layout.write (layout : Layout) (x : Float) : String :=
  match FloatParts.ofFloat x with
  | .nan => layout.nan
  | .infinite negative => if negative then "-inf" else "inf"
  | .finite negative mantissa exponent =>
    (if negative then "-" else "") ++ layout.magnitude mantissa exponent

end DiceNotation
