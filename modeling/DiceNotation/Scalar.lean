/-
# Scalars

The values that are not made of others: integers of any size, floating point numbers and
characters.  A character counts as its code point wherever a number is wanted.  An operation on two
integers is exact; as soon as a floating point number takes part, both operands are converted first.
-/

namespace DiceNotation

/-- A value that is not an array. -/
inductive Scalar where
  | int (n : Int)
  | real (x : Float)
  | char (c : Char)
deriving DecidableEq

/-- The code point of a character. -/
def charCode (c : Char) : Int := c.toNat

/-- The character with a code point, or a space if there is none. -/
def charOfCode (code : Int) : Char :=
  if 0 ≤ code ∧ Nat.isValidChar code.toNat then Char.ofNat code.toNat else ' '

namespace Scalar

/-! ## 1. Arithmetic -/

/-- The floating point number nearest to a scalar; integers beyond all of them go to infinity. -/
def toReal : Scalar → Float
  | int n => Float.ofInt n
  | real x => x
  | char c => Float.ofNat c.toNat

/-- Two characters make a character, integers and characters an integer, and anything else a
floating point number. -/
def combine (onInts : Int → Int → Int) (onReals : Float → Float → Float) :
    Scalar → Scalar → Scalar
  | int m, int n => int (onInts m n)
  | int m, char d => int (onInts m (charCode d))
  | char c, int n => int (onInts (charCode c) n)
  | char c, char d => char (charOfCode (onInts (charCode c) (charCode d)))
  | a, b => real (onReals a.toReal b.toReal)

/-- The sum of two scalars. -/
def add : Scalar → Scalar → Scalar := combine (· + ·) (· + ·)

/-- The difference of two scalars. -/
def sub : Scalar → Scalar → Scalar := combine (· - ·) (· - ·)

/-- The product of two scalars. -/
def mul : Scalar → Scalar → Scalar := combine (· * ·) (· * ·)

/-- The quotient of two scalars, always a floating point number. -/
def div (a b : Scalar) : Scalar := real (a.toReal / b.toReal)

/-- The negative of a scalar. -/
def neg : Scalar → Scalar
  | int n => int (-n)
  | real x => real (-x)
  | char c => int (-charCode c)

/-! ## 2. Truth -/

/-- A scalar is true unless it is a zero or the character NUL. -/
def holds : Scalar → Bool
  | int n => n != 0
  | real x => x != 0
  | char c => c != '\x00'

/-- The integer that stands for a truth value. -/
def ofBool (b : Bool) : Scalar := int (if b then 1 else 0)

/-- The left operand if it is true, else the right one. -/
def or (a b : Scalar) : Scalar := if a.holds then a else b

/-- The right operand if the left one is true, else the left one. -/
def and (a b : Scalar) : Scalar := if a.holds then b else a

end Scalar

end DiceNotation
