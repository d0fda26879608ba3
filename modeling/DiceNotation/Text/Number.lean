/-
# Reading numbers from settings

The numbers in settings are written more freely than those in expressions.  Blanks around a number
do not matter, a digit may be any decimal digit of Unicode, and digits may be grouped by single
underscores.  An integer may have a prefix that says its base, and without one no zeros in front of
other digits; a real number may have a fraction and an exponent, or be an infinity or not a number.

The blank characters are those of Unicode: white space, and the four separators of ASCII.
-/
import DiceNotation.Text.Writing

namespace DiceNotation

/-! ## 1. Blanks -/

/-- The ranges of blank characters. -/
def blankRanges : List (Nat × Nat) :=
  [(0x09, 0x0d), (0x1c, 0x20), (0x85, 0x85), (0xa0, 0xa0), (0x1680, 0x1680), (0x2000, 0x200a),
    (0x2028, 0x2029), (0x202f, 0x202f), (0x205f, 0x205f), (0x3000, 0x3000)]

/-- Whether a character is blank. -/
def isBlank (c : Char) : Bool :=
  blankRanges.any fun (first, last) => decide (first ≤ c.toNat) && decide (c.toNat ≤ last)

/-- A text without the characters at both ends that satisfy `p`. -/
def trimEnds (p : Char → Bool) (text : List Char) : List Char :=
  ((text.dropWhile p).reverse.dropWhile p).reverse

/-! ## 2. Digits -/

/-- The zeros of the sets of decimal digits of Unicode; in each set the digits follow in order. -/
def decimalZeros : List Nat :=
  [0x0030, 0x0660, 0x06f0, 0x07c0, 0x0966, 0x09e6, 0x0a66, 0x0ae6, 0x0b66, 0x0be6, 0x0c66, 0x0ce6,
    0x0d66, 0x0de6, 0x0e50, 0x0ed0, 0x0f20, 0x1040, 0x1090, 0x17e0, 0x1810, 0x1946, 0x19d0, 0x1a80,
    0x1a90, 0x1b50, 0x1bb0, 0x1c40, 0x1c50, 0xa620, 0xa8d0, 0xa900, 0xa9d0, 0xa9f0, 0xaa50, 0xabf0,
    0xff10, 0x104a0, 0x10d30, 0x11066, 0x110f0, 0x11136, 0x111d0, 0x112f0, 0x11450, 0x114d0,
    0x11650, 0x116c0, 0x11730, 0x118e0, 0x11950, 0x11c50, 0x11d50, 0x11da0, 0x16a60, 0x16ac0,
    0x16b50, 0x1d7ce, 0x1d7d8, 0x1d7e2, 0x1d7ec, 0x1d7f6, 0x1e140, 0x1e2f0, 0x1e950, 0x1fbf0]

/-- The zero of the set that a decimal digit belongs to. -/
def zeroOf? (c : Char) : Option Nat :=
  decimalZeros.find? fun first => decide (first ≤ c.toNat) && decide (c.toNat < first + 10)

/-- The ASCII character that a character of a number stands for: the digit of the same value for a
decimal digit, and a space for a blank beyond ASCII. -/
def plainChar (c : Char) : Char :=
  if c.toNat < 127 then c
  else if isBlank c then ' '
  else
    match zeroOf? c with
    | some first => Char.ofNat ('0'.toNat + (c.toNat - first))
    | none => c

/-- The blanks that may stand around a number. -/
def isNumberBlank (c : Char) : Bool :=
  c == ' ' || decide (0x09 ≤ c.toNat) && decide (c.toNat ≤ 0x0d)

/-- The characters of a number without the blanks around it. -/
def numberChars (text : String) : List Char :=
  trimEnds isNumberBlank (text.toList.map plainChar)

/-- The value of a digit or a letter in a base up to 36. -/
def digitValue? (base : Nat) (c : Char) : Option Nat :=
  let value? :=
    if c.isDigit then some (c.toNat - '0'.toNat)
    else if c.isLower then some (c.toNat - 'a'.toNat + 10)
    else if c.isUpper then some (c.toNat - 'A'.toNat + 10)
    else none
  value?.filter (decide <| · < base)

/-- Takes out underscores, each of which has to stand between two digits.  `behindDigit` says what
stands in front. -/
def ungroup? (isDigit : Char → Bool) : (behindDigit : Bool) → List Char → Option (List Char)
  | _, [] => some []
  | behindDigit, '_' :: rest =>
    match rest with
    | c :: _ => if behindDigit && isDigit c then ungroup? isDigit false rest else none
    | [] => none
  | _, c :: rest => (ungroup? isDigit (isDigit c) rest).map (c :: ·)

/-- The value of digits in a base. -/
def readDigits? (base : Nat) (digits : List Char) : Option Nat :=
  match digits with
  | [] => none
  | _ => (digits.mapM (digitValue? base)).map fun values =>
    values.foldl (fun n value => base * n + value) 0

/-- Splits off the sign: whether the number is negative, and the rest. -/
def splitSign : List Char → Bool × List Char
  | '-' :: rest => (true, rest)
  | '+' :: rest => (false, rest)
  | rest => (false, rest)

/-! ## 3. Integers -/

/-- The base that a prefix of two characters names, and the rest. -/
def splitBase? : List Char → Option (Nat × List Char)
  | '0' :: c :: rest =>
    if c == 'x' || c == 'X' then some (16, rest)
    else if c == 'o' || c == 'O' then some (8, rest)
    else if c == 'b' || c == 'B' then some (2, rest)
    else none
  | _ => none

/-- Reads a number without a sign in decimal.  It has a bounded number of digits, and the first one
is a zero only if all are. -/
def readDecimal? (cs : List Char) : Option Nat := do
  let digits ← ungroup? Char.isDigit false cs
  let n ← readDigits? 10 digits
  if maxNumeralDigits < digits.length then none
  else if digits.head? = some '0' && n != 0 then none
  else some n

/-- Reads a number without a sign. -/
def readNatural? (cs : List Char) : Option Nat :=
  match splitBase? cs with
  | some (base, rest) => do
    let digits ← ungroup? (fun c => (digitValue? base c).isSome) true rest
    readDigits? base digits
  | none => readDecimal? cs

/-- Reads an integer. -/
def readInteger? (text : String) : Option Int :=
  let (negative, rest) := splitSign (numberChars text)
  (readNatural? rest).map fun n => if negative then -(n : Int) else n

/-! ## 4. Real numbers -/

/-- Reads the exponent of a number: none is 0, else `e`, a sign and digits. -/
def readExponent? : List Char → Option Int
  | [] => some 0
  | c :: rest =>
    if c == 'e' || c == 'E' then
      let (negative, digits) := splitSign rest
      (readDigits? 10 digits).map fun n => if negative then -(n : Int) else n
    else none

/-- The floating point number nearest to `n * 10 ^ exponent`. -/
def scaledFloat (n : Nat) (exponent : Int) : Float :=
  Float.ofScientific n (decide (exponent < 0)) exponent.natAbs

/-- Reads digits with a point among them or not, and an exponent or none. -/
def readDecimalReal? (cs : List Char) : Option Float := do
  let whole := cs.takeWhile Char.isDigit
  let rest := cs.dropWhile Char.isDigit
  let (fraction, rest) :=
    match rest with
    | '.' :: rest => (rest.takeWhile Char.isDigit, rest.dropWhile Char.isDigit)
    | _ => ([], rest)
  let n ← readDigits? 10 (whole ++ fraction)
  let exponent ← readExponent? rest
  some (scaledFloat n (exponent - fraction.length))

/-- Reads a number without a sign. -/
def readUnsignedReal? (cs : List Char) : Option Float :=
  let name := String.ofList (cs.map Char.toLower)
  if name = "inf" || name = "infinity" then some (1 / 0)
  else if name = "nan" then some (0 / 0)
  else readDecimalReal? cs

/-- Reads a real number. -/
def readReal? (text : String) : Option Float := do
  let cs ← ungroup? Char.isDigit false (numberChars text)
  let (negative, rest) := splitSign cs
  let x ← readUnsignedReal? rest
  some (if negative then -x else x)

end DiceNotation
