/-
# Writing characters and integers

A text between double quotes has a backslash in front of each backslash and each double quote, and
a line feed is written as a backslash and an `n`.

Integers have no bound, but their decimal text has: an integer of more than 4300 digits is not
written in decimal.  Where a result shows such an integer it says how many bits it has; where it
would have to be spelled out, writing it is an error.
-/

namespace DiceNotation

/-! ## 1. Quoted texts -/

/-- The characters that stand for one character inside quotes. -/
def quoteChar : Char → List Char
  | '\\' => ['\\', '\\']
  | '"' => ['\\', '"']
  | '\n' => ['\\', 'n']
  | c => [c]

/-- A text in double quotes. -/
def quote (text : List Char) : String :=
  String.ofList ('"' :: (text.flatMap quoteChar ++ ['"']))

/-! ## 2. Decimal numerals of limited length -/

/-- The most decimal digits of an integer that is written in decimal. -/
def maxNumeralDigits : Nat := 4300

/-- The least size of an integer that has too many digits. -/
def numeralBound : Nat := Nat.pow 10 maxNumeralDigits

/-- Whether an integer is written in decimal. -/
def isWritable (n : Int) : Bool := n.natAbs < numeralBound

/-- The number of binary digits of the size of an integer. -/
def bitLength (n : Int) : Nat := if n = 0 then 0 else n.natAbs.log2 + 1

/-- The text of an integer in a result. -/
def integerText (n : Int) : String :=
  if isWritable n then toString n else s!"<integer of {bitLength n} bits>"

end DiceNotation
