/-
# The text of a value

How results are shown.  An array of characters only is shown as a quoted text, any other array by
its elements between brackets.  A floating point number has the fewest digits that read back the
same.
-/
import DiceNotation.Value
import DiceNotation.Decimal.Layout
import DiceNotation.Text.Writing

namespace DiceNotation

/-- The text of a scalar. -/
def Scalar.text : Scalar → String
  | int n => integerText n
  | real x => Layout.value.write x
  | char c => s!"'{c}'"

namespace Value

/-- The characters of an array, if all of its elements are characters. -/
def chars? : List Value → Option (List Char)
  | [] => some []
  | scalar (.char c) :: rest => (chars? rest).map (c :: ·)
  | _ :: _ => none

mutual

/-- The text of a value. -/
def text : Value → String
  | scalar s => s.text
  | array [] => "[]"
  | array (v :: vs) =>
    match chars? (v :: vs) with
    | some cs => quote cs
    | none => "[" ++ ", ".intercalate (text v :: texts vs) ++ "]"

/-- The texts of the elements of an array. -/
def texts : List Value → List String
  | [] => []
  | v :: vs => text v :: texts vs

end

mutual

/-- Whether every integer in a value, at any depth, can be written in decimal. -/
def isWritable : Value → Bool
  | scalar (.int n) => DiceNotation.isWritable n
  | scalar _ => true
  | array items => areWritable items

/-- Whether every integer in some values, at any depth, can be written in decimal. -/
def areWritable : List Value → Bool
  | [] => true
  | v :: vs => isWritable v && areWritable vs

end

end Value

end DiceNotation
