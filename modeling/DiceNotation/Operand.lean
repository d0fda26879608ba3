/-
# Operands

What the parts of an expression are while it is evaluated.  Nothing is forced before it is needed:
an array literal keeps its elements as they are, a name stands for a place in the variables until it
is read, and a dice term is a **pool** of dice that are not rolled yet.

A pool is rolled as a whole.  Its dice are alike, and of their sorted totals those from `lowest` to
`highest` are summed; a keep narrows that range, an explosion adds triggers.
-/
import DiceNotation.Value
import DiceNotation.Value.Order
import DiceNotation.Grammar.Power

namespace DiceNotation

/-! ## 1. Places -/

/-- A variable, or an element inside the array that it holds. -/
structure Place where
  name : String
  indices : List Int := []
deriving DecidableEq, Repr, Inhabited

/-- The text of an index path. -/
def pathText (path : List Int) : String :=
  String.join (path.map fun i => s!"[{i}]")

/-- The text of a place. -/
def Place.text (p : Place) : String := p.name ++ pathText p.indices

/-! ## 2. Pools -/

/-- Dice that are not rolled yet.  A die shows one of `sides`; while it shows a face that equals one
of `triggers` it is rolled again and added up. -/
structure Pool where
  num : Int
  sides : Array Value
  lowest : Int
  highest : Int
  triggers : List Value := []
deriving DecidableEq, Inhabited

namespace Pool

/-- A pool of which every die counts. -/
def ofSides (num : Int) (sides : Array Value) : Pool :=
  { num, sides, lowest := 0, highest := num - 1 }

/-- Whether every die of a pool counts. -/
def countsAll (p : Pool) : Bool := p.lowest == 0 && p.highest == p.num - 1

/-- Whether no die of a pool counts, or none can show a face. -/
def isEmpty (p : Pool) : Bool := p.sides.isEmpty || p.highest < p.lowest

/-- Narrows the range to its top or bottom `amount` dice. -/
def keep (p : Pool) (k : Keep) (amount : Int) : Pool :=
  match k with
  | .highest => { p with lowest := max p.lowest (p.highest + 1 - amount) }
  | .lowest => { p with highest := min p.highest (p.lowest + amount - 1) }

/-- Adds triggers. -/
def explodeOn (p : Pool) (faces : List Value) : Pool :=
  { p with triggers := p.triggers ++ faces }

/-- Adds the greatest face as a trigger; a pool without faces stays as it is. -/
def explodeOnGreatest (p : Pool) : Pool :=
  match p.sides.toList with
  | [] => p
  | face :: others => p.explodeOn [Value.greatest face others]

/-- Whether a face sets off another roll. -/
def triggered (triggers : List Value) (face : Value) : Bool :=
  triggers.any fun trigger => face.equiv trigger

end Pool

/-! ## 3. Operands -/

/-- A part of an expression under evaluation. -/
inductive Operand where
  | scalar (s : Scalar)
  | array (items : List Operand)
  | place (p : Place)
  | pool (p : Pool)

instance : Inhabited Operand := ⟨.array []⟩

/-- The kinds of operand that messages tell apart. -/
inductive Kind where
  | arrays
  | characters
  | numbers
  | integers
  | dice
deriving DecidableEq, Repr

/-- The name of a kind in messages. -/
def Kind.text : Kind → String
  | arrays => "arrays"
  | characters => "characters"
  | numbers => "numbers"
  | integers => "integers"
  | dice => "dice"

/-- Why an operand is no integer. -/
inductive CastError where
  /-- A number with a fractional part, an infinity, or not a number. -/
  | fractional (x : Float)
  | array
  /-- Something that is not forced yet. -/
  | unforced (kind : Kind)
deriving DecidableEq

namespace Operand

/-- The kind of an operand.  A place that is not read yet counts as an integer. -/
def kind : Operand → Kind
  | array _ => .arrays
  | scalar (.char _) => .characters
  | scalar (.real _) => .numbers
  | scalar (.int _) => .integers
  | place _ => .integers
  | pool _ => .dice

/-- Whether an operand is an array. -/
def isArray : Operand → Bool
  | array _ => true
  | _ => false

/-- The integer that an operand is, up to the sixth decimal place. -/
def toInt : Operand → Except CastError Int
  | scalar (.int n) => .ok n
  | scalar (.char c) => .ok (charCode c)
  | scalar (.real x) =>
    match (Scalar.real x).toInt? with
    | some n => .ok n
    | none => .error (.fractional x)
  | array _ => .error .array
  | place p => .error (.unforced (place p).kind)
  | pool p => .error (.unforced (pool p).kind)

mutual

/-- A value as an operand with nothing left to force. -/
def ofValue : Value → Operand
  | .scalar s => scalar s
  | .array items => array (ofValues items)

/-- Values as operands. -/
def ofValues : List Value → List Operand
  | [] => []
  | v :: vs => ofValue v :: ofValues vs

end

end Operand

end DiceNotation
