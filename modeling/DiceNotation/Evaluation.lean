/-
# Evaluating an expression

The actions that evaluate what is read.  A construct is evaluated as soon as its parts have been
read, but operands are forced only where a value is needed: arithmetic forces its operands and
everything in them, a sequence and an array literal force nothing, and an assignment forces what it
assigns and gives back the place.
-/
import DiceNotation.Grammar.Reading
import DiceNotation.Selection

namespace DiceNotation

namespace Op

/-- The operation on values that an operator between two operands stands for. -/
def arithmetic? : Op → Option (Value → Value → Metered Value)
  | plus => some Value.add
  | minus => some Value.sub
  | star => some Value.mul
  | slash => some Value.div
  | equal => some Value.eq
  | less => some Value.lt
  | greater => some Value.gt
  | or => some Value.or
  | and => some Value.and
  | _ => none

end Op

namespace Meaning

/-! ## 1. Literals and operators -/

/-- A name stands for its place and a string for the array of its characters. -/
def literal : Token → Evaluating Operand
  | .number n => return .scalar (.int n)
  | .word name => return .place ⟨name, []⟩
  | .char c => return .scalar (.char c)
  | .string content => return .array (content.toList.map fun c => .scalar (.char c))
  | t => fail (.notLiteral t)

/-- The elements that an operand of a comma contributes. -/
def elements : Operand → List Operand
  | .array items => items
  | x => [x]

/-- Assigns to a place. -/
def assign (left right : Operand) : Evaluating Operand :=
  match left with
  | .place p => do
    let v ← right.forceAll
    inVariables (Variables.assign p v)
    return left
  | _ => fail (.notAssignable left.kind)

/-- An operator between two operands. -/
def binary (left right : Operand) (o : Op) : Evaluating Operand :=
  match o.arithmetic? with
  | some operation => do
    let v ← left.forceAll
    let w ← right.forceAll
    return .ofValue (← operation v w)
  | none =>
    match o with
    | .comma => do
      let x ← left.force
      let y ← right.force
      return .array (elements x ++ elements y)
    | .semicolon => return right
    | .assign => assign left right
    | o => fail (.meaningless .between o)

/-- An operator in front of its operand. -/
def unary (inner : Operand) (o : Op) : Evaluating Operand :=
  match o with
  | .plus => return inner
  | .minus => do
    let v ← inner.forceAll
    return .ofValue (← v.neg)
  | .comma => return .array [inner]
  | .hash => do
    match ← inner.force with
    | .array items => return .scalar (.int items.length)
    | x => fail (.noLength x.kind)
  | o => fail (.meaningless .before o)

/-- An operator behind its operand. -/
def suffix (inner : Operand) (o : Op) : Evaluating Operand :=
  match o with
  | .percent => do
    let v ← inner.forceAll
    return .ofValue (← v.div (.int 100))
  | .bang =>
    match inner with
    | .pool p => return .pool p.explodeOnGreatest
    | _ => do
      match ← inner.force with
      | .array _ => fail .arrayFactorial
      | .scalar (.real _) => fail .realFactorial
      | _ => fail .factorial
  | o => fail (.meaningless .behind o)

/-! ## 2. Dice -/

/-- The number of dice or sides that an operand asks for. -/
def count (x : Operand) (what : Counted) : Evaluating Nat :=
  match x.toInt with
  | .error cause => fail (.badCount what cause)
  | .ok n =>
    if n < 0 then fail (.negativeCount what)
    else if (countLimit : Int) < n then fail (.tooMany what n)
    else return n.toNat

/-- The sides of a die that has its numbers from 1 to `n` on them. -/
def numbered (n : Nat) : Array Value := (Array.range n).map fun (i : Nat) => .int (i + 1)

/-- The sides that an operand stands for: the elements of an array, or the numbers from 1 on. -/
def sidesOf (x : Operand) : Evaluating (Array Value) :=
  match x with
  | .array items =>
    if countLimit < items.length then fail (.tooMany .sides items.length)
    else return (← Operand.forceAllOnto [] items).toArray
  | x => return numbered (← count x .sides)

/-- A dice term.  Without a number it is one die. -/
def dice (num : Option Operand) (sides : Operand) : Evaluating Operand := do
  let n ←
    match num with
    | none => pure 1
    | some x => count (← x.force) .dice
  return .pool (.ofSides n (← sidesOf (← sides.force)))

/-- The amount of a keep. -/
def amount (k : Keep) (x : Operand) : Evaluating Int := do
  match (← x.force).toInt with
  | .error cause => fail (.badAmount k cause)
  | .ok n => if n < 0 then fail (.negativeAmount k n) else return n

/-- A keep narrows a pool, and selects elements of anything else that is an array. -/
def keep (k : Keep) (target : Operand) (howMany : Operand) : Evaluating Operand := do
  let n ← amount k howMany
  match target with
  | .pool p => return .pool (p.keep k n)
  | _ =>
    match ← target.force with
    | .array items => return .array (← keepItems items n k k.operation)
    | x => fail (.notKeepable k x.kind)

/-- The triggers that a value stands for: the elements of an array, or the scalar itself. -/
def triggersOf : Value → List Value
  | .array items => items
  | v => [v]

/-- The faces on which a pool explodes. -/
def explode (target faces : Operand) : Evaluating Operand := do
  match target with
  | .pool p => return .pool (p.explodeOn (triggersOf (← faces.forceAll)))
  | _ => fail (.notExplodable (← target.force).kind)

/-! ## 3. Indices -/

/-- An index of a place makes a further place; anything else is forced and has to be an array. -/
def index (target position : Operand) : Evaluating Operand := do
  match (← position.force).toInt with
  | .error cause => fail (.badIndex cause)
  | .ok i =>
    match target with
    | .place p => return .place { p with indices := p.indices ++ [i] }
    | _ =>
      match ← target.force with
      | .array items =>
        match elementAt? items i with
        | some x => return x
        | none => fail (.outOfBounds none [i] items.length)
      | _ => fail (.notIndexable none [i])

end Meaning

/-! ## 4. Whole texts -/

/-- The actions that evaluate what is read. -/
def Actions.evaluation : Actions Evaluating Operand where
  literal := Meaning.literal
  binary := Meaning.binary
  unary := Meaning.unary
  suffix := Meaning.suffix
  dice := Meaning.dice
  keep := Meaning.keep
  explode := Meaning.explode
  array items := return .array items
  index := Meaning.index

/-- Reads a text down to `depth` levels and evaluates it, up to an operand that may hold things not
forced. -/
def evaluateLazily (depth : Nat) (text : String) : Evaluating Operand := do
  match ← (Actions.evaluation.readText depth text).run with
  | .ok x => return x
  | .error e => fail (.form e)

/-- The value of a text that is read down to `depth` levels.  It is recorded, so an integer with too
many digits is a fault. -/
def evaluate (depth : Nat) (text : String) : Evaluating Value := do
  let x ← evaluateLazily depth text
  let v ← x.forceAll
  if v.isWritable then return v else throw .numeralTooLong

/-- The session in which a text is evaluated with a source of rolls, a time limit and a clock. -/
def Session.start (source : Source) (timeout : Option Float := none) (clock : Clock := .still) :
    Session :=
  { tray := { source, budget := { timeout, clock } } }

end DiceNotation
