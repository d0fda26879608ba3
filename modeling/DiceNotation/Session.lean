/-
# Sessions

What an evaluation works on: its variables, and the tray on which it rolls.  Forcing an operand
rolls its dice and reads its variables: `Operand.force` forces an operand but leaves the elements
of an array as they are, and `Operand.forceAll` forces everything in it.
-/
import DiceNotation.Variables
import DiceNotation.Rolling

namespace DiceNotation

/-- The state of an evaluation. -/
structure Session where
  tray : Tray
  vars : Variables := {}

/-- Work on a session. -/
abbrev Evaluating := EStateM Fault Session

/-- Work on the tray of a session. -/
def Rolling.inSession {α : Type} (work : Rolling α) : Evaluating α := fun s =>
  match work s.tray with
  | .ok a t => .ok a { s with tray := t }
  | .error e t => .error e { s with tray := t }

instance : MonadLift Rolling Evaluating := ⟨Rolling.inSession⟩

/-- Work on the variables of a session. -/
def inVariables {α : Type} (work : EStateM Fault Variables α) : Evaluating α := fun s =>
  match work s.vars with
  | .ok a vars => .ok a { s with vars := vars }
  | .error e vars => .error e { s with vars := vars }

/-- Ends the evaluation with an error. -/
def fail {α : Type} (e : EvalError) : Evaluating α := throw e.fault

/-- The value at a place. -/
def readPlace (p : Place) : Evaluating Value := do
  match (← get).vars.get p with
  | .ok v => return v
  | .error e => fail e

namespace Operand

/-- Rolls a pool or reads a place; any other operand stays as it is. -/
def force : Operand → Evaluating Operand
  | pool p => return ofValue (← p.roll)
  | place p => return ofValue (← readPlace p)
  | scalar s => return scalar s
  | array items => return array items

mutual

/-- The value of an operand with everything in it forced, from left to right. -/
def forceAll : Operand → Evaluating Value
  | pool p => p.roll
  | place p => readPlace p
  | scalar s => return .scalar s
  | array items => return .array (← forceAllOnto [] items)

/-- The values of some operands behind those of `done`, which is in reverse order. -/
def forceAllOnto (done : List Value) : List Operand → Evaluating (List Value)
  | [] => return done.reverse
  | x :: xs => do
    let v ← forceAll x
    forceAllOnto (v :: done) xs

end

end Operand

end DiceNotation
