/-
# Rolling dice

A **tray** is what dice are rolled on: the source of rolls, the number of rolls drawn from it, and
the budget that pays for the work.  A die is rolled until it shows a face that is no trigger, and
its faces are added up.  A pool of which every die counts is summed as it is rolled; of any other
pool all dice are rolled and sorted before the dice of its range are summed.
-/
import DiceNotation.Chance.Source
import DiceNotation.Value.Arithmetic
import DiceNotation.Value.Sort

namespace DiceNotation

/-! ## 1. The tray -/

/-- What dice are rolled on. -/
structure Tray where
  source : Source
  drawn : Nat := 0
  budget : Budget := {}

/-- Work that rolls dice. -/
abbrev Rolling := EStateM Fault Tray

/-- Work that is paid for from the budget of the tray. -/
def Metered.onTray {α : Type} (work : Metered α) : Rolling α := fun t =>
  match work t.budget with
  | .ok a b => .ok a { t with budget := b }
  | .error e b => .error e { t with budget := b }

instance : MonadLift Metered Rolling := ⟨Metered.onTray⟩

/-- Draws a number below `n`. -/
def draw (n : Nat) (pos : 0 < n) : Rolling (Fin n) := fun t =>
  match t.source.draw? n pos with
  | some (i, source) => .ok i { t with source := source, drawn := t.drawn + 1 }
  | none => .error .rollsExhausted t

/-- A total with one more value added, or the value itself if it is the first. -/
def addTo (total : Option Value) (v : Value) : Metered Value :=
  match total with
  | none => return v
  | some total => Value.add total v

/-! ## 2. One die -/

/-- Rolls a die until it shows a face that is no trigger, and adds its faces to `total`.  `fuel`
bounds the rolls; it is spent only when the source is. -/
def rollOn (sides : Array Value) (pos : 0 < sides.size) (triggers : List Value) :
    (fuel : Nat) → (total : Option Value) → Rolling Value
  | 0, _ => throw .rollsExhausted
  | fuel + 1, total => do
    let i ← draw sides.size pos
    let face := sides[i]
    let total ← addTo total face
    if Pool.triggered triggers face then
      payStep
      rollOn sides pos triggers fuel (some total)
    else return total

namespace Pool

/-- Rolls one die of a pool.  A die without sides never comes to rest. -/
def rollDie (p : Pool) : Rolling Value := do
  if pos : 0 < p.sides.size then
    rollOn p.sides pos p.triggers (← get).source.remaining none
  else throw .rollsExhausted

/-! ## 3. A pool -/

/-- Rolls `n` dice and adds them to `total`. -/
def rollSum (p : Pool) : (n : Nat) → (total : Option Value) → Rolling Value
  | 0, total => return total.getD (.int 0)
  | n + 1, total => do
    let roll ← p.rollDie
    let total ← addTo total roll
    payStep
    rollSum p n (some total)

/-- Rolls `n` dice behind those of `done`, which is in reverse order. -/
def rollEach (p : Pool) : (n : Nat) → (done : List Value) → Rolling (List Value)
  | 0, done => return done.reverse
  | n + 1, done => do
    let roll ← p.rollDie
    payStep
    rollEach p n (roll :: done)

/-- The place in a list of the given length that a position means: a negative one counts from the
end, and none reaches beyond either end. -/
def clampPlace (length : Nat) (position : Int) : Nat :=
  if position < 0 then (position + length).toNat else min position.toNat length

/-- The elements from `first` up to, but without, `behind`. -/
def slice {α : Type} (xs : List α) (first behind : Int) : List α :=
  let start := clampPlace xs.length first
  (xs.drop start).take (clampPlace xs.length behind - start)

/-- Rolls a pool and sums the dice that count.  A pool of which none counts is 0, and is not
rolled. -/
def roll (p : Pool) : Rolling Value :=
  if p.isEmpty then return .int 0
  else if p.countsAll then p.rollSum p.num.toNat none
  else do
    let rolls ← p.rollEach p.num.toNat []
    Value.sum (slice (Value.sort rolls) p.lowest (p.highest + 1))

end Pool

end DiceNotation
