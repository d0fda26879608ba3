/-
# Actions on what they force

A factorial, a keep and an index treat one kind of operand by itself: a pool, or a place.  Any other
operand is forced, and what is done then depends on what it has been forced to.  That second half of
each action has a name here, so that a proof about the action has two cases and not one for every
kind of operand.

A value that is an operand again has nothing left to force (`Value.forceAll_ofValue`).  What forcing
makes of anything but an array is such an operand (`Operand.force_eq`).
-/
import DiceNotation.Evaluation

namespace DiceNotation

/-! ## 1. Values as operands -/

namespace Operand

theorem ofValues_eq_map (vs : List Value) : ofValues vs = vs.map ofValue := by
  induction vs with
  | nil => rfl
  | cons v vs ih => rw [ofValues, ih, List.map_cons]

theorem map_scalar_eq_ofValues (ss : List Scalar) : ss.map scalar = ofValues (ss.map .scalar) := by
  rw [ofValues_eq_map, List.map_map]
  rfl

end Operand

namespace Value

mutual

/-- A value as an operand has nothing left to force. -/
theorem forceAll_ofValue : (v : Value) → (Operand.ofValue v).forceAll = pure v
  | scalar s => rfl
  | array vs => by
    simp [Operand.ofValue, Operand.forceAll, forceAllOnto_ofValues vs]

theorem forceAllOnto_ofValues : (vs done : List Value) →
    Operand.forceAllOnto done (Operand.ofValues vs) = pure (done.reverse ++ vs)
  | [], done => by simp [Operand.ofValues, Operand.forceAllOnto]
  | v :: vs, done => by
    simp [Operand.ofValues, Operand.forceAllOnto, forceAll_ofValue v, forceAllOnto_ofValues vs]

end

end Value

/-- Forcing leaves an array as it is.  Of anything else it makes the whole value. -/
theorem Operand.force_eq (x : Operand) :
    x.force = if x.isArray then pure x else ofValue <$> x.forceAll := by
  cases x with
  | scalar c => rfl
  | array items => rfl
  | place p => simp [force, forceAll, isArray]
  | pool p => simp [force, forceAll, isArray]

/-! ## 2. What is done with what was looked up -/

/-- The value that has been found at a place, or the error. -/
def lookedUp : Except EvalError Value → Evaluating Value
  | .ok v => return v
  | .error e => fail e

theorem readPlace_eq (p : Place) : readPlace p = (do
    let s ← get
    lookedUp (s.vars.get p)) := rfl

theorem readPlace_apply (p : Place) (s : Session) :
    readPlace p s = lookedUp (s.vars.get p) s := rfl

namespace Meaning

/-! ## 3. What is done with a forced operand -/

/-- There is no factorial yet; the error tells the kinds of numbers apart. -/
def factorialOf : Operand → Evaluating Operand
  | .array _ => fail .arrayFactorial
  | .scalar (.real _) => fail .realFactorial
  | _ => fail .factorial

/-- A keep selects elements of an array. -/
def keepOf (k : Keep) (n : Int) : Operand → Evaluating Operand
  | .array items => return .array (← keepItems items n k k.operation)
  | x => fail (.notKeepable k x.kind)

/-- The element of an array at an index. -/
def elementOf (i : Int) : Operand → Evaluating Operand
  | .array items =>
    match elementAt? items i with
    | some x => return x
    | none => fail (.outOfBounds none [i] items.length)
  | _ => fail (.notIndexable none [i])

/-- What an index does when its position has been forced. -/
def indexBy (target : Operand) : Except CastError Int → Evaluating Operand
  | .error cause => fail (.badIndex cause)
  | .ok i =>
    match target with
    | .place p => return .place { p with indices := p.indices ++ [i] }
    | x => x.force >>= elementOf i

/-- A factorial of a forced operand is an error, and one that spells out no integer. -/
theorem exists_factorialOf_eq (x : Operand) :
    ∃ e : EvalError, e ≠ .notSortable ∧ e.numerals = [] ∧ factorialOf x = fail e := by
  unfold factorialOf
  split
  · exact ⟨.arrayFactorial, nofun, rfl, rfl⟩
  · exact ⟨.realFactorial, nofun, rfl, rfl⟩
  · exact ⟨.factorial, nofun, rfl, rfl⟩

/-! ## 4. The actions -/

theorem suffix_bang_of_ne_pool {inner : Operand} (h : ∀ p, inner ≠ .pool p) :
    suffix inner .bang = inner.force >>= factorialOf := by
  cases inner with
  | pool p => exact absurd rfl (h p)
  | _ => rfl

theorem keep_of_ne_pool {target : Operand} (h : ∀ p, target ≠ .pool p) (k : Keep)
    (howMany : Operand) :
    keep k target howMany = amount k howMany >>= fun n => target.force >>= keepOf k n := by
  cases target with
  | pool p => exact absurd rfl (h p)
  | _ => rfl

theorem explode_of_ne_pool {target : Operand} (h : ∀ p, target ≠ .pool p) (faces : Operand) :
    explode target faces = target.force >>= fun x => fail (.notExplodable x.kind) := by
  cases target with
  | pool p => exact absurd rfl (h p)
  | _ => rfl

theorem index_eq (target position : Operand) :
    index target position = position.force >>= fun y => indexBy target y.toInt := by
  unfold index
  refine congrArg _ (funext fun y => ?_)
  cases y.toInt with
  | error cause => rfl
  | ok i => cases target <;> rfl

theorem indexBy_of_ne_place {target : Operand} (h : ∀ p, target ≠ .place p) (i : Int) :
    indexBy target (.ok i) = target.force >>= elementOf i := by
  cases target with
  | place p => exact absurd rfl (h p)
  | _ => rfl

end Meaning

end DiceNotation
