/-
# What arithmetic costs

Arithmetic reads nothing of its budget: it comes to some value after some number of steps, and both
depend on its operands alone (`Metered.Paced`).  As long as the steps are in time they are counted
and the value comes out (`Metered.run_paid`); the first one that is late ends the work there
(`Metered.run_paid_halted`).  For an array that is collected from the results of other work the
steps are its size (`Value.collect_eq_paid`): every element of every array in it, at any depth, is
paid for once, behind its own elements.
-/
import Mathlib.Algebra.GroupWithZero.Nat
import DiceNotation.Value.Arithmetic

namespace DiceNotation

/-! ## 1. A deadline in mid-run -/

theorem float_lt_iff {x y : Float} : x < y ↔ x.toModel.unpack.lt y.toModel.unpack = true :=
  decide_eq_true_iff

theorem float_lt_one_of_neg {x : Float} (h : x < 0) : x < 1 := by
  have hzero : (0 : Float).toModel.unpack = .zero .positive := rfl
  have hone : (1 : Float).toModel.unpack = .finite .positive (2 ^ 52) (-52) (by decide) := rfl
  rw [float_lt_iff, hzero] at h
  rw [float_lt_iff, hone]
  cases hx : x.toModel.unpack with
  | notANumber =>
    rw [hx] at h
    cases h
  | infinity sign =>
    rw [hx] at h
    cases sign with
    | negative => rfl
    | positive => cases h
  | zero sign =>
    rw [hx] at h
    cases h
  | finite sign mantissa exponent hpos =>
    rw [hx] at h
    cases sign with
    | negative => rfl
    | positive => cases h

/-- The clock that shows 0 until the `k`-th step is counted, and 1 from then on. -/
def Clock.striking (k : Nat) : Clock where
  shows n := if n < k then 0 else 1
  forward := by
    intro m n x hmn h
    by_cases hn : n < k
    · rw [if_pos (Nat.lt_of_le_of_lt hmn hn)] at h
      rwa [if_pos hn]
    · rw [if_neg hn]
      split at h
      · exact float_lt_one_of_neg h
      · exact h

/-! ## 2. Work that is paced -/

namespace Metered

variable {α β : Type}

/-- Pays for some steps, and then gives a value. -/
def paid : (steps : Nat) → (a : α) → Metered α
  | 0, a => return a
  | steps + 1, a => do
    payStep
    paid steps a

/-- Steps behind each other add up. -/
theorem paid_bind {f : α → Metered β} {a : α} {b : β} {k : Nat} (h : f a = paid k b) (j : Nat) :
    paid j a >>= f = paid (k + j) b := by
  induction j with
  | zero => simpa [paid] using h
  | succ j ih =>
    rw [paid, bind_assoc, ← Nat.add_assoc, paid]
    exact bind_congr fun _ => ih

theorem payStep_eq_paid : payStep = paid 1 () := bind_pure_unit.symm

/-- A step counts in any case.  It ends the work if it is late. -/
theorem run_paid_succ (steps : Nat) (a : α) (b : Budget) :
    paid (steps + 1) a b =
      if b.isLate (b.steps + 1) then .error (.halted b.timeout) (b.paying 1)
      else paid steps a (b.paying 1) := by
  rw [paid]
  change EStateM.bind payStep _ b = _
  rw [EStateM.bind, payStep_apply]
  cases b.isLate (b.steps + 1) <;> rfl

/-- While there is time, all steps are counted and the value comes out. -/
theorem run_paid (steps : Nat) (a : α) {b : Budget} (h : b.Lasts steps) :
    paid steps a b = .ok a (b.paying steps) := by
  induction steps generalizing b with
  | zero => rfl
  | succ steps ih =>
    rw [Nat.add_comm] at h ⊢
    obtain ⟨hfirst, hrest⟩ := Budget.lasts_add_iff.mp h
    rw [Nat.add_comm, run_paid_succ, Budget.lasts_one_iff.mp hfirst, if_neg Bool.false_ne_true,
      ih hrest, Budget.paying_paying, Nat.add_comm]

/-- The first step that is late is the last one. -/
theorem run_paid_halted {steps k : Nat} (a : α) {b : Budget} (h : b.HaltsAfter k)
    (hk : k < steps) : paid steps a b = .error (.halted b.timeout) (b.paying (k + 1)) := by
  induction k generalizing b steps with
  | zero =>
    obtain ⟨rest, rfl⟩ := Nat.exists_eq_add_of_lt hk
    rw [run_paid_succ, h.late, if_pos rfl]
  | succ k ih =>
    obtain ⟨steps, rfl⟩ := Nat.exists_eq_succ_of_ne_zero (Nat.ne_zero_of_lt hk)
    obtain ⟨hfirst, hrest⟩ := h.behind
    rw [run_paid_succ, Budget.lasts_one_iff.mp hfirst, if_neg Bool.false_ne_true,
      ih hrest (Nat.lt_of_succ_lt_succ hk), Budget.timeout_paying, Budget.paying_paying,
      Nat.add_comm 1]

/-- Work that comes to a value after some steps. -/
def Paced (work : Metered α) : Prop := ∃ steps a, work = paid steps a

namespace Paced

theorem pure (a : α) : Paced (Pure.pure a) := ⟨0, a, rfl⟩

theorem bind {x : Metered α} {f : α → Metered β} (hx : x.Paced) (hf : ∀ a, (f a).Paced) :
    (x >>= f).Paced := by
  obtain ⟨j, a, rfl⟩ := hx
  obtain ⟨k, b, hb⟩ := hf a
  exact ⟨k + j, b, paid_bind hb j⟩

end Paced

end Metered

/-! ## 3. Collected results -/

namespace Value

mutual

/-- The number of elements of all arrays in a value, at any depth. -/
def size : Value → Nat
  | scalar _ => 0
  | array vs => sizes vs

/-- The number of some values and of all elements in them. -/
def sizes : List Value → Nat
  | [] => 0
  | v :: vs => sizes vs + 1 + size v

end

theorem sizes_eq_sum (vs : List Value) : sizes vs = (vs.map fun v => size v + 1).sum := by
  induction vs with
  | nil => rfl
  | cons v vs ih =>
    rw [sizes, ih, List.map_cons, List.sum_cons]
    omega

/-- The results of paid work are collected one after the other. -/
theorem collectOnto_eq_paid (done vs : List Value) :
    collectOnto done (vs.map fun v => .paid v.size v) = .paid (sizes vs) (done.reverse ++ vs) := by
  induction vs generalizing done with
  | nil => simp [collectOnto, Metered.paid, sizes]
  | cons v vs ih =>
    have hrest := ih (v :: done)
    rw [List.reverse_cons, List.append_assoc] at hrest
    rw [List.map_cons, collectOnto]
    refine Metered.paid_bind ?_ v.size
    rw [hrest]
    rfl

/-- **An array of collected results pays for every element in it**, at any depth. -/
theorem collect_eq_paid (vs : List Value) :
    (do return array (← collect (vs.map fun v => .paid v.size v))) =
      Metered.paid (array vs).size (array vs) := by
  have hpaid := Metered.paid_bind (f := fun vs => pure (array vs)) (a := vs) (k := 0) rfl (sizes vs)
  rw [Nat.zero_add] at hpaid
  rw [collect, collectOnto_eq_paid]
  exact hpaid

end Value

end DiceNotation
