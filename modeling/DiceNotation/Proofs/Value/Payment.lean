/-
# Every element is paid for

What an operation on values costs is the size of its result: one step for each element of each array
in it, at any depth (`operations_pay_for_size`).  While there is time all of these steps are
counted, and the first of them that is late halts the operation.  So an operation with a large
result can not outrun its deadline, and one whose result has no elements takes no notice of it.

The negative of a value has the shape of the value (`size_map`), so there the cost is known
beforehand.
-/
import DiceNotation.Proofs.Value.Broadcasting

namespace DiceNotation

/-! ## 1. What work costs -/

namespace Metered

variable {α : Type}

/-- Work that comes to `a` and has `steps` steps to pay for, whatever its budget is.  In time they
are all counted; the first one that is late ends the work, which is the very first if the deadline
has passed before; and work without any step does not notice the deadline. -/
structure Costs (work : Metered α) (steps : Nat) (a : α) : Prop where
  in_time : ∀ b : Budget, b.Lasts steps → work b = .ok a (b.paying steps)
  halted : ∀ (b : Budget) (k : Nat), b.HaltsAfter k → k < steps →
    work b = .error (.halted b.timeout) (b.paying (k + 1))
  unnoticed : ∀ b : Budget, steps = 0 → work b = .ok a b

theorem costs_paid (steps : Nat) (a : α) : Costs (paid steps a) steps a where
  in_time _ hlasts := run_paid steps a hlasts
  halted _ _ hhalts hless := run_paid_halted a hhalts hless
  unnoticed b hsteps := by
    subst hsteps
    rfl

end Metered

/-! ## 2. What operations cost -/

namespace Value

/-- A function that is applied to every scalar leaves the arrays as they are. -/
theorem size_map (g : Scalar → Scalar) (v : Value) : (v.map g).size = v.size := by
  fun_induction map g v with
  | case1 s => rfl
  | case2 vs ih =>
    rw [size, size, sizes_eq_sum, sizes_eq_sum, List.map_map]
    refine congrArg List.sum (List.map_congr_left ?_)
    intro v hv
    exact congrArg (· + 1) (ih v hv)

theorem costs_elementwise (f : Scalar → Scalar → Scalar) (v w : Value) :
    ∃ result, (elementwise f v w).Costs result.size result := by
  refine ⟨broadcast f v w, ?_⟩
  rw [elementwise_eq_paid]
  exact Metered.costs_paid _ _

/-- **Every element of a result is paid for.**  Each of the operations on two values costs the size
of its result, and the negative of a value costs the size of the value, which is that of the result
too. -/
theorem operations_pay_for_size (v w : Value) :
    (∀ operation ∈ [add, sub, mul, div, eq, lt, gt, or, and],
      ∃ result, (operation v w).Costs result.size result) ∧
    ∃ result, v.neg.Costs v.size result ∧ result.size = v.size := by
  constructor
  · intro operation hmem
    simp only [List.mem_cons, List.not_mem_nil, or_false] at hmem
    rcases hmem with rfl | rfl | rfl | rfl | rfl | rfl | rfl | rfl | rfl <;>
      exact costs_elementwise _ v w
  · refine ⟨v.map Scalar.neg, ?_, size_map Scalar.neg v⟩
    rw [neg_eq_paid, size_map]
    exact Metered.costs_paid _ _

/-- Arrays of different lengths and depths: eight elements come out, which a budget in time pays
for.  A deadline that has passed ends the work at the first of them, and one that passes on the way
where it does.  With an empty array nothing comes out, and the deadline does not matter. -/
theorem operations_pay_for_size_uneven :
    let v : Value := .array [.int 1, .array [.int 2, .int 3, .int 4], .array []]
    let w : Value := .array [.array [.int 5, .int 6], .int 7]
    let product : Value :=
      .array [.array [.int 5, .int 6], .array [.int 14, .int 21, .int 28], .array []]
    let late : Budget := { timeout := some (-1), steps := 5 }
    let short : Budget := { timeout := some 0.5, clock := .striking 4 }
    mul v w {} = .ok product { steps := 8 } ∧
      (late.HaltsAfter 0 ∧ mul v w late = .error (.halted (some (-1))) { late with steps := 6 }) ∧
      (short.HaltsAfter 3 ∧
        mul v w short = .error (.halted (some 0.5)) { short with steps := 4 }) ∧
      add (.array []) w late = .ok (.array []) late ∧
      ∃ negative, neg v {} = .ok negative { steps := 6 } ∧ negative.size = 6 := by
  intro v w product late short
  have hlate : late.HaltsAfter 0 := by decide
  have hshort : short.HaltsAfter 3 := by decide
  have hendless (k : Nat) : Budget.Lasts {} k := (Budget.endless_of_timeout rfl).lasts k
  obtain ⟨hoperations, negative, hneg, hsize⟩ := operations_pay_for_size v w
  obtain ⟨result, hmul⟩ := hoperations mul (by simp)
  have hproduct : mul v w {} = .ok product { steps := 8 } := rfl
  have hresult : result.size = 8 := by
    have hrun := hproduct.symm.trans (hmul.in_time {} (hendless _))
    injection hrun with hvalue _
    rw [← hvalue]
    rfl
  obtain ⟨nothing, hadd⟩ := (operations_pay_for_size (.array []) w).1 add (by simp)
  have hempty : nothing = .array [] := by
    have hrun : add (.array []) w {} = .ok (.array []) {} := rfl
    have hsame := hrun.symm.trans (hadd.in_time {} (hendless _))
    injection hsame with hvalue _
    exact hvalue.symm
  subst hempty
  exact ⟨hproduct, ⟨hlate, hmul.halted late 0 hlate (by omega)⟩,
    ⟨hshort, hmul.halted short 3 hshort (by omega)⟩, hadd.unnoticed late rfl,
    negative, hneg.in_time {} (hendless _), hsize⟩

end Value

end DiceNotation
