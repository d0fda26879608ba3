/-
# Less, equal or greater

Comparisons are carried over to arrays as arithmetic is, so that each of them makes a value of one
and the same shape, with the integer 1 where it holds and 0 where it does not
(`leafwise_broadcast`).  Of two scalars exactly one is less than the other, or they are equal, also
if there is something among them that is not a number; and so it is at every place
(`comparisons_trichotomy`).
-/
import DiceNotation.Proofs.Value.Broadcasting
import DiceNotation.Proofs.Value.Preorder

namespace DiceNotation

/-! ## 1. Scalars -/

namespace Scalar

/-- The integer 1 among three scalars, two of which are the integer 0. -/
inductive OneHolds : Scalar → Scalar → Scalar → Prop
  | first : OneHolds (int 1) (int 0) (int 0)
  | second : OneHolds (int 0) (int 1) (int 0)
  | third : OneHolds (int 0) (int 0) (int 1)

/-- **Exactly one of the three comparisons of scalars holds.** -/
theorem oneHolds_comparisons (s t : Scalar) : OneHolds (s.lt t) (s.eq t) (s.gt t) := by
  unfold lt eq gt
  cases s.compare t with
  | lt => exact .first
  | eq => exact .second
  | gt => exact .third

theorem gt_eq_lt (s t : Scalar) : s.gt t = t.lt s := by
  have hswap : s.compare t = (t.compare s).swap := Std.OrientedCmp.eq_swap
  rw [gt, lt, hswap]
  cases t.compare s <;> rfl

theorem eq_comm (s t : Scalar) : s.eq t = t.eq s := by
  have hswap : s.compare t = (t.compare s).swap := Std.OrientedCmp.eq_swap
  rw [eq, eq, hswap]
  cases t.compare s <;> rfl

end Scalar

namespace Value

/-! ## 2. Values of one shape -/

/-- Three values of one shape, whose scalars are related at each place. -/
inductive Leafwise (R : Scalar → Scalar → Scalar → Prop) : Value → Value → Value → Prop
  | scalar {r s t : Scalar} (h : R r s t) : Leafwise R (scalar r) (scalar s) (scalar t)
  | array {us vs ws : List Value} (hv : vs.length = us.length) (hw : ws.length = us.length)
      (h : ∀ (i : Nat) (hi : i < us.length), Leafwise R us[i] vs[i] ws[i]) :
      Leafwise R (array us) (array vs) (array ws)

variable {R : Scalar → Scalar → Scalar → Prop}

/-- Operations whose results on scalars are related come to values that are related everywhere. -/
theorem leafwise_broadcast {f g h : Scalar → Scalar → Scalar}
    (hR : ∀ s t, R (f s t) (g s t) (h s t)) (v w : Value) :
    Leafwise R (broadcast f v w) (broadcast g v w) (broadcast h v w) := by
  fun_induction broadcast f v w with
  | case1 s t =>
    rw [broadcast, broadcast]
    exact .scalar (hR s t)
  | case2 s ws ih =>
    rw [broadcast, broadcast]
    refine .array (by simp) (by simp) fun i hi => ?_
    simp only [List.getElem_map]
    exact ih _ (List.getElem_mem _)
  | case3 vs t ih =>
    rw [broadcast, broadcast]
    refine .array (by simp) (by simp) fun i hi => ?_
    simp only [List.getElem_map]
    exact ih _ (List.getElem_mem _)
  | case4 vs ws ih =>
    rw [broadcast, broadcast]
    refine .array (by simp) (by simp) fun i hi => ?_
    simp only [List.getElem_ofFn]
    exact ih ⟨i, by simpa using hi⟩

theorem Leafwise.size_eq {u v w : Value} (h : Leafwise R u v w) :
    v.size = u.size ∧ w.size = u.size := by
  induction h with
  | scalar _ => exact ⟨rfl, rfl⟩
  | @array us vs ws hv hw _ ih =>
    rw [size, size, size, sizes_eq_sum, sizes_eq_sum, sizes_eq_sum]
    constructor
    · congr 1
      refine List.ext_getElem (by simpa using hv) fun i hi hi' => ?_
      rw [List.getElem_map, List.getElem_map, (ih i (by simpa using hi')).1]
    · congr 1
      refine List.ext_getElem (by simpa using hw) fun i hi hi' => ?_
      rw [List.getElem_map, List.getElem_map, (ih i (by simpa using hi')).2]

/-! ## 3. Comparing values -/

/-- **Less, equal or greater, and only one of them, at every place.**  The three comparisons of two
values take the same number of steps, and come to values of one shape with the integers 0 and 1 in
it: at each place one of the three is 1.  Greater is less with the operands exchanged, and equal is
the same either way. -/
theorem comparisons_trichotomy (v w : Value) :
    (∃ (steps : Nat) (less equal greater : Value), lt v w = .paid steps less ∧
      eq v w = .paid steps equal ∧ gt v w = .paid steps greater ∧
      Leafwise Scalar.OneHolds less equal greater) ∧
    gt v w = lt w v ∧ eq v w = eq w v := by
  have hshape := leafwise_broadcast Scalar.oneHolds_comparisons v w
  obtain ⟨hequal, hgreater⟩ := hshape.size_eq
  refine ⟨⟨_, _, _, _, elementwise_eq_paid _ v w, ?_, ?_, hshape⟩, ?_, ?_⟩
  · rw [← hequal]
    exact elementwise_eq_paid _ v w
  · rw [← hgreater]
    exact elementwise_eq_paid _ v w
  · have hswap : broadcast Scalar.gt v w = broadcast Scalar.lt w v := by
      rw [broadcast_swap]
      exact congrArg (broadcast · w v) (funext fun t => funext fun s => Scalar.gt_eq_lt s t)
    rw [gt, lt, elementwise_eq_paid, elementwise_eq_paid, hswap]
  · have hswap : broadcast Scalar.eq v w = broadcast Scalar.eq w v := by
      rw [broadcast_swap]
      exact congrArg (broadcast · w v) (funext fun t => funext fun s => Scalar.eq_comm s t)
    rw [eq, elementwise_eq_paid, elementwise_eq_paid, hswap]

/-- The shorter array begins again: 1 is less than 2, then 2 is greater than 1, and 1 is equal. -/
example :
    let v : Value := .array [.int 1, .int 2]
    let w : Value := .array [.int 2, .int 1, .int 1]
    lt v w {} = .ok (.array [.int 1, .int 0, .int 0]) { steps := 3 } ∧
      eq v w {} = .ok (.array [.int 0, .int 0, .int 1]) { steps := 3 } ∧
      gt v w {} = .ok (.array [.int 0, .int 1, .int 0]) { steps := 3 } :=
  ⟨rfl, rfl, rfl⟩

end Value

end DiceNotation
