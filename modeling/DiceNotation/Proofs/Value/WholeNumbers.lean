/-
# The integer that a scalar is

Counts, indices and the amounts of keeps are read as integers, while conditions and selections
compare.  The two agree (`Operand.toInt_agrees_with_order`): a scalar is read as the integer with
which it compares as equal, and it is refused if there is none.

Both look at the quantity of the scalar.  An integer has the quantity that it is, and it is equal
to no other quantity (`Quantity.compare_exact_eq_iff`), so a scalar is equal to one integer at most;
and the quantity that is an integer is the rational number of denominator 1
(`Quantity.toInt?_eq_some_iff`).  Infinities and what is not a number are neither.

For arrays the two do not agree.  An array is equal to an integer if its first scalar is, and yet
it is never read as one.
-/
import DiceNotation.Fault
import DiceNotation.Proofs.Value.Preorder

namespace DiceNotation

/-! ## 1. Quantities -/

namespace Quantity

theorem compareRat_eq_iff {q r : ℚ} : compareRat q r = .eq ↔ q = r := by
  unfold compareRat
  split_ifs with hless hgreater
  · simp [hless.ne]
  · simp [hgreater.ne']
  · simp [le_antisymm (not_lt.mp hgreater) (not_lt.mp hless)]

/-- Nothing but the number itself compares as equal with a number. -/
theorem compare_exact_eq_iff {a : Quantity} {q : ℚ} : a.compare (exact q) = .eq ↔ a = exact q := by
  cases a with
  | nan => simp [compare, rank]
  | bottom => simp [compare, rank]
  | exact r => rw [compare, compareRat_eq_iff, exact.injEq]
  | top => simp [compare, rank]

theorem toInt?_eq_some_iff {a : Quantity} {n : Int} : a.toInt? = some n ↔ a = exact (n : ℚ) := by
  unfold toInt?
  split
  · next q =>
    rw [exact.injEq, Option.ite_none_right_eq_some, Option.some.injEq]
    constructor
    · rintro ⟨hden, rfl⟩
      exact ((Rat.den_eq_one_iff q).mp hden).symm
    · rintro rfl
      exact ⟨rfl, rfl⟩
  · next hnot =>
    constructor
    · intro h
      cases h
    · intro h
      exact absurd h (hnot n)

end Quantity

/-! ## 2. Scalars -/

theorem Scalar.toInt?_eq_some_iff {s : Scalar} {n : Int} :
    s.toInt? = some n ↔ s.compare (.int n) = .eq := by
  unfold toInt? compare
  exact Quantity.toInt?_eq_some_iff.trans Quantity.compare_exact_eq_iff.symm

namespace Operand

/-- A scalar of any kind is read as the integer that it is, up to the sixth place. -/
theorem toInt_scalar_eq_ok_iff {s : Scalar} {n : Int} :
    (scalar s).toInt = .ok n ↔ s.toInt? = some n := by
  have hread {m : Int} (hm : s.toInt? = some m) :
      (Except.ok m : Except CastError Int) = .ok n ↔ s.toInt? = some n := by
    rw [hm, Except.ok.injEq, Option.some.injEq]
  cases s with
  | int m => exact hread (Quantity.toInt?_eq_some_iff.mpr rfl)
  | char c => exact hread (Quantity.toInt?_eq_some_iff.mpr rfl)
  | real x =>
    cases hx : (Scalar.real x).toInt? with
    | some m =>
      simp only [toInt, hx]
      rw [Except.ok.injEq, Option.some.injEq]
    | none => simp [toInt, hx]

/-- **A scalar is read as the integer that it is equal to.**  It is refused, with an error of the
type of its operand, exactly if it is equal to no integer.  An array is refused whatever it is equal
to. -/
theorem toInt_agrees_with_order :
    (∀ (s : Scalar) (n : Int),
      (scalar s).toInt = .ok n ↔ (Value.scalar s).compare (.int n) = .eq) ∧
    (∀ s : Scalar,
      (∃ cause, (scalar s).toInt = .error cause ∧ (EvalError.badIndex cause).category = .type) ↔
        ∀ n : Int, (Value.scalar s).compare (.int n) ≠ .eq) ∧
    ∀ (items : List Operand) (n : Int), (array items).toInt ≠ .ok n := by
  have hequal (s : Scalar) (n : Int) :
      (scalar s).toInt = .ok n ↔ (Value.scalar s).compare (.int n) = .eq :=
    toInt_scalar_eq_ok_iff.trans Scalar.toInt?_eq_some_iff
  refine ⟨hequal, ?_, ?_⟩
  · intro s
    constructor
    · rintro ⟨cause, herror, -⟩ n hsame
      rw [← hequal, herror] at hsame
      cases hsame
    · intro hnone
      cases hread : (scalar s).toInt with
      | error cause => exact ⟨cause, rfl, rfl⟩
      | ok n => exact absurd ((hequal s n).mp hread) (hnone n)
  · intro items n h
    cases h

/-- An array whose first scalar is 5 is equal to 5, but is not read as 5. -/
example : (Value.array [.int 5]).compare (.int 5) = .eq ∧
    (ofValue (.array [.int 5])).toInt = .error .array := ⟨by decide, rfl⟩

end Operand

end DiceNotation
