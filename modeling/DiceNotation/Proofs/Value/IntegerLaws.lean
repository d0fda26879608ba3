/-
# Laws of arithmetic on arrays

Pairing up arrays of different lengths is not associative, but laws that only combine each pair by
itself are carried over from scalars to values of any shape: such a law is one of `broadcast`, and
there it comes down to the scalars.  So addition and multiplication of integers are commutative,
subtraction is addition of the negative, and signs can be taken out of sums and products
(`arithmetic_laws`).  The two sides of a law may take different numbers of steps
(`Metered.SameResult`).

Two characters make a character again, or a space, but it does not matter which of them comes first.
-/
import DiceNotation.Proofs.Value.Broadcasting

namespace DiceNotation

/-! ## 1. Scalars -/

namespace Scalar

/-- Whether a scalar is an integer. -/
def IsInt (s : Scalar) : Prop := ∃ n, s = int n

/-- Whether a scalar is an integer or a character. -/
def IsDiscrete (s : Scalar) : Prop := s.IsInt ∨ ∃ c, s = char c

theorem combine_comm {onInts : Int → Int → Int} {onReals : Float → Float → Float}
    (hcomm : ∀ m n, onInts m n = onInts n m) (s t : Scalar) (hs : s.IsDiscrete)
    (ht : t.IsDiscrete) : combine onInts onReals s t = combine onInts onReals t s := by
  rcases hs with ⟨m, rfl⟩ | ⟨c, rfl⟩
  · rcases ht with ⟨n, rfl⟩ | ⟨d, rfl⟩
    · exact congrArg int (hcomm _ _)
    · exact congrArg int (hcomm _ _)
  · rcases ht with ⟨n, rfl⟩ | ⟨d, rfl⟩
    · exact congrArg int (hcomm _ _)
    · exact congrArg (fun code => char (charOfCode code)) (hcomm _ _)

theorem sub_eq_add_neg (s t : Scalar) (hs : s.IsInt) (ht : t.IsInt) : s.sub t = s.add t.neg := by
  obtain ⟨m, rfl⟩ := hs
  obtain ⟨n, rfl⟩ := ht
  exact congrArg int (Int.sub_eq_add_neg)

theorem neg_add (s t : Scalar) (hs : s.IsInt) (ht : t.IsInt) :
    (s.add t).neg = s.neg.add t.neg := by
  obtain ⟨m, rfl⟩ := hs
  obtain ⟨n, rfl⟩ := ht
  exact congrArg int Int.neg_add

theorem neg_mul (s t : Scalar) (hs : s.IsInt) (ht : t.IsInt) : s.neg.mul t = (s.mul t).neg := by
  obtain ⟨m, rfl⟩ := hs
  obtain ⟨n, rfl⟩ := ht
  exact congrArg int (Int.neg_mul m n)

theorem neg_neg (s : Scalar) (hs : s.IsInt) : s.neg.neg = s := by
  obtain ⟨n, rfl⟩ := hs
  exact congrArg int (Int.neg_neg n)

end Scalar

/-! ## 2. Different ways to the same result -/

namespace Metered

variable {α β : Type}

/-- Work that comes to a result after some steps. -/
def Gives (work : Metered α) (a : α) : Prop := ∃ steps, work = paid steps a

/-- Two pieces of work that come to the same result, each after its own number of steps. -/
def SameResult (x y : Metered α) : Prop := ∃ a, x.Gives a ∧ y.Gives a

theorem Gives.pure (a : α) : Gives (Pure.pure a) a := ⟨0, rfl⟩

theorem Gives.bind {x : Metered α} {f : α → Metered β} {a : α} {b : β} (hx : x.Gives a)
    (hf : (f a).Gives b) : (x >>= f).Gives b := by
  obtain ⟨j, rfl⟩ := hx
  obtain ⟨k, hk⟩ := hf
  exact ⟨k + j, paid_bind hk j⟩

end Metered

namespace Value

theorem gives_elementwise (f : Scalar → Scalar → Scalar) (v w : Value) :
    (elementwise f v w).Gives (broadcast f v w) :=
  ⟨_, elementwise_eq_paid f v w⟩

theorem gives_neg (v : Value) : v.neg.Gives (v.map Scalar.neg) := ⟨_, neg_eq_paid v⟩

theorem All.imp {P Q : Scalar → Prop} (h : ∀ s, P s → Q s) {v : Value} (hv : v.All P) :
    v.All Q := by
  induction hv with
  | scalar hs => exact .scalar (h _ hs)
  | array _ ih => exact .array ih

/-! ## 3. The laws -/

/-- An operation that is commutative on the scalars that are there is so on values, in the same
number of steps. -/
theorem elementwise_comm {P : Scalar → Prop} {f : Scalar → Scalar → Scalar}
    (hf : ∀ s t, P s → P t → f s t = f t s) {v w : Value} (hv : v.All P) (hw : w.All P) :
    elementwise f v w = elementwise f w v := by
  have hswap : broadcast f v w = broadcast f w v := by
    rw [broadcast_swap]
    exact broadcast_congr (fun t s ht hs => hf s t hs ht) hw hv
  rw [elementwise_eq_paid, elementwise_eq_paid, hswap]

/-- The negative of the negative is the value itself. -/
theorem neg_neg_sameResult {v : Value} (hv : v.All Scalar.IsInt) :
    Metered.SameResult (do neg (← neg v)) (pure v) := by
  refine ⟨_, (gives_neg v).bind (gives_neg _), ?_⟩
  rw [map_map, map_eq_self Scalar.neg_neg hv]
  exact .pure v

section Integers

variable {v w : Value} (hv : v.All Scalar.IsInt) (hw : w.All Scalar.IsInt)

include hv hw

/-- Subtraction is addition of the negative. -/
theorem sub_sameResult : (sub v w).SameResult (do add v (← neg w)) := by
  refine ⟨_, gives_elementwise Scalar.sub v w, (gives_neg w).bind ?_⟩
  rw [broadcast_congr Scalar.sub_eq_add_neg hv hw, ← broadcast_map_right]
  exact gives_elementwise Scalar.add v _

/-- The negative of a sum is the sum of the negatives. -/
theorem neg_add_sameResult :
    Metered.SameResult (do neg (← add v w)) (do add (← neg v) (← neg w)) := by
  refine ⟨_, (gives_elementwise Scalar.add v w).bind (gives_neg _),
    (gives_neg v).bind ((gives_neg w).bind ?_)⟩
  rw [map_broadcast, broadcast_congr Scalar.neg_add hv hw, ← broadcast_map_right,
    ← broadcast_map_left]
  exact gives_elementwise Scalar.add _ _

/-- The sign of a factor is that of the product. -/
theorem neg_mul_sameResult :
    Metered.SameResult (do mul (← neg v) w) (do neg (← mul v w)) := by
  refine ⟨_, (gives_neg v).bind (gives_elementwise Scalar.mul _ w),
    (gives_elementwise Scalar.mul v w).bind ?_⟩
  rw [broadcast_map_left, broadcast_congr Scalar.neg_mul hv hw, ← map_broadcast]
  exact gives_neg _

end Integers

/-- **Arithmetic of integers keeps its laws on arrays** of any shapes: addition and multiplication
are commutative, and signs obey the rules that they obey for integers.  Addition and multiplication
are commutative also where there are characters among the integers. -/
theorem arithmetic_laws :
    (∀ v w : Value, v.All Scalar.IsInt → w.All Scalar.IsInt →
      add v w = add w v ∧ mul v w = mul w v ∧
      (sub v w).SameResult (do add v (← neg w)) ∧
      Metered.SameResult (do neg (← add v w)) (do add (← neg v) (← neg w)) ∧
      Metered.SameResult (do mul (← neg v) w) (do neg (← mul v w)) ∧
      Metered.SameResult (do neg (← neg v)) (pure v)) ∧
    ∀ v w : Value, v.All Scalar.IsDiscrete → w.All Scalar.IsDiscrete →
      add v w = add w v ∧ mul v w = mul w v := by
  have hcomm : ∀ v w : Value, v.All Scalar.IsDiscrete → w.All Scalar.IsDiscrete →
      add v w = add w v ∧ mul v w = mul w v := by
    intro v w hv hw
    exact ⟨elementwise_comm (Scalar.combine_comm Int.add_comm) hv hw,
      elementwise_comm (Scalar.combine_comm Int.mul_comm) hv hw⟩
  refine ⟨fun v w hv hw => ?_, hcomm⟩
  obtain ⟨hadd, hmul⟩ := hcomm v w (hv.imp fun _ => .inl) (hw.imp fun _ => .inl)
  exact ⟨hadd, hmul, sub_sameResult hv hw, neg_add_sameResult hv hw, neg_mul_sameResult hv hw,
    neg_neg_sameResult hv⟩

/-- Arrays of different lengths and depths, one of them empty; and characters, of which one product
is beyond the last code point. -/
theorem arithmetic_laws_uneven :
    let v : Value := .array [.int 1, .array [.int 2, .int (-3), .int 4], .array []]
    let w : Value := .array [.array [.int 5, .int 6], .int 7]
    let x : Value := .array [.char '\uffff', .int 2]
    let y : Value := .array [.char 'b', .char 'c', .int 3]
    v.All Scalar.IsInt ∧ w.All Scalar.IsInt ∧ x.All Scalar.IsDiscrete ∧ y.All Scalar.IsDiscrete ∧
      add v w = add w v ∧ (sub v w).SameResult (do add v (← neg w)) ∧ mul x y = mul y x ∧
      mul y x {} = .ok (.array [.char ' ', .int 198, .int 196605]) { steps := 3 } := by
  intro v w x y
  have hint (n : Int) : (Value.int n).All Scalar.IsInt := .scalar ⟨n, rfl⟩
  have hnumber (n : Int) : (Value.int n).All Scalar.IsDiscrete := .scalar (.inl ⟨n, rfl⟩)
  have hchar (c : Char) : (Value.char c).All Scalar.IsDiscrete := .scalar (.inr ⟨c, rfl⟩)
  have hmiddle : (Value.array [.int 2, .int (-3), .int 4]).All Scalar.IsInt :=
    .array (by simp [hint])
  have hempty : (Value.array []).All Scalar.IsInt := .array (by simp)
  have hpair : (Value.array [.int 5, .int 6]).All Scalar.IsInt := .array (by simp [hint])
  have hv : v.All Scalar.IsInt := .array (by simp [hint, hmiddle, hempty])
  have hw : w.All Scalar.IsInt := .array (by simp [hint, hpair])
  have hx : x.All Scalar.IsDiscrete := .array (by simp [hchar, hnumber])
  have hy : y.All Scalar.IsDiscrete := .array (by simp [hchar, hnumber])
  obtain ⟨hadd, -, hsub, -⟩ := arithmetic_laws.1 v w hv hw
  exact ⟨hv, hw, hx, hy, hadd, hsub, (arithmetic_laws.2 x y hx hy).2, rfl⟩

end Value

end DiceNotation
