/-
# The order of values of one depth

Values of one depth are ordered consistently: scalars among each other, and arrays of any lengths
whose elements are of one depth, and so on (`Value.HasDepth`).  On them `Value.compare` is a total
preorder (`Value.compare_totalPreorder`).

Scalars compare as the exact numbers that they stand for, and these are rational numbers or
infinities; what is not a number comes before all of them (`Scalar.compare_eq`).  For arrays, the
order is that of the lengths, and then lexicographic in an order that is consistent by induction on
the depth (`Value.transCmp_hasDepth`).
-/
import DiceNotation.Proofs.Decimal.NotANumber
import DiceNotation.Value.Order

namespace DiceNotation

/-! ## 1. Exact numbers -/

/-- The exact number with some parts.  The infinities are below and above all numbers; there is no
use of it for what is not a number. -/
def FloatParts.exact : FloatParts → WithBot (WithTop ℚ)
  | nan => ⊥
  | infinite negative => if negative then ⊥ else ⊤
  | finite negative mantissa exponent =>
    let size : ℚ := mantissa * 2 ^ exponent
    ((if negative then -size else size : ℚ) : WithTop ℚ)

/-- The exact number that a scalar stands for: an integer for itself, a character for its code
point, and a floating point number for what it is when it is rounded to six places. -/
def Scalar.exact : Scalar → WithBot (WithTop ℚ)
  | int n => ((n : ℚ) : WithTop ℚ)
  | real x => (FloatParts.ofFloat (roundPlaces x)).exact
  | char c => ((c.toNat : ℚ) : WithTop ℚ)

/-- The exact number that a quantity is. -/
def Quantity.number : Quantity → WithBot (WithTop ℚ)
  | nan => ⊥
  | bottom => ⊥
  | exact q => (q : WithTop ℚ)
  | top => ⊤

/-- Rational numbers compare as they do among the infinities. -/
theorem Quantity.compareRat_eq (q r : ℚ) :
    compareRat q r = Ord.compare (exact q).number (exact r).number := by
  have hlt {q r : ℚ} (h : q < r) : (exact q).number < (exact r).number :=
    WithBot.coe_lt_coe.mpr (WithTop.coe_lt_coe.mpr h)
  rw [compareRat]
  split_ifs with hless hgreater
  · exact (compare_lt_iff_lt.mpr (hlt hless)).symm
  · exact (compare_gt_iff_gt.mpr (hlt hgreater)).symm
  · obtain rfl : q = r := le_antisymm (not_lt.mp hgreater) (not_lt.mp hless)
    exact (compare_eq_iff_eq.mpr rfl).symm

/-- Quantities that are numbers compare as numbers. -/
theorem Quantity.compare_eq_compare_number {a b : Quantity} (ha : a ≠ nan) (hb : b ≠ nan) :
    a.compare b = Ord.compare a.number b.number := by
  have hbottom (q : ℚ) : bottom.number < (exact q).number := WithBot.bot_lt_coe _
  have htop (q : ℚ) : (exact q).number < top.number :=
    WithBot.coe_lt_coe.mpr (WithTop.coe_lt_top q)
  cases a with
  | nan => exact absurd rfl ha
  | bottom =>
    cases b with
    | nan => exact absurd rfl hb
    | bottom => exact (compare_eq_iff_eq.mpr rfl).symm
    | exact r => exact (compare_lt_iff_lt.mpr (hbottom r)).symm
    | top => exact (compare_lt_iff_lt.mpr bot_lt_top).symm
  | exact q =>
    cases b with
    | nan => exact absurd rfl hb
    | bottom => exact (compare_gt_iff_gt.mpr (hbottom q)).symm
    | exact r => exact compareRat_eq q r
    | top => exact (compare_lt_iff_lt.mpr (htop q)).symm
  | top =>
    cases b with
    | nan => exact absurd rfl hb
    | bottom => exact (compare_gt_iff_gt.mpr bot_lt_top).symm
    | exact r => exact (compare_gt_iff_gt.mpr (htop r)).symm
    | top => exact (compare_eq_iff_eq.mpr rfl).symm

/-- What is not a number is less than every number. -/
theorem Quantity.compare_nan {a : Quantity} (ha : a ≠ nan) :
    nan.compare a = .lt ∧ a.compare nan = .gt := by
  cases a with
  | nan => exact absurd rfl ha
  | _ => exact ⟨rfl, rfl⟩

/-! ## 2. Scalars -/

namespace Scalar

theorem number_quantity (s : Scalar) : s.quantity.number = s.exact := by
  cases s with
  | int n => rfl
  | char c => rfl
  | real x =>
    rw [quantity, exact, Quantity.ofFloat]
    cases FloatParts.ofFloat (roundPlaces x) with
    | nan => rfl
    | infinite negative => cases negative <;> rfl
    | finite negative mantissa exponent => cases negative <;> rfl

/-- A scalar counts as no number exactly when it is none: rounding makes no difference to that. -/
theorem quantity_eq_nan_iff (s : Scalar) : s.quantity = .nan ↔ s.isNaN = true := by
  cases s with
  | int n => simp [quantity, isNaN]
  | char c => simp [quantity, isNaN]
  | real x =>
    have hround := isNaN_roundPlaces x
    rw [quantity, isNaN, Quantity.ofFloat, ← hround, ← FloatParts.ofFloat_eq_nan_iff]
    cases FloatParts.ofFloat (roundPlaces x) with
    | nan => simp
    | infinite negative => cases negative <;> simp
    | finite negative mantissa exponent => simp

theorem compare_of_isNaN {s t : Scalar} (hs : s.isNaN = true) (ht : t.isNaN = true) :
    s.compare t = .eq := by
  rw [compare, s.quantity_eq_nan_iff.mpr hs, t.quantity_eq_nan_iff.mpr ht]
  rfl

theorem quantity_ne_nan {s : Scalar} (h : s.isNaN = false) : s.quantity ≠ .nan := by
  rw [Ne, quantity_eq_nan_iff, h]
  exact Bool.false_ne_true

/-- What is not a number is less than every number, also than an infinity. -/
theorem compare_of_isNaN_left {s t : Scalar} (hs : s.isNaN = true) (ht : t.isNaN = false) :
    s.compare t = .lt ∧ t.compare s = .gt := by
  rw [compare, compare, s.quantity_eq_nan_iff.mpr hs]
  exact Quantity.compare_nan (quantity_ne_nan ht)

/-- **Numbers compare as the exact numbers that they stand for.** -/
theorem compare_eq_compare_exact {s t : Scalar} (hs : s.isNaN = false) (ht : t.isNaN = false) :
    s.compare t = Ord.compare s.exact t.exact := by
  rw [compare, Quantity.compare_eq_compare_number (quantity_ne_nan hs) (quantity_ne_nan ht),
    number_quantity, number_quantity]

/-- The place of a scalar in the order: its number, or a place below all numbers for what is not a
number. -/
def place (s : Scalar) : WithBot (WithBot (WithTop ℚ)) :=
  if s.isNaN then ⊥ else s.exact

theorem compare_eq_compare_place (s t : Scalar) : s.compare t = Ord.compare s.place t.place := by
  have hcoe {q r : WithBot (WithTop ℚ)} :
      Ord.compare (q : WithBot (WithBot (WithTop ℚ))) r = Ord.compare q r := by
    rw [← cmp_eq_compare, ← cmp_eq_compare]
    exact WithBot.coe_strictMono.cmp_map_eq q r
  rw [place, place]
  cases hs : s.isNaN <;> cases ht : t.isNaN
  · exact (compare_eq_compare_exact hs ht).trans hcoe.symm
  · rw [(compare_of_isNaN_left ht hs).2]
    exact (compare_gt_iff_gt.mpr (WithBot.bot_lt_coe _)).symm
  · rw [(compare_of_isNaN_left hs ht).1]
    exact (compare_lt_iff_lt.mpr (WithBot.bot_lt_coe _)).symm
  · rw [compare_of_isNaN hs ht]
    exact (compare_eq_iff_eq.mpr rfl).symm

end Scalar

/-! ## 3. Pulling back an order -/

/-- Comparing by a key is consistent if the keys are compared consistently. -/
theorem transCmp_of_key {α β : Type} {cmp : α → α → Ordering} (cmp' : β → β → Ordering)
    [Std.TransCmp cmp'] (key : α → β) (h : ∀ a b, cmp a b = cmp' (key a) (key b)) :
    Std.TransCmp cmp where
  eq_swap {a b} := by
    rw [h, h]
    exact Std.OrientedCmp.eq_swap
  isLE_trans {a b c} hab hbc := by
    rw [h] at hab hbc ⊢
    exact Std.TransCmp.isLE_trans hab hbc

instance : Std.TransCmp Scalar.compare :=
  transCmp_of_key Ord.compare Scalar.place Scalar.compare_eq_compare_place

namespace Value

/-! ## 4. Values of one depth -/

/-- A scalar has depth 0, and an array whose elements have some depth has the next one, also if it
has no elements. -/
inductive HasDepth : Nat → Value → Prop
  | scalar (s : Scalar) : HasDepth 0 (scalar s)
  | array {n : Nat} {items : List Value} (h : ∀ v ∈ items, HasDepth n v) :
      HasDepth (n + 1) (array items)

/-- Lists of one length compare lexicographically. -/
theorem compareItems_eq_compareLex {vs ws : List Value} (h : vs.length = ws.length) :
    compareItems vs ws = List.compareLex compare vs ws := by
  induction vs generalizing ws with
  | nil =>
    obtain rfl : ws = [] := List.eq_nil_of_length_eq_zero h.symm
    rfl
  | cons v vs ih =>
    cases ws with
    | nil => cases h
    | cons w ws =>
      rw [compareItems, List.compareLex_cons_cons, ih (Nat.succ.inj h)]

theorem compareLex_val {P : Value → Prop} (vs ws : List {v // P v}) :
    List.compareLex compare (vs.map Subtype.val) (ws.map Subtype.val) =
      List.compareLex (fun v w => v.1.compare w.1) vs ws := by
  induction vs generalizing ws with
  | nil => cases ws <;> rfl
  | cons v vs ih =>
    cases ws with
    | nil => rfl
    | cons w ws =>
      simp only [List.map_cons, List.compareLex_cons_cons, ih]

/-- Arrays compare by their lengths first, and then lexicographically. -/
theorem compare_array {P : Value → Prop} (vs ws : List {v // P v}) :
    (array (vs.map Subtype.val)).compare (array (ws.map Subtype.val)) =
      compareLex (compareOn List.length) (List.compareLex fun v w => v.1.compare w.1) vs ws := by
  rw [compare, compareLex, compareOn, List.length_map, List.length_map, ← compareLex_val]
  by_cases h : vs.length = ws.length
  · rw [compareItems_eq_compareLex (by simpa using h)]
  · cases hlength : Ord.compare vs.length ws.length with
    | lt => rfl
    | gt => rfl
    | eq => exact absurd (Nat.compare_eq_eq.mp hlength) h

theorem HasDepth.exists_scalar {v : Value} (h : HasDepth 0 v) : ∃ s, v = Value.scalar s := by
  cases h with
  | scalar s => exact ⟨s, rfl⟩

theorem HasDepth.exists_items {n : Nat} {v : Value} (h : HasDepth (n + 1) v) :
    ∃ items : List {v // HasDepth n v}, v = Value.array (items.map Subtype.val) := by
  cases h with
  | array h => exact ⟨_, congrArg Value.array (List.attachWith_map_subtype_val h).symm⟩

/-- **The order of values of one depth is consistent**, by induction on the depth. -/
theorem transCmp_hasDepth :
    (n : Nat) → Std.TransCmp fun v w : {v // HasDepth n v} => v.1.compare w.1
  | 0 => by
    have hscalar (v : {v // HasDepth 0 v}) : ∃ s, v.1 = scalar s := v.2.exists_scalar
    choose key hkey using hscalar
    refine transCmp_of_key Scalar.compare key fun v w => ?_
    rw [hkey v, hkey w]
    rfl
  | n + 1 => by
    have ih := transCmp_hasDepth n
    have hitems (v : {v // HasDepth (n + 1) v}) :
        ∃ items : List {v // HasDepth n v}, v.1 = array (items.map Subtype.val) :=
      v.2.exists_items
    choose key hkey using hitems
    let lexicographic := compareLex (compareOn List.length)
      (List.compareLex fun v w : {v // HasDepth n v} => v.1.compare w.1)
    refine transCmp_of_key lexicographic key fun v w => ?_
    rw [hkey v, hkey w]
    exact compare_array (key v) (key w)

/-- **The order of values is a total preorder on the values of each depth**: it is reflexive, turns
round with its operands, is transitive, and values that compare as equal compare alike with all
others.  Of two scalars, what is not a number is equal to itself and less than every number, and
numbers compare as the exact numbers that they stand for. -/
theorem compare_totalPreorder :
    (∀ (n : Nat) (a b c : Value), a.HasDepth n → b.HasDepth n → c.HasDepth n →
      a.compare a = .eq ∧ a.compare b = (b.compare a).swap ∧
      ((a.compare b).isLE → (b.compare c).isLE → (a.compare c).isLE) ∧
      (a.compare b = .eq → a.compare c = b.compare c)) ∧
    ∀ s t : Scalar,
      (s.isNaN = true → t.isNaN = true → (scalar s).compare (scalar t) = .eq) ∧
      (s.isNaN = true → t.isNaN = false → (scalar s).compare (scalar t) = .lt) ∧
      (s.isNaN = false → t.isNaN = false →
        (scalar s).compare (scalar t) = Ord.compare s.exact t.exact) := by
  refine ⟨fun n a b c ha hb hc => ?_, fun s t => ?_⟩
  · let cmp : {v // HasDepth n v} → {v // HasDepth n v} → Ordering := fun v w => v.1.compare w.1
    have order : Std.TransCmp cmp := transCmp_hasDepth n
    have hrefl : cmp ⟨a, ha⟩ ⟨a, ha⟩ = .eq := Std.ReflCmp.compare_self
    have hswap : cmp ⟨a, ha⟩ ⟨b, hb⟩ = (cmp ⟨b, hb⟩ ⟨a, ha⟩).swap := Std.OrientedCmp.eq_swap
    have htrans : (cmp ⟨a, ha⟩ ⟨b, hb⟩).isLE → (cmp ⟨b, hb⟩ ⟨c, hc⟩).isLE →
        (cmp ⟨a, ha⟩ ⟨c, hc⟩).isLE := Std.TransCmp.isLE_trans
    have hcongr : cmp ⟨a, ha⟩ ⟨b, hb⟩ = .eq →
        cmp ⟨a, ha⟩ ⟨c, hc⟩ = cmp ⟨b, hb⟩ ⟨c, hc⟩ := Std.TransCmp.congr_left
    exact ⟨hrefl, hswap, htrans, hcongr⟩
  · exact ⟨Scalar.compare_of_isNaN, fun hs ht => (Scalar.compare_of_isNaN_left hs ht).1,
      Scalar.compare_eq_compare_exact⟩

/-- Three arrays of scalars, two of them equal up to the sixth place. -/
theorem compare_totalPreorder_equal_arrays :
    let a : Value := .array [.int 1, .char 'b']
    let b : Value := .array [.int 1, .real 98.0000001]
    let c : Value := .array [.real (0 / 0), .int 98]
    a.HasDepth 1 ∧ b.HasDepth 1 ∧ c.HasDepth 1 ∧ a.compare b = .eq ∧
      a.compare c = b.compare c ∧ (Scalar.real (0 / 0)).isNaN = true ∧
      (Scalar.real (1 / 0)).isNaN = false ∧ (real (0 / 0)).compare (real (1 / 0)) = .lt := by
  intro a b c
  have hscalars (x y : Scalar) : (Value.array [.scalar x, .scalar y]).HasDepth 1 := by
    refine .array fun v hv => ?_
    rcases List.mem_pair.mp hv with rfl | rfl
    · exact .scalar x
    · exact .scalar y
  have ha : a.HasDepth 1 := hscalars _ _
  have hb : b.HasDepth 1 := hscalars _ _
  have hc : c.HasDepth 1 := hscalars _ _
  have hab : a.compare b = .eq := by decide +kernel
  have hnan : (Scalar.real (0 / 0)).isNaN = true := by decide +kernel
  have htop : (Scalar.real (1 / 0)).isNaN = false := by decide +kernel
  obtain ⟨-, -, -, hcongr⟩ := compare_totalPreorder.1 1 a b c ha hb hc
  exact ⟨ha, hb, hc, hab, hcongr hab, hnan, htop, (compare_totalPreorder.2 _ _).2.1 hnan htop⟩

end Value

end DiceNotation
