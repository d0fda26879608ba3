/-
# Where pools come from

The pools that occur in an operand, at any depth (`Operand.pools`), and what the actions of
evaluation do to them.  A value holds none, so that an operand that has been forced has no more than
before.  Only a dice term makes a pool, and only a keep or an explosion changes one; every other
action hands on pools that its operands had.
-/
import DiceNotation.Proofs.Effects
import DiceNotation.Proofs.Evaluation.Forcing

namespace DiceNotation

/-! ## 1. The pools of an operand -/

namespace Operand

mutual

/-- The pools that occur in an operand, from left to right. -/
def pools : Operand → List Pool
  | scalar _ => []
  | array items => poolsOf items
  | place _ => []
  | pool p => [p]

/-- The pools that occur in some operands, from left to right. -/
def poolsOf : List Operand → List Pool
  | [] => []
  | x :: xs => pools x ++ poolsOf xs

end

@[simp] theorem pools_scalar (s : Scalar) : (scalar s).pools = [] := rfl

@[simp] theorem pools_array (items : List Operand) : (array items).pools = poolsOf items := rfl

@[simp] theorem pools_place (p : Place) : (place p).pools = [] := rfl

@[simp] theorem pools_pool (p : Pool) : (pool p).pools = [p] := rfl

@[simp] theorem poolsOf_nil : poolsOf [] = [] := rfl

@[simp] theorem poolsOf_cons (x : Operand) (xs : List Operand) :
    poolsOf (x :: xs) = x.pools ++ poolsOf xs := rfl

@[simp] theorem poolsOf_append (xs ys : List Operand) :
    poolsOf (xs ++ ys) = poolsOf xs ++ poolsOf ys := by
  induction xs with
  | nil => rfl
  | cons x xs ih => rw [List.cons_append, poolsOf_cons, poolsOf_cons, ih, List.append_assoc]

theorem mem_poolsOf {p : Pool} {xs : List Operand} : p ∈ poolsOf xs ↔ ∃ x ∈ xs, p ∈ x.pools := by
  induction xs with
  | nil => simp
  | cons x xs ih => simp [ih]

mutual

/-- There is no pool in a value. -/
theorem pools_ofValue : (v : Value) → (ofValue v).pools = []
  | .scalar _ => rfl
  | .array items => poolsOf_ofValues items

theorem poolsOf_ofValues : (vs : List Value) → poolsOf (ofValues vs) = []
  | [] => rfl
  | v :: vs => by rw [ofValues, poolsOf_cons, pools_ofValue v, poolsOf_ofValues vs]; rfl

end

theorem poolsOf_scalars (ss : List Scalar) : poolsOf (ss.map scalar) = [] := by
  rw [map_scalar_eq_ofValues, poolsOf_ofValues]

end Operand

/-! ## 2. Work that ends well -/

section Outcomes

variable {α : Type} {s s' : Session} {x y : Operand}

theorem fail_ne_ok {e : EvalError} {a : α} : (fail e : Evaluating α) s ≠ .ok a s' := nofun

/-- An operand is forced to itself or to a value. -/
theorem force_eq_ok (h : x.force s = .ok y s') : y = x ∨ ∃ v, y = .ofValue v := by
  rw [Operand.force_eq] at h
  split at h
  · exact .inl (pure_eq_ok_iff.mp h).1.symm
  · obtain ⟨v, -, rfl⟩ := map_eq_ok_iff.mp h
    exact .inr ⟨v, rfl⟩

/-- Forcing an operand makes no pool. -/
theorem mem_pools_of_force (h : x.force s = .ok y s') {p : Pool} (hp : p ∈ y.pools) :
    p ∈ x.pools := by
  rcases force_eq_ok h with rfl | ⟨v, rfl⟩
  · exact hp
  · rw [Operand.pools_ofValue] at hp
    exact absurd hp List.not_mem_nil

theorem length_of_forceAllOnto {items : List Operand} {done vs : List Value}
    (h : Operand.forceAllOnto done items s = .ok vs s') :
    vs.length = done.length + items.length := by
  induction items generalizing done s with
  | nil =>
    obtain ⟨rfl, -⟩ := pure_eq_ok_iff.mp h
    simp
  | cons x items ih =>
    rw [Operand.forceAllOnto] at h
    obtain ⟨v, s₁, -, h⟩ := bind_eq_ok_iff.mp h
    rw [ih h, List.length_cons, List.length_cons]
    omega

end Outcomes

/-! ## 3. The pools of what an action gives -/

namespace Meaning

variable {s s' : Session} {x : Operand}

theorem pools_literal {t : Token} (h : literal t s = .ok x s') : x.pools = [] := by
  cases t with
  | number n => rw [← (pure_eq_ok_iff.mp h).1]; rfl
  | word name => rw [← (pure_eq_ok_iff.mp h).1]; rfl
  | char c => rw [← (pure_eq_ok_iff.mp h).1]; rfl
  | string content =>
    rw [← (pure_eq_ok_iff.mp h).1, Operand.pools_array]
    exact Operand.poolsOf_scalars (content.toList.map .char) ▸ by rw [List.map_map]; rfl
  | op o => exact absurd h fail_ne_ok
  | malformed piece => exact absurd h fail_ne_ok
  | stray c => exact absurd h fail_ne_ok
  | endOfInput => exact absurd h fail_ne_ok

theorem poolsOf_elements (x : Operand) : Operand.poolsOf (elements x) = x.pools := by
  cases x <;> simp [elements]

theorem mem_pools_assign {left right : Operand} (h : assign left right s = .ok x s') {p : Pool}
    (hp : p ∈ x.pools) : p ∈ left.pools := by
  cases left with
  | place q =>
    obtain ⟨v, s₁, -, h⟩ := bind_eq_ok_iff.mp h
    obtain ⟨_, s₂, -, h⟩ := bind_eq_ok_iff.mp h
    obtain ⟨rfl, -⟩ := pure_eq_ok_iff.mp h
    exact hp
  | scalar c => exact absurd h fail_ne_ok
  | array items => exact absurd h fail_ne_ok
  | pool q => exact absurd h fail_ne_ok

theorem mem_pools_binary {left right : Operand} {o : Op} (h : binary left right o s = .ok x s')
    {p : Pool} (hp : p ∈ x.pools) : p ∈ left.pools ∨ p ∈ right.pools := by
  cases ho : o.arithmetic? with
  | some operation =>
    simp only [binary, ho] at h
    obtain ⟨v, s₁, -, h⟩ := bind_eq_ok_iff.mp h
    obtain ⟨w, s₂, -, h⟩ := bind_eq_ok_iff.mp h
    obtain ⟨u, s₃, -, h⟩ := bind_eq_ok_iff.mp h
    obtain ⟨rfl, -⟩ := pure_eq_ok_iff.mp h
    rw [Operand.pools_ofValue] at hp
    exact absurd hp List.not_mem_nil
  | none =>
    cases o with
    | comma =>
      obtain ⟨y, s₁, hleft, h⟩ := bind_eq_ok_iff.mp h
      obtain ⟨z, s₂, hright, h⟩ := bind_eq_ok_iff.mp h
      obtain ⟨rfl, -⟩ := pure_eq_ok_iff.mp h
      rw [Operand.pools_array, Operand.poolsOf_append, poolsOf_elements, poolsOf_elements,
        List.mem_append] at hp
      exact hp.imp (mem_pools_of_force hleft) (mem_pools_of_force hright)
    | semicolon =>
      obtain ⟨rfl, -⟩ := pure_eq_ok_iff.mp h
      exact .inr hp
    | assign => exact .inl (mem_pools_assign h hp)
    | _ => first | exact absurd h fail_ne_ok | cases ho

theorem mem_pools_unary {inner : Operand} {o : Op} (h : unary inner o s = .ok x s') {p : Pool}
    (hp : p ∈ x.pools) : p ∈ inner.pools := by
  cases o with
  | plus =>
    obtain ⟨rfl, -⟩ := pure_eq_ok_iff.mp h
    exact hp
  | minus =>
    obtain ⟨v, s₁, -, h⟩ := bind_eq_ok_iff.mp h
    obtain ⟨w, s₂, -, h⟩ := bind_eq_ok_iff.mp h
    obtain ⟨rfl, -⟩ := pure_eq_ok_iff.mp h
    rw [Operand.pools_ofValue] at hp
    exact absurd hp List.not_mem_nil
  | comma =>
    obtain ⟨rfl, -⟩ := pure_eq_ok_iff.mp h
    simpa using hp
  | hash =>
    obtain ⟨y, s₁, -, h⟩ := bind_eq_ok_iff.mp h
    cases y with
    | array items =>
      obtain ⟨rfl, -⟩ := pure_eq_ok_iff.mp h
      exact absurd hp List.not_mem_nil
    | _ => exact absurd h fail_ne_ok
  | _ => exact absurd h fail_ne_ok

/-- What is no pool has no factorial either. -/
theorem suffix_bang_ne_ok {inner : Operand} (hinner : ∀ p, inner ≠ .pool p) :
    suffix inner .bang s ≠ .ok x s' := by
  intro h
  rw [suffix_bang_of_ne_pool hinner] at h
  obtain ⟨y, s₁, -, h⟩ := bind_eq_ok_iff.mp h
  obtain ⟨e, -, -, he⟩ := exists_factorialOf_eq y
  rw [he] at h
  exact fail_ne_ok h

/-- The operator `!` adds a trigger to a pool, and an operator `%` gives a value. -/
theorem suffix_pools {inner : Operand} {o : Op} (h : suffix inner o s = .ok x s') :
    x.pools = [] ∨ ∃ p, inner = .pool p ∧ x = .pool p.explodeOnGreatest := by
  cases o with
  | percent =>
    obtain ⟨v, s₁, -, h⟩ := bind_eq_ok_iff.mp h
    obtain ⟨w, s₂, -, h⟩ := bind_eq_ok_iff.mp h
    obtain ⟨rfl, -⟩ := pure_eq_ok_iff.mp h
    exact .inl (Operand.pools_ofValue w)
  | bang =>
    by_cases hinner : ∃ p, inner = .pool p
    · obtain ⟨p, rfl⟩ := hinner
      obtain ⟨rfl, -⟩ := pure_eq_ok_iff.mp h
      exact .inr ⟨p, rfl, rfl⟩
    · exact absurd h (suffix_bang_ne_ok fun p hp => hinner ⟨p, hp⟩)
  | _ => exact absurd h fail_ne_ok

theorem count_eq_ok {what : Counted} {n : Nat} (h : count x what s = .ok n s') :
    n ≤ countLimit := by
  cases hx : x.toInt with
  | error cause =>
    rw [count, hx] at h
    exact absurd h fail_ne_ok
  | ok m =>
    simp only [count, hx] at h
    split at h
    · exact absurd h fail_ne_ok
    · split at h
      · exact absurd h fail_ne_ok
      · obtain ⟨rfl, -⟩ := pure_eq_ok_iff.mp h
        omega

theorem size_of_numbered (n : Nat) : (numbered n).size = n := by
  simp [numbered]

theorem size_of_sidesOf {faces : Array Value} (h : sidesOf x s = .ok faces s') :
    faces.size ≤ countLimit := by
  have hcounted : ∀ {y : Operand}, (do return numbered (← count y .sides) : Evaluating _) s =
      .ok faces s' → faces.size ≤ countLimit := by
    intro y h
    obtain ⟨n, s₁, hn, h⟩ := bind_eq_ok_iff.mp h
    obtain ⟨rfl, -⟩ := pure_eq_ok_iff.mp h
    rw [size_of_numbered]
    exact count_eq_ok hn
  cases x with
  | scalar c => exact hcounted h
  | place p => exact hcounted h
  | pool p => exact hcounted h
  | array items =>
    simp only [sidesOf] at h
    split at h
    · exact absurd h fail_ne_ok
    · obtain ⟨vs, s₁, hvs, h⟩ := bind_eq_ok_iff.mp h
      obtain ⟨rfl, -⟩ := pure_eq_ok_iff.mp h
      have hlength := length_of_forceAllOnto hvs
      rw [List.size_toArray]
      simp only [List.length_nil] at hlength
      omega

/-- A dice term makes a pool of which every die counts. -/
theorem dice_eq_ok {num : Option Operand} {sides : Operand} (h : dice num sides s = .ok x s') :
    ∃ (n : Nat) (faces : Array Value), x = .pool (.ofSides n faces) ∧ n ≤ countLimit ∧
      faces.size ≤ countLimit := by
  have hrest : ∀ {n : Nat} {s₁ : Session}, n ≤ countLimit →
      (do return .pool (.ofSides n (← sidesOf (← sides.force))) : Evaluating Operand) s₁ =
        .ok x s' →
      ∃ (n : Nat) (faces : Array Value), x = .pool (.ofSides n faces) ∧ n ≤ countLimit ∧
        faces.size ≤ countLimit := by
    intro n s₁ hn h
    obtain ⟨y, s₂, -, h⟩ := bind_eq_ok_iff.mp h
    obtain ⟨faces, s₃, hfaces, h⟩ := bind_eq_ok_iff.mp h
    obtain ⟨rfl, -⟩ := pure_eq_ok_iff.mp h
    exact ⟨n, faces, rfl, hn, size_of_sidesOf hfaces⟩
  cases num with
  | none => exact hrest (show 1 ≤ countLimit by decide) h
  | some z =>
    obtain ⟨w, s₁, -, h⟩ := bind_eq_ok_iff.mp h
    obtain ⟨n, s₂, hn, h⟩ := bind_eq_ok_iff.mp h
    exact hrest (count_eq_ok hn) h

theorem amount_nonneg {k : Keep} {n : Int} (h : amount k x s = .ok n s') : 0 ≤ n := by
  obtain ⟨y, s₁, -, h⟩ := bind_eq_ok_iff.mp h
  cases hy : y.toInt with
  | error cause =>
    simp only [hy] at h
    exact absurd h fail_ne_ok
  | ok m =>
    simp only [hy] at h
    split at h
    · exact absurd h fail_ne_ok
    · next hm =>
      obtain ⟨rfl, -⟩ := pure_eq_ok_iff.mp h
      exact Int.not_lt.mp hm

theorem pools_of_keepItems {items kept : List Operand} {n : Int} {k : Keep} {operation : String}
    (h : keepItems items n k operation s = .ok kept s') : Operand.poolsOf kept = [] := by
  obtain ⟨scalars, s₁, -, h⟩ := bind_eq_ok_iff.mp h
  obtain ⟨rfl, -⟩ := pure_eq_ok_iff.mp h
  exact Operand.poolsOf_scalars _

/-- A keep of what is no pool gives an array of scalars. -/
theorem pools_keep_of_ne_pool {k : Keep} {target howMany : Operand}
    (htarget : ∀ p, target ≠ .pool p) (h : keep k target howMany s = .ok x s') : x.pools = [] := by
  rw [keep_of_ne_pool htarget] at h
  obtain ⟨n, s₁, -, h⟩ := bind_eq_ok_iff.mp h
  obtain ⟨y, s₂, -, h⟩ := bind_eq_ok_iff.mp h
  cases y with
  | array items =>
    obtain ⟨kept, s₃, hkept, h⟩ := bind_eq_ok_iff.mp h
    obtain ⟨rfl, -⟩ := pure_eq_ok_iff.mp h
    exact pools_of_keepItems hkept
  | _ => exact absurd h fail_ne_ok

/-- On a pool, a keep does what its amount says, and nothing else. -/
theorem keep_pool_eq_ok {k : Keep} {p : Pool} {howMany : Operand}
    (h : keep k (.pool p) howMany s = .ok x s') :
    ∃ n : Nat, amount k howMany s = .ok n s' ∧ x = .pool (p.keep k n) := by
  obtain ⟨n, s₁, hn, h⟩ := bind_eq_ok_iff.mp h
  obtain ⟨rfl, rfl⟩ := pure_eq_ok_iff.mp h
  obtain ⟨m, rfl⟩ := Int.eq_ofNat_of_zero_le (amount_nonneg hn)
  exact ⟨m, hn, rfl⟩

/-- An explosion adds triggers to a pool and is defined on nothing else. -/
theorem explode_eq_ok {target faces : Operand} (h : explode target faces s = .ok x s') :
    ∃ p v, target = .pool p ∧ faces.forceAll s = .ok v s' ∧
      x = .pool (p.explodeOn (triggersOf v)) := by
  by_cases hpool : ∃ p, target = .pool p
  · obtain ⟨p, rfl⟩ := hpool
    obtain ⟨v, s₁, hv, h⟩ := bind_eq_ok_iff.mp h
    obtain ⟨rfl, rfl⟩ := pure_eq_ok_iff.mp h
    exact ⟨p, v, rfl, hv, rfl⟩
  · rw [explode_of_ne_pool fun p hp => hpool ⟨p, hp⟩] at h
    obtain ⟨y, s₁, -, h⟩ := bind_eq_ok_iff.mp h
    exact absurd h fail_ne_ok

theorem mem_of_elementAt? {α : Type} {xs : List α} {i : Int} {a : α}
    (h : elementAt? xs i = some a) : a ∈ xs := by
  unfold elementAt? at h
  split at h
  · cases h
  · exact List.mem_of_getElem? h

/-- What stands at an index has been in the array. -/
theorem mem_pools_elementOf {i : Int} {y : Operand} (h : elementOf i y s = .ok x s') {p : Pool}
    (hp : p ∈ x.pools) : p ∈ y.pools := by
  cases y with
  | array items =>
    cases hi : elementAt? items i with
    | none =>
      simp only [elementOf, hi] at h
      exact absurd h fail_ne_ok
    | some z =>
      simp only [elementOf, hi] at h
      obtain ⟨rfl, -⟩ := pure_eq_ok_iff.mp h
      exact Operand.mem_poolsOf.mpr ⟨z, mem_of_elementAt? hi, hp⟩
  | _ => exact absurd h fail_ne_ok

theorem mem_pools_index {target position : Operand} (h : index target position s = .ok x s')
    {p : Pool} (hp : p ∈ x.pools) : p ∈ target.pools := by
  rw [index_eq] at h
  obtain ⟨y, s₁, -, h⟩ := bind_eq_ok_iff.mp h
  cases hy : y.toInt with
  | error cause =>
    rw [hy] at h
    exact absurd h fail_ne_ok
  | ok i =>
    rw [hy] at h
    by_cases hplace : ∃ q, target = .place q
    · obtain ⟨q, rfl⟩ := hplace
      obtain ⟨rfl, -⟩ := pure_eq_ok_iff.mp h
      exact absurd hp List.not_mem_nil
    · rw [indexBy_of_ne_place fun q hq => hplace ⟨q, hq⟩] at h
      obtain ⟨z, s₂, hz, h⟩ := bind_eq_ok_iff.mp h
      exact mem_pools_of_force hz (mem_pools_elementOf h hp)

end Meaning

end DiceNotation
