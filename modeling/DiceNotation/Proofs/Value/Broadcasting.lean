/-
# Operations carried over to arrays

What an operation on values comes to can be said without its steps (`Value.broadcast`): two scalars
are combined, a scalar goes with every element of an array, and two arrays are paired up place by
place, each place counted round and round in the shorter one.  Carrying an operation over to arrays
gives just that, and takes as many steps as the result has elements
(`Value.elementwise_eq_paid`).

So laws of operations on values are laws of `broadcast`.  It turns round with its operands, a
function that is applied to every scalar passes through it on all three sides, and it depends on
nothing but what the operation does with the scalars that are there.
-/
import DiceNotation.Proofs.Value.Steps

namespace DiceNotation

/-! ## 1. Repeating a list -/

section Cycle

variable {α : Type}

theorem cycleFrom_nil (all : List α) (n : Nat) : cycleFrom all [] n = cycleFrom all all n := by
  cases n with
  | zero => rfl
  | succ n => cases all <;> rfl

theorem length_cycleFrom {all : List α} (h : all ≠ []) (rest : List α) (n : Nat) :
    (cycleFrom all rest n).length = n := by
  induction n generalizing rest with
  | zero => rfl
  | succ n ih =>
    cases rest with
    | cons x rest => rw [cycleFrom, List.length_cons, ih]
    | nil =>
      cases all with
      | nil => exact absurd rfl h
      | cons x all => rw [cycleFrom, List.length_cons, ih]

theorem getElem?_cycleFrom {all : List α} {k : Nat} (hk : k < all.length) {n i : Nat}
    (hi : i < n) : (cycleFrom all (all.drop k) n)[i]? = all[(k + i) % all.length]? := by
  induction n generalizing k i with
  | zero => exact absurd hi (Nat.not_lt_zero i)
  | succ n ih =>
    rw [List.drop_eq_getElem_cons hk, cycleFrom]
    cases i with
    | zero => simp [Nat.mod_eq_of_lt hk]
    | succ i =>
      have hi' : i < n := Nat.lt_of_succ_lt_succ hi
      rw [List.getElem?_cons_succ]
      rcases Nat.lt_or_eq_of_le (Nat.succ_le_of_lt hk) with hk' | hk'
      · rw [ih hk' hi', Nat.succ_add_eq_add_succ]
      · -- the list begins again
        have hagain : k + (i + 1) = all.length + (0 + i) := by omega
        have hfirst := ih (Nat.zero_lt_of_lt hk) hi'
        rw [List.drop_eq_nil_of_le (Nat.le_of_eq hk'.symm), cycleFrom_nil, hagain,
          Nat.add_mod_left]
        exact hfirst

theorem length_cycle {all : List α} (h : 0 < all.length) (n : Nat) : (cycle n all).length = n :=
  length_cycleFrom (List.ne_nil_of_length_pos h) all n

/-- **A list is repeated over and over.** -/
theorem getElem_cycle {all : List α} (h : 0 < all.length) {n i : Nat}
    (hi : i < (cycle n all).length) :
    (cycle n all)[i] = all.get ⟨i % all.length, Nat.mod_lt i h⟩ := by
  have hget := getElem?_cycleFrom h (length_cycle h n ▸ hi)
  rw [Nat.zero_add, List.getElem?_eq_getElem (Nat.mod_lt i h)] at hget
  exact Option.some.inj ((List.getElem?_eq_getElem hi).symm.trans hget)

end Cycle

namespace Value

/-! ## 2. What operations come to -/

/-- A value with a function applied to every scalar in it. -/
def map (g : Scalar → Scalar) : Value → Value
  | scalar s => scalar (g s)
  | array vs => array (vs.map fun v => map g v)

/-- The number of pairs that two lists make up, the shorter one repeated. -/
def pairCount (m n : Nat) : Nat := if m = 0 ∨ n = 0 then 0 else max m n

theorem pairCount_comm (m n : Nat) : pairCount m n = pairCount n m := by
  rw [pairCount, pairCount, Nat.max_comm]
  simp only [or_comm]

theorem pos_of_lt_pairCount {i m n : Nat} (h : i < pairCount m n) : 0 < m ∧ 0 < n := by
  unfold pairCount at h
  split at h
  · exact absurd h (Nat.not_lt_zero i)
  · omega

/-- Where the first element of a pair is in its list. -/
def leftPlace {m n : Nat} (i : Fin (pairCount m n)) : Fin m :=
  ⟨i.val % m, Nat.mod_lt _ (pos_of_lt_pairCount i.isLt).1⟩

/-- Where the second element of a pair is in its list. -/
def rightPlace {m n : Nat} (i : Fin (pairCount m n)) : Fin n :=
  ⟨i.val % n, Nat.mod_lt _ (pos_of_lt_pairCount i.isLt).2⟩

/-- What an operation on scalars comes to when it is carried over to arrays. -/
def broadcast (f : Scalar → Scalar → Scalar) : Value → Value → Value
  | scalar s, scalar t => scalar (f s t)
  | scalar s, array ws => array (ws.map fun w => broadcast f (scalar s) w)
  | array vs, scalar t => array (vs.map fun v => broadcast f v (scalar t))
  | array vs, array ws =>
    array (List.ofFn fun i : Fin (pairCount vs.length ws.length) =>
      broadcast f (vs.get (leftPlace i)) (ws.get (rightPlace i)))
termination_by v w => sizeOf v + sizeOf w
decreasing_by
  · have hw := List.sizeOf_lt_of_mem ‹w ∈ ws›
    simp only [scalar.sizeOf_spec, array.sizeOf_spec]
    omega
  · have hv := List.sizeOf_lt_of_mem ‹v ∈ vs›
    simp only [scalar.sizeOf_spec, array.sizeOf_spec]
    omega
  · have hv := List.sizeOf_lt_of_mem (List.get_mem vs (leftPlace i))
    have hw := List.sizeOf_lt_of_mem (List.get_mem ws (rightPlace i))
    simp only [array.sizeOf_spec]
    omega

/-! ## 3. What operations cost -/

theorem mapRights_eq_map (f : Scalar → Scalar → Scalar) (s : Scalar) (ws : List Value) :
    mapRights f s ws = ws.map fun w => elementwise f (scalar s) w := by
  induction ws with
  | nil => rfl
  | cons w ws ih => rw [mapRights, ih]; rfl

theorem elementwise_scalar_right (f : Scalar → Scalar → Scalar) (v : Value) (t : Scalar) :
    elementwise f v (scalar t) = mapLeft f t v := by
  cases v <;> rfl

theorem mapLefts_eq_map (f : Scalar → Scalar → Scalar) (t : Scalar) (vs : List Value) :
    mapLefts f t vs = vs.map fun v => elementwise f v (scalar t) := by
  induction vs with
  | nil => rfl
  | cons v vs ih => rw [mapLefts, ih, List.map_cons, elementwise_scalar_right]

theorem partials_eq_map (f : Scalar → Scalar → Scalar) (vs : List Value) :
    partials f vs = vs.map (elementwise f) := by
  induction vs with
  | nil => rfl
  | cons v vs ih => rw [partials, ih]; rfl

theorem negs_eq_map (vs : List Value) : negs vs = vs.map neg := by
  induction vs with
  | nil => rfl
  | cons v vs ih => rw [negs, ih]; rfl

/-- The work that two arrays make, pair by pair. -/
theorem pairUp_partials (f : Scalar → Scalar → Scalar) (vs ws : List Value) :
    pairUp (partials f vs) ws = List.ofFn fun i : Fin (pairCount vs.length ws.length) =>
      elementwise f (vs.get (leftPlace i)) (ws.get (rightPlace i)) := by
  rw [partials_eq_map, pairUp]
  by_cases hempty : vs.length = 0 ∨ ws.length = 0
  · have hnone : ((vs.map (elementwise f)).isEmpty || ws.isEmpty) = true := by
      simpa [List.isEmpty_iff] using hempty
    have hcount : pairCount vs.length ws.length = 0 := if_pos hempty
    rw [if_pos hnone]
    exact (List.eq_nil_of_length_eq_zero (by rw [List.length_ofFn, hcount])).symm
  · have hsome : ¬ ((vs.map (elementwise f)).isEmpty || ws.isEmpty) = true := by
      simpa [List.isEmpty_iff] using hempty
    have hcount : pairCount vs.length ws.length = max vs.length ws.length := if_neg hempty
    have hposLeft : 0 < (vs.map (elementwise f)).length := by
      rw [List.length_map]
      omega
    have hposRight : 0 < ws.length := by omega
    rw [if_neg hsome, List.length_map]
    refine List.ext_getElem ?_ fun i hi hi' => ?_
    · rw [List.length_zipWith, length_cycle hposLeft, length_cycle hposRight, Nat.min_self,
        List.length_ofFn, hcount]
    · rw [List.getElem_zipWith, getElem_cycle hposLeft, getElem_cycle hposRight, List.getElem_ofFn]
      simp only [leftPlace, rightPlace, List.get_eq_getElem, List.getElem_map, List.length_map]

/-- **An operation carried over to arrays comes to what it should**, and pays for every element of
the result. -/
theorem elementwise_eq_paid (f : Scalar → Scalar → Scalar) (v w : Value) :
    elementwise f v w = .paid (broadcast f v w).size (broadcast f v w) := by
  fun_induction broadcast f v w with
  | case1 s t => rfl
  | case2 s ws ih =>
    have hwork : mapRights f s ws =
        (ws.map fun w => broadcast f (scalar s) w).map fun r => .paid r.size r := by
      rw [mapRights_eq_map, List.map_map]
      exact List.map_congr_left ih
    rw [elementwise, mapRight, hwork, collect_eq_paid]
  | case3 vs t ih =>
    have hwork : mapLefts f t vs =
        (vs.map fun v => broadcast f v (scalar t)).map fun r => .paid r.size r := by
      rw [mapLefts_eq_map, List.map_map]
      exact List.map_congr_left ih
    rw [elementwise, mapLeft, hwork, collect_eq_paid]
  | case4 vs ws ih =>
    have hwork := pairUp_partials f vs ws
    simp only [ih] at hwork
    rw [elementwise, hwork, ← collect_eq_paid, List.map_ofFn]
    rfl

example : add (.array [.int 1, .int 2, .int 3]) (.array [.int 10, .int 20]) {} =
    .ok (.array [.int 11, .int 22, .int 13]) { steps := 3 } := rfl

/-- **The negative of a value pays for every element of it.** -/
theorem neg_eq_paid (v : Value) : neg v = .paid (v.map Scalar.neg).size (v.map Scalar.neg) := by
  fun_induction map Scalar.neg v with
  | case1 s => rfl
  | case2 vs ih =>
    have hwork : negs vs = (vs.map fun v => v.map Scalar.neg).map fun r => .paid r.size r := by
      rw [negs_eq_map, List.map_map]
      exact List.map_congr_left ih
    rw [neg, hwork, collect_eq_paid]

theorem paced_elementwise (f : Scalar → Scalar → Scalar) (v w : Value) :
    (elementwise f v w).Paced :=
  ⟨_, _, elementwise_eq_paid f v w⟩

theorem paced_neg (v : Value) : v.neg.Paced := ⟨_, _, neg_eq_paid v⟩

/-- A sum of many values pays for every sum on the way. -/
theorem paced_sum (vs : List Value) : (sum vs).Paced := by
  have hfold : ∀ (vs : List Value) (total : Value), Metered.Paced (vs.foldlM add total) := by
    intro vs
    induction vs with
    | nil => exact fun total => .pure total
    | cons v vs ih =>
      intro total
      rw [List.foldlM_cons]
      exact (paced_elementwise Scalar.add total v).bind ih
  cases vs with
  | nil => exact .pure _
  | cons v vs => exact hfold vs v

/-! ## 4. Laws of operations -/

/-- Whether all scalars in a value have a property. -/
inductive All (P : Scalar → Prop) : Value → Prop
  | scalar {s : Scalar} (h : P s) : All P (scalar s)
  | array {vs : List Value} (h : ∀ v ∈ vs, All P v) : All P (array vs)

theorem All.of_mem {P : Scalar → Prop} {v : Value} {vs : List Value} (h : (Value.array vs).All P)
    (hv : v ∈ vs) : v.All P := by
  cases h with
  | array h => exact h v hv

theorem map_map (g h : Scalar → Scalar) (v : Value) :
    (v.map g).map h = v.map fun s => h (g s) := by
  fun_induction map g v with
  | case1 s => rw [map, map]
  | case2 vs ih =>
    rw [map, map, List.map_map]
    exact congrArg array (List.map_congr_left ih)

theorem map_eq_self {P : Scalar → Prop} {g : Scalar → Scalar} (hg : ∀ s, P s → g s = s) {v : Value}
    (hv : v.All P) : v.map g = v := by
  induction hv with
  | scalar hs => rw [map, hg _ hs]
  | array _ ih => rw [map, List.map_congr_left ih, List.map_id']

/-- Arrays of as many elements are the same if their elements are. -/
theorem array_ofFn_congr {m n : Nat} (hmn : m = n) {us : Fin m → Value} {vs : Fin n → Value}
    (h : ∀ (i : Nat) (hi : i < m) (hi' : i < n), us ⟨i, hi⟩ = vs ⟨i, hi'⟩) :
    array (List.ofFn us) = array (List.ofFn vs) := by
  subst hmn
  exact congrArg array (congrArg List.ofFn (funext fun i => h i i.isLt i.isLt))

variable {f g : Scalar → Scalar → Scalar}

/-- Operations that agree on the scalars that are there come to the same. -/
theorem broadcast_congr {P Q : Scalar → Prop} (hfg : ∀ s t, P s → Q t → f s t = g s t)
    {v w : Value} (hv : v.All P) (hw : w.All Q) : broadcast f v w = broadcast g v w := by
  fun_induction broadcast f v w with
  | case1 s t =>
    cases hv with
    | scalar hs =>
      cases hw with
      | scalar ht => rw [broadcast, hfg s t hs ht]
  | case2 s ws ih =>
    rw [broadcast]
    exact congrArg array (List.map_congr_left fun w hmem => ih w hmem hv (hw.of_mem hmem))
  | case3 vs t ih =>
    rw [broadcast]
    exact congrArg array (List.map_congr_left fun v hmem => ih v hmem (hv.of_mem hmem) hw)
  | case4 vs ws ih =>
    rw [broadcast]
    refine array_ofFn_congr rfl fun i hi _ => ?_
    exact ih ⟨i, hi⟩ (hv.of_mem (List.get_mem vs _)) (hw.of_mem (List.get_mem ws _))

/-- **Operations turn round with their operands.** -/
theorem broadcast_swap (v w : Value) : broadcast f v w = broadcast (fun s t => f t s) w v := by
  fun_induction broadcast f v w with
  | case1 s t => rw [broadcast]
  | case2 s ws ih =>
    rw [broadcast]
    exact congrArg array (List.map_congr_left ih)
  | case3 vs t ih =>
    rw [broadcast]
    exact congrArg array (List.map_congr_left ih)
  | case4 vs ws ih =>
    rw [broadcast]
    exact array_ofFn_congr (pairCount_comm _ _) fun i hi _ => ih ⟨i, hi⟩

/-- What is done to a result can be done in the operation. -/
theorem map_broadcast (h : Scalar → Scalar) (v w : Value) :
    (broadcast f v w).map h = broadcast (fun s t => h (f s t)) v w := by
  fun_induction broadcast f v w with
  | case1 s t => rw [broadcast, map]
  | case2 s ws ih =>
    rw [broadcast, map, List.map_map]
    exact congrArg array (List.map_congr_left ih)
  | case3 vs t ih =>
    rw [broadcast, map, List.map_map]
    exact congrArg array (List.map_congr_left ih)
  | case4 vs ws ih =>
    rw [broadcast, map, List.map_ofFn]
    exact array_ofFn_congr rfl fun i hi _ => ih ⟨i, hi⟩

/-- What is done to a left operand can be done in the operation. -/
theorem broadcast_map_left (h : Scalar → Scalar) (v w : Value) :
    broadcast f (v.map h) w = broadcast (fun s t => f (h s) t) v w := by
  fun_induction broadcast (fun s t => f (h s) t) v w with
  | case1 s t => rw [map, broadcast]
  | case2 s ws ih =>
    rw [map] at ih ⊢
    rw [broadcast]
    exact congrArg array (List.map_congr_left ih)
  | case3 vs t ih =>
    rw [map, broadcast, List.map_map]
    exact congrArg array (List.map_congr_left ih)
  | case4 vs ws ih =>
    rw [map, broadcast]
    refine array_ofFn_congr (by rw [List.length_map]) fun i _ hi => ?_
    simp only [leftPlace, rightPlace, List.get_eq_getElem, List.getElem_map, List.length_map]
    exact ih ⟨i, hi⟩

theorem broadcast_map_right (h : Scalar → Scalar) (v w : Value) :
    broadcast f v (w.map h) = broadcast (fun s t => f s (h t)) v w := by
  rw [broadcast_swap, broadcast_map_left, broadcast_swap]

end Value

end DiceNotation
