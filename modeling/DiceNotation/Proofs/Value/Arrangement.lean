/-
# When the order of the input is forgotten

Sorting the same values in another order should come to the same, up to values that compare as
equal (`Alike`).  Where the order of values is consistent it does (`Coherent.alike_sort`): two
ascending arrangements of the same values are tied place by place, as otherwise one of them would
have too many values below some place.

The order of values is not consistent everywhere.  On values without empty arrays it turns round
with its operands (`compare_swap_of_full`), but a scalar compares with an array by the first scalar
in it, and arrays compare by their lengths first, so that three values can go round in a circle.
Such a circle ascends from neighbour to neighbour wherever it begins, and sorting leaves it as it is
(`sort_of_three`).  So the order of the input is forgotten for those values, and only those, on
which the order is transitive (`sort_forgets_iff`).
-/
import DiceNotation.Proofs.Value.Stability

namespace DiceNotation.Value

/-! ## 1. Ascending arrangements of the same values -/

/-- Two lists whose values compare as equal place by place. -/
def Alike (vs ws : List Value) : Prop := List.Forall₂ (fun v w => v.compare w = .eq) vs ws

section Coherent

variable {P : Value → Prop} (coherent : Coherent P)

include coherent

theorem Coherent.less_self {v : Value} (hv : P v) : v.less v = false := by
  rw [← Bool.not_eq_true]
  intro h
  exact absurd ((coherent.asymm hv hv h).symm.trans h) (by simp)

/-- In an ascending list, no value at a place or in front of it is above the one at the place. -/
theorem Coherent.lt_countP {vs : List Value} (hvs : ∀ v ∈ vs, P v) (hasc : Ascending vs) (i : Nat)
    (hi : i < vs.length) : i < vs.countP fun v => !vs[i].less v := by
  have hall : (vs.take (i + 1)).countP (fun v => !vs[i].less v) = (vs.take (i + 1)).length := by
    refine List.countP_eq_length.mpr fun v hmem => ?_
    obtain ⟨j, hj, rfl⟩ := List.mem_iff_getElem.mp hmem
    rw [List.length_take] at hj
    rw [List.getElem_take, Bool.not_eq_true']
    rcases Nat.lt_or_ge j i with hlt | hge
    · exact List.pairwise_iff_getElem.mp hasc j i _ hi hlt
    · obtain rfl : j = i := by omega
      exact coherent.less_self (hvs _ (List.getElem_mem hi))
  calc i < (vs.take (i + 1)).length := by rw [List.length_take]; omega
    _ = (vs.take (i + 1)).countP fun v => !vs[i].less v := hall.symm
    _ ≤ vs.countP fun v => !vs[i].less v := (List.take_sublist _ _).countP_le

/-- In an ascending list with something above `x` at a place, only values in front of the place are
not above `x`. -/
theorem Coherent.countP_le {x : Value} {vs : List Value} (hx : P x) (hvs : ∀ v ∈ vs, P v)
    (hasc : Ascending vs) (i : Nat) (hi : i < vs.length) (hless : x.less vs[i] = true) :
    vs.countP (fun v => !x.less v) ≤ i := by
  have hnone : (vs.drop i).countP (fun v => !x.less v) = 0 := by
    refine List.countP_eq_zero.mpr fun v hmem => ?_
    obtain ⟨j, hj, rfl⟩ := List.mem_iff_getElem.mp hmem
    rw [List.length_drop] at hj
    rw [List.getElem_drop, Bool.not_eq_true', Bool.not_eq_false]
    have hle : vs[i + j].less vs[i] = false := by
      rcases Nat.eq_zero_or_pos j with rfl | hpos
      · exact coherent.less_self (hvs _ (List.getElem_mem hi))
      · exact List.pairwise_iff_getElem.mp hasc i (i + j) hi (by omega) (by omega)
    exact coherent.less_of_less_of_le hx (hvs _ (List.getElem_mem hi))
      (hvs _ (List.getElem_mem _)) hless hle
  calc vs.countP (fun v => !x.less v)
      = (vs.take i ++ vs.drop i).countP fun v => !x.less v := by rw [List.take_append_drop]
    _ = (vs.take i).countP fun v => !x.less v := by rw [List.countP_append, hnone, Nat.add_zero]
    _ ≤ (vs.take i).length := List.countP_le_length
    _ ≤ i := List.length_take_le _ _

/-- At no place of an ascending arrangement is there a smaller value than in another one: it would
have too many values that are not above it. -/
theorem Coherent.getElem_not_less {vs ws : List Value} (hvs : ∀ v ∈ vs, P v) (hperm : vs.Perm ws)
    (hv : Ascending vs) (hw : Ascending ws) (i : Nat) (hi : i < vs.length) (hi' : i < ws.length) :
    vs[i].less ws[i] = false := by
  rw [← Bool.not_eq_true]
  intro hless
  have hws : ∀ w ∈ ws, P w := fun w hmem => hvs w (hperm.mem_iff.mpr hmem)
  have hlt := coherent.lt_countP hvs hv i hi
  have hle := coherent.countP_le (hvs _ (List.getElem_mem hi)) hws hw i hi' hless
  rw [hperm.countP_eq] at hlt
  exact absurd hlt (Nat.not_lt.mpr hle)

/-- **Ascending arrangements of the same values are alike.** -/
theorem Coherent.alike_of_perm (hswap : ∀ v w, P v → P w → v.compare w = (w.compare v).swap)
    {vs ws : List Value} (hvs : ∀ v ∈ vs, P v) (hperm : vs.Perm ws) (hv : Ascending vs)
    (hw : Ascending ws) : Alike vs ws := by
  have hws : ∀ w ∈ ws, P w := fun w hmem => hvs w (hperm.mem_iff.mpr hmem)
  refine List.forall₂_iff_get.mpr ⟨hperm.length_eq, fun i hi hi' => ?_⟩
  have htied : tied vs[i] ws[i] = true :=
    tied_iff.mpr ⟨coherent.getElem_not_less hvs hperm hv hw i hi hi',
      coherent.getElem_not_less hws hperm.symm hw hv i hi' hi⟩
  rw [tied_eq_equiv (hswap _ _ (hvs _ (List.getElem_mem hi)) (hws _ (List.getElem_mem hi')))]
    at htied
  exact beq_iff_eq.mp htied

/-- Sorting forgets the order of its input. -/
theorem Coherent.alike_sort (hswap : ∀ v w, P v → P w → v.compare w = (w.compare v).swap)
    {vs ws : List Value} (hvs : ∀ v ∈ vs, P v) (hperm : vs.Perm ws) :
    Alike (sort vs) (sort ws) := by
  have hws : ∀ w ∈ ws, P w := fun w hmem => hvs w (hperm.mem_iff.mpr hmem)
  have hsorted : ∀ v ∈ sort vs, P v := fun v hmem => hvs v ((sort_perm vs).mem_iff.mp hmem)
  have hperm' : (sort vs).Perm (sort ws) :=
    ((sort_perm vs).trans hperm).trans (sort_perm ws).symm
  exact coherent.alike_of_perm hswap hsorted hperm' (coherent.ascending_sort hvs)
    (coherent.ascending_sort hws)

end Coherent

/-! ## 2. Values without empty arrays -/

/-- A scalar, or an array that has elements and whose elements are full. -/
inductive Full : Value → Prop
  | scalar (s : Scalar) : Full (scalar s)
  | array {items : List Value} (hne : items ≠ []) (h : ∀ v ∈ items, Full v) : Full (array items)

/-- There is a first scalar in a full value. -/
theorem Full.exists_lead {v : Value} (h : v.Full) : ∃ s, v.lead? = some s := by
  induction h with
  | scalar s => exact ⟨s, rfl⟩
  | @array items hne _ ih =>
    cases items with
    | nil => exact absurd rfl hne
    | cons v items =>
      obtain ⟨s, hs⟩ := ih v List.mem_cons_self
      exact ⟨s, hs⟩

theorem compareItems_swap {vs ws : List Value}
    (h : ∀ v ∈ vs, ∀ w ∈ ws, v.compare w = (w.compare v).swap) :
    compareItems vs ws = (compareItems ws vs).swap := by
  induction vs generalizing ws with
  | nil => cases ws <;> rfl
  | cons v vs ih =>
    cases ws with
    | nil => rfl
    | cons w ws =>
      rw [compareItems, compareItems, Ordering.swap_then,
        h v List.mem_cons_self w List.mem_cons_self,
        ih fun v hv w hw => h v (List.mem_cons_of_mem _ hv) w (List.mem_cons_of_mem _ hw)]

/-- **Without empty arrays the order turns round with its operands.** -/
theorem compare_swap_of_full {v w : Value} (hv : v.Full) (hw : w.Full) :
    v.compare w = (w.compare v).swap := by
  have hscalars (s t : Scalar) : s.compare t = (t.compare s).swap := Std.OrientedCmp.eq_swap
  induction hv generalizing w with
  | scalar s =>
    obtain ⟨t, ht⟩ := hw.exists_lead
    cases w with
    | scalar t => exact hscalars s t
    | array ws =>
      rw [compare, compare, ht]
      exact hscalars s t
  | @array vs hne h ih =>
    cases hw with
    | scalar t =>
      obtain ⟨s, hs⟩ := (Full.array hne h).exists_lead
      rw [compare, compare, hs]
      exact hscalars s t
    | @array ws _ hws =>
      rw [compare, compare, Ordering.swap_then]
      congr 1
      · exact Std.OrientedCmp.eq_swap
      · exact compareItems_swap fun v hv w hw => ih v hv (hws w hw)

/-! ## 3. Circles -/

/-- Three values of which none is less than the one in front of it are left as they are. -/
theorem sort_of_three {u v w : Value} (huv : v.less u = false) (hvw : w.less v = false) :
    sort [u, v, w] = [u, v, w] := by
  have hshort : [u, v, w].length < longLength := by simp [longLength]
  have hrun : splitRun [u, v, w] = ([u, v, w], []) := by
    simp [splitRun, ascendingRun, huv, hvw]
  rw [sort, if_pos hshort, hrun]
  rfl

/-- **Three values that are not in a transitive order are sorted by the order they come in.** -/
theorem not_alike_of_circle {u v w : Value} (hu : u.Full) (hv : v.Full) (hw : w.Full)
    (huv : (u.compare v).isLE) (hvw : (v.compare w).isLE) (huw : ¬ (u.compare w).isLE) :
    [u, v, w].Perm [v, w, u] ∧ ¬ Alike (sort [u, v, w]) (sort [v, w, u]) := by
  have hperm : ([u] ++ [v, w]).Perm ([v, w] ++ [u]) := List.perm_append_comm
  refine ⟨hperm, fun halike => ?_⟩
  have huv' : v.less u = false := (less_eq_false_iff (compare_swap_of_full hu hv)).mpr huv
  have hvw' : w.less v = false := (less_eq_false_iff (compare_swap_of_full hv hw)).mpr hvw
  have hwu : (w.compare u).isLE := by
    rw [compare_swap_of_full hu hw] at huw
    cases hcompare : w.compare u <;> simp_all
  have hwu' : u.less w = false := (less_eq_false_iff (compare_swap_of_full hw hu)).mpr hwu
  rw [sort_of_three huv' hvw', sort_of_three hvw' hwu'] at halike
  have hlast : w.compare u = .eq := by
    rcases halike with _ | ⟨-, _ | ⟨-, _ | ⟨h, -⟩⟩⟩
    exact h
  rw [compare_swap_of_full hu hw, hlast] at huw
  exact huw rfl

/-- Values of one depth can be sorted from any order, also with empty arrays among them. -/
theorem alike_sort_of_hasDepth {n : Nat} {vs ws : List Value} (hvs : ∀ v ∈ vs, v.HasDepth n)
    (hperm : vs.Perm ws) : Alike (sort vs) (sort ws) :=
  (coherent_hasDepth n).alike_sort (fun _ _ => compare_swap_of_hasDepth) hvs hperm

/-- **Sorting forgets the order of its input on those values, and only those, on which the order is
transitive**, if there are no empty arrays in them. -/
theorem sort_forgets_iff (P : Value → Prop) (hfull : ∀ v, P v → v.Full) :
    (∀ vs ws : List Value, (∀ v ∈ vs, P v) → vs.Perm ws → Alike (sort vs) (sort ws)) ↔
      ∀ u v w, P u → P v → P w → (u.compare v).isLE → (v.compare w).isLE →
        (u.compare w).isLE := by
  constructor
  · intro hforgets u v w hu hv hw huv hvw
    by_contra huw
    obtain ⟨hperm, hne⟩ := not_alike_of_circle (hfull u hu) (hfull v hv) (hfull w hw) huv hvw huw
    exact hne (hforgets [u, v, w] [v, w, u] (by simp [hu, hv, hw]) hperm)
  · intro htrans vs ws hvs hperm
    have hswap : ∀ v w, P v → P w → v.compare w = (w.compare v).swap := fun v w hv hw =>
      compare_swap_of_full (hfull v hv) (hfull w hw)
    exact (coherent_of_trans hswap htrans).alike_sort hswap hvs hperm

/-- A number among arrays of one element, of different depths. -/
theorem sort_forgets_iff_slender :
    let u : Value := .array [.array [.int 1]]
    let v : Value := .int 5
    let w : Value := .array [.int 7]
    (∀ x ∈ [u, v, w], x.Full) ∧ [w, v, u].Perm [v, u, w] ∧
      Alike (sort [w, v, u]) (sort [v, u, w]) := by
  intro u v w
  have hw : w.Full := .array (by simp) (by simp [Full.scalar])
  have hu : u.Full := .array (by simp) (by simpa using .array (by simp) (by simp [Full.scalar]))
  have hfull : ∀ x ∈ [u, v, w], x.Full := by simp [hu, hw, v, Full.scalar]
  have htrans : ∀ x ∈ [u, v, w], ∀ y ∈ [u, v, w], ∀ z ∈ [u, v, w], (x.compare y).isLE →
      (y.compare z).isLE → (x.compare z).isLE := by
    decide +kernel
  have hforgets := (sort_forgets_iff (· ∈ [u, v, w]) hfull).mpr
    fun x y z hx hy hz => htrans x hx y hy z hz
  have hperm : ([w] ++ [v, u]).Perm ([v, u] ++ [w]) := List.perm_append_comm
  exact ⟨hfull, hperm, hforgets _ _ (by simp) hperm⟩

/-- A number and two arrays that go round in a circle: each is less than the next, and the last is
less than the first. -/
theorem sort_depends_on_order :
    let u : Value := .array [.int 1, .int 9]
    let v : Value := .int 5
    let w : Value := .array [.int 7]
    (∀ x ∈ [u, v, w], x.Full) ∧ [u, v, w].Perm [v, w, u] ∧
      ¬ Alike (sort [u, v, w]) (sort [v, w, u]) := by
  intro u v w
  have hu : u.Full := .array (by simp) (by simp [Full.scalar])
  have hv : v.Full := .scalar _
  have hw : w.Full := .array (by simp) (by simp [Full.scalar])
  have huv : (u.compare v).isLE := by decide +kernel
  have hvw : (v.compare w).isLE := by decide +kernel
  have huw : ¬ (u.compare w).isLE := by decide +kernel
  exact ⟨by simp [hu, hv, hw], not_alike_of_circle hu hv hw huv hvw huw⟩

end DiceNotation.Value
