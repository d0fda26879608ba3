/-
# What sorting does

Sorting rearranges any list (`sort_perm`).  That the result ascends needs an order that is
consistent on the elements (`Coherent`): mixed lists of scalars and arrays can be ordered in a
circle.  For such elements both ways to sort bring a list into ascending order (`ascending_sort`): a
short list by the run at its front and a binary search for each further element, a long one by
merging.

On integers the order is that of numbers, and sorting values is sorting numbers (`sort_ints`).
-/
import DiceNotation.Value.Sort

namespace DiceNotation.Value

/-! ## 1. Sorting is a rearrangement -/

/-- A run and what is left of it are the list itself, up to the order in which the run is kept. -/
theorem descendingRun_eq (last : Value) (run vs : List Value) :
    (descendingRun last run vs).1.reverse ++ (descendingRun last run vs).2 =
      run.reverse ++ vs := by
  induction vs generalizing last run with
  | nil => rfl
  | cons v vs ih =>
    rw [descendingRun]
    split
    · rw [ih v (v :: run), List.reverse_cons, List.append_assoc, List.singleton_append]
    · rfl

theorem ascendingRun_eq (last : Value) (run vs : List Value) :
    (ascendingRun last run vs).1.reverse ++ (ascendingRun last run vs).2 = run.reverse ++ vs := by
  induction vs generalizing last run with
  | nil => rfl
  | cons v vs ih =>
    rw [ascendingRun]
    split
    · rfl
    · rw [ih v (v :: run), List.reverse_cons, List.append_assoc, List.singleton_append]

theorem splitRun_perm (vs : List Value) : ((splitRun vs).1 ++ (splitRun vs).2).Perm vs := by
  match vs with
  | [] => exact .refl _
  | [v] => exact .refl _
  | v :: w :: rest =>
    rw [splitRun]
    split
    · have heq := descendingRun_eq w [w, v] rest
      exact ((List.reverse_perm _).symm.append_right _).trans (.of_eq heq)
    · exact .of_eq (ascendingRun_eq w [w, v] rest)

theorem insertSorted_perm (sorted : List Value) (v : Value) :
    (insertSorted sorted v).Perm (v :: sorted) := by
  rw [insertSorted]
  refine List.perm_middle.trans ?_
  rw [List.take_append_drop]

theorem foldl_insertSorted_perm (run rest : List Value) :
    (rest.foldl insertSorted run).Perm (run ++ rest) := by
  induction rest generalizing run with
  | nil => simp
  | cons v rest ih =>
    exact (ih (insertSorted run v)).trans
      (((insertSorted_perm run v).append_right rest).trans List.perm_middle.symm)

/-- **Sorting rearranges**, whatever the values are. -/
theorem sort_perm (vs : List Value) : (sort vs).Perm vs := by
  rw [sort]
  split
  · exact (foldl_insertSorted_perm _ _).trans (splitRun_perm vs)
  · exact List.mergeSort_perm vs _

/-! ## 2. Consistent orders -/

/-- The order of values is consistent on those with the property: of two values at most one is less,
and what is not greater goes on from one value to the next. -/
structure Coherent (P : Value → Prop) : Prop where
  asymm {v w : Value} : P v → P w → v.less w = true → w.less v = false
  trans {u v w : Value} : P u → P v → P w → v.less u = false → w.less v = false →
    w.less u = false

/-- Whether a value is not greater than another, for values with the property: merging is about
orders of all elements of a type. -/
def notAbove {P : Value → Prop} (v w : {v // P v}) : Bool := !w.1.less v.1

/-- Merging values is merging them as values with the property. -/
theorem mergeSort_eq_map {P : Value → Prop} {vs : List Value} (hvs : ∀ v ∈ vs, P v) :
    (vs.mergeSort fun v w => !w.less v) =
      ((vs.attachWith P hvs).mergeSort notAbove).map Subtype.val := by
  have hmap := List.map_mergeSort (r := notAbove) (s := fun v w => !w.less v) (f := Subtype.val)
    (l := vs.attachWith P hvs) fun _ _ _ _ => rfl
  rw [List.attachWith_map_subtype_val] at hmap
  exact hmap.symm

/-- No element is less than one in front of it. -/
def Ascending (vs : List Value) : Prop := vs.Pairwise fun v w => w.less v = false

/-- Every element is less than those behind it. -/
def StrictlyAscending (vs : List Value) : Prop := vs.Pairwise fun v w => v.less w = true

section Coherent

variable {P : Value → Prop} (coherent : Coherent P)

include coherent

/-- What is less than a value is less than all that are not less than that value. -/
theorem Coherent.less_of_less_of_le {u v w : Value} (hu : P u) (hv : P v) (hw : P w)
    (huv : u.less v = true) (hvw : w.less v = false) : u.less w = true := by
  cases huw : u.less w with
  | true => rfl
  | false =>
    have hfalse := coherent.trans hv hw hu hvw huw
    exact absurd (hfalse.symm.trans huv) (by simp)

theorem Coherent.less_trans {u v w : Value} (hu : P u) (hv : P v) (hw : P w)
    (huv : u.less v = true) (hvw : v.less w = true) : u.less w = true :=
  coherent.less_of_less_of_le hu hv hw huv (coherent.asymm hv hw hvw)

theorem Coherent.notAbove_trans (u v w : {v // P v}) :
    notAbove u v = true → notAbove v w = true → notAbove u w = true := by
  simp only [notAbove, Bool.not_eq_true']
  exact coherent.trans u.2 v.2 w.2

theorem Coherent.notAbove_total (v w : {v // P v}) : (notAbove v w || notAbove w v) = true := by
  simp only [notAbove, Bool.or_eq_true, Bool.not_eq_true']
  cases hless : w.1.less v.1 with
  | false => exact .inl rfl
  | true => exact .inr (coherent.asymm w.2 v.2 hless)

theorem Coherent.ascending_of_strictly {vs : List Value} (hvs : ∀ v ∈ vs, P v)
    (h : StrictlyAscending vs) : Ascending vs :=
  h.imp_of_mem fun hv hw hless => coherent.asymm (hvs _ hv) (hvs _ hw) hless

/-- The run that descends is collected in ascending order, and no two of its elements are equal. -/
theorem Coherent.strictlyAscending_descendingRun {last : Value} {run vs : List Value}
    (hrun : ∀ v ∈ last :: run, P v) (hvs : ∀ v ∈ vs, P v) (h : StrictlyAscending (last :: run)) :
    StrictlyAscending (descendingRun last (last :: run) vs).1 := by
  induction vs generalizing last run with
  | nil => exact h
  | cons v vs ih =>
    obtain ⟨hv, hvs⟩ := List.forall_mem_cons.mp hvs
    rw [descendingRun]
    split
    · next hless =>
      refine ih (List.forall_mem_cons.mpr ⟨hv, hrun⟩) hvs (List.pairwise_cons.mpr ⟨?_, h⟩)
      intro w hw
      rcases List.mem_cons.mp hw with rfl | hw
      · exact hless
      · exact coherent.less_trans hv (hrun last List.mem_cons_self)
          (hrun w (List.mem_cons_of_mem _ hw)) hless ((List.pairwise_cons.mp h).1 w hw)
    · exact h

/-- The run that ascends is collected in descending order. -/
theorem Coherent.ascending_ascendingRun {last : Value} {run vs : List Value}
    (hrun : ∀ v ∈ last :: run, P v) (hvs : ∀ v ∈ vs, P v) (h : Ascending (last :: run).reverse) :
    Ascending (ascendingRun last (last :: run) vs).1.reverse := by
  induction vs generalizing last run with
  | nil => exact h
  | cons v vs ih =>
    obtain ⟨hv, hvs⟩ := List.forall_mem_cons.mp hvs
    rw [ascendingRun]
    split
    · exact h
    · next hless =>
      refine ih (List.forall_mem_cons.mpr ⟨hv, hrun⟩) hvs ?_
      have hlast : v.less last = false := by simpa using hless
      rw [Ascending, List.pairwise_reverse] at h ⊢
      refine List.pairwise_cons.mpr ⟨?_, h⟩
      intro w hw
      rcases List.mem_cons.mp hw with rfl | hw
      · exact hlast
      · exact coherent.trans (hrun w (List.mem_cons_of_mem _ hw)) (hrun last List.mem_cons_self)
          hv ((List.pairwise_cons.mp h).1 w hw) hlast

theorem Coherent.ascending_splitRun {vs : List Value} (hvs : ∀ v ∈ vs, P v) :
    Ascending (splitRun vs).1 := by
  match vs with
  | [] => exact List.Pairwise.nil
  | [v] => exact List.pairwise_singleton _ v
  | v :: w :: rest =>
    obtain ⟨hv, hw, hrest⟩ : P v ∧ P w ∧ ∀ x ∈ rest, P x := by simpa using hvs
    have hpair : ∀ x ∈ [w, v], P x := by simp [hv, hw]
    rw [splitRun]
    split
    · next hless =>
      have hrun : ∀ x ∈ (descendingRun w [w, v] rest).1, P x := by
        intro x hx
        have heq := descendingRun_eq w [w, v] rest
        have hmem : x ∈ [w, v].reverse ++ rest := by
          rw [← heq]
          exact List.mem_append_left _ (List.mem_reverse.mpr hx)
        exact hvs x hmem
      refine coherent.ascending_of_strictly hrun ?_
      exact coherent.strictlyAscending_descendingRun hpair hrest (by simpa [StrictlyAscending])
    · next hless =>
      refine coherent.ascending_ascendingRun hpair hrest ?_
      simpa [Ascending] using hless

/-! ## 3. The place of an insertion -/

/-- The place for `v` is between `low` and `high`: in front of `low` nothing is greater, and from
`high` on everything is. -/
structure PlaceBetween (v : Value) (sorted : List Value) (low high : Nat) : Prop where
  low_le : low ≤ high
  high_le : high ≤ sorted.length
  before : ∀ (i : Nat) (h : i < sorted.length), i < low → v.less sorted[i] = false
  behind : ∀ (i : Nat) (h : i < sorted.length), high ≤ i → v.less sorted[i] = true

/-- Halving keeps the place between the two ends until they meet. -/
theorem Coherent.placeBetween_insertionPlace {v : Value} {sorted : List Value} (hv : P v)
    (hsorted : ∀ w ∈ sorted, P w) (hasc : Ascending sorted) {fuel low high : Nat}
    (hfuel : high - low ≤ fuel) (h : PlaceBetween v sorted low high) :
    PlaceBetween v sorted (insertionPlace v sorted fuel low high)
      (insertionPlace v sorted fuel low high) := by
  have hle : ∀ (i j : Nat) (hi : i < sorted.length) (hj : j < sorted.length), i < j →
      sorted[j].less sorted[i] = false := List.pairwise_iff_getElem.mp hasc
  induction fuel generalizing low high with
  | zero =>
    obtain rfl : low = high := by have := h.low_le; omega
    exact h
  | succ fuel ih =>
    rw [insertionPlace]
    by_cases hlt : low < high
    · rw [if_pos hlt]
      have hmid : (low + high) / 2 < sorted.length := by have := h.high_le; omega
      have hget : sorted.getD ((low + high) / 2) v = sorted[(low + high) / 2] := by
        simp [List.getD_eq_getElem?_getD, hmid]
      have hP := hsorted _ (List.getElem_mem hmid)
      simp only [hget]
      split
      · next hless =>
        refine ih (by omega) ⟨by omega, by omega, h.before, fun i hi hge => ?_⟩
        rcases Nat.lt_or_eq_of_le hge with hlt' | rfl
        · cases hupper : v.less sorted[i] with
          | true => rfl
          | false =>
            -- were the element not greater, neither would be the one in the middle
            have hfalse := coherent.trans hP (hsorted _ (List.getElem_mem hi)) hv
              (hle _ i hmid hi hlt') hupper
            exact absurd (hfalse.symm.trans hless) (by simp)
        · exact hless
      · next hless =>
        have hupper : v.less sorted[(low + high) / 2] = false := by simpa using hless
        refine ih (by omega) ⟨by omega, h.high_le, fun i hi hge => ?_, h.behind⟩
        rcases Nat.lt_or_eq_of_le (Nat.le_of_lt_succ hge) with hlt' | rfl
        · exact coherent.trans (hsorted _ (List.getElem_mem hi)) hP hv (hle i _ hi hmid hlt') hupper
        · exact hupper
    · obtain rfl : low = high := by have := h.low_le; omega
      rw [if_neg hlt]
      exact h

/-- **Inserting puts a value between those that are not greater and those that are.** -/
theorem Coherent.exists_insertSorted_eq {v : Value} {sorted : List Value} (hv : P v)
    (hsorted : ∀ w ∈ sorted, P w) (hasc : Ascending sorted) :
    ∃ front back, front ++ back = sorted ∧ insertSorted sorted v = front ++ v :: back ∧
      (∀ w ∈ front, v.less w = false) ∧ ∀ w ∈ back, v.less w = true := by
  have hplace : PlaceBetween v sorted 0 sorted.length :=
    ⟨Nat.zero_le _, Nat.le_refl _, fun _ _ h => absurd h (Nat.not_lt_zero _),
      fun _ h hge => absurd h (Nat.not_lt.mpr hge)⟩
  have h := coherent.placeBetween_insertionPlace hv hsorted hasc (Nat.sub_le _ 0) hplace
  rw [insertSorted]
  generalize insertionPlace v sorted sorted.length 0 sorted.length = place at h
  refine ⟨sorted.take place, sorted.drop place, List.take_append_drop _ _, rfl, ?_, ?_⟩
  · intro w hw
    obtain ⟨i, hi, rfl⟩ := List.mem_iff_getElem.mp hw
    rw [List.length_take] at hi
    rw [List.getElem_take]
    exact h.before i (by omega) (by omega)
  · intro w hw
    obtain ⟨i, hi, rfl⟩ := List.mem_iff_getElem.mp hw
    rw [List.length_drop] at hi
    rw [List.getElem_drop]
    exact h.behind (place + i) (by omega) (Nat.le_add_right _ _)

theorem Coherent.ascending_insertSorted {v : Value} {sorted : List Value} (hv : P v)
    (hsorted : ∀ w ∈ sorted, P w) (hasc : Ascending sorted) :
    Ascending (insertSorted sorted v) := by
  obtain ⟨front, back, rfl, heq, hfront, hback⟩ :=
    coherent.exists_insertSorted_eq hv hsorted hasc
  obtain ⟨hascFront, hascBack, hacross⟩ := List.pairwise_append.mp hasc
  have hbehind : ∀ w ∈ back, w.less v = false := by
    intro w hw
    exact coherent.asymm hv (hsorted w (List.mem_append_right _ hw)) (hback w hw)
  rw [heq]
  refine List.pairwise_append.mpr ⟨hascFront, List.pairwise_cons.mpr ⟨hbehind, hascBack⟩, ?_⟩
  intro u hu w hw
  rcases List.mem_cons.mp hw with rfl | hw
  · exact hfront u hu
  · exact hacross u hu w hw

/-! ## 4. The result ascends -/

theorem Coherent.ascending_foldl {run rest : List Value} (hrun : ∀ v ∈ run, P v)
    (hrest : ∀ v ∈ rest, P v) (hasc : Ascending run) : Ascending (rest.foldl insertSorted run) := by
  induction rest generalizing run with
  | nil => exact hasc
  | cons v rest ih =>
    obtain ⟨hv, hrest⟩ := List.forall_mem_cons.mp hrest
    refine ih (fun w hw => ?_) hrest (coherent.ascending_insertSorted hv hrun hasc)
    rcases List.mem_cons.mp ((insertSorted_perm run v).mem_iff.mp hw) with rfl | hw
    · exact hv
    · exact hrun w hw

theorem Coherent.ascending_mergeSort {vs : List Value} (hvs : ∀ v ∈ vs, P v) :
    Ascending (vs.mergeSort fun v w => !w.less v) := by
  rw [mergeSort_eq_map hvs, Ascending, List.pairwise_map]
  refine (List.pairwise_mergeSort coherent.notAbove_trans coherent.notAbove_total _).imp ?_
  intro v w h
  simpa [notAbove] using h

/-- **Sorting brings values into ascending order**, if their order is consistent. -/
theorem Coherent.ascending_sort {vs : List Value} (hvs : ∀ v ∈ vs, P v) : Ascending (sort vs) := by
  rw [sort]
  split
  · have hsplit : ∀ v ∈ (splitRun vs).1 ++ (splitRun vs).2, P v := fun v hv =>
      hvs v ((splitRun_perm vs).mem_iff.mp hv)
    obtain ⟨hrun, hrest⟩ := List.forall_mem_append.mp hsplit
    exact coherent.ascending_foldl hrun hrest (coherent.ascending_splitRun hvs)
  · exact coherent.ascending_mergeSort hvs

end Coherent

/-! ## 5. Integers -/

@[simp] theorem less_int (m n : Int) : (int m).less (int n) = decide (m < n) := by
  change (Quantity.compareRat m n == .lt) = decide (m < n)
  simp only [Quantity.compareRat, Rat.intCast_lt_intCast]
  by_cases h : m < n
  · simp [h]
  · by_cases h' : n < m <;> simp [h, h']

theorem coherent_ints : Coherent fun v => ∃ n : Int, v = int n where
  asymm := by
    rintro _ _ ⟨m, rfl⟩ ⟨n, rfl⟩ h
    simp only [less_int, decide_eq_true_eq, decide_eq_false_iff_not] at h ⊢
    omega
  trans := by
    rintro _ _ _ ⟨l, rfl⟩ ⟨m, rfl⟩ ⟨n, rfl⟩ hlm hmn
    simp only [less_int, decide_eq_false_iff_not] at hlm hmn ⊢
    omega

theorem ascending_map_int {ns : List Int} :
    Ascending (ns.map int) ↔ ns.Pairwise fun m n => m ≤ n := by
  simp [Ascending, List.pairwise_map]

/-- Sorting integers as values is sorting them as numbers. -/
theorem sort_ints (ns : List Int) :
    sort (ns.map int) = (ns.mergeSort fun m n => decide (m ≤ n)).map int := by
  have hints : ∀ v ∈ ns.map int, ∃ n : Int, v = int n := by
    intro v hv
    obtain ⟨n, _, rfl⟩ := List.mem_map.mp hv
    exact ⟨n, rfl⟩
  have hnumbers : (ns.mergeSort fun m n => decide (m ≤ n)).Pairwise fun m n => m ≤ n := by
    refine (List.pairwise_mergeSort ?_ ?_ ns).imp fun h => of_decide_eq_true h
    · intro l m n hlm hmn
      exact decide_eq_true (Int.le_trans (of_decide_eq_true hlm) (of_decide_eq_true hmn))
    · intro m n
      simpa using Int.le_total m n
  have hperm : (sort (ns.map int)).Perm ((ns.mergeSort fun m n => decide (m ≤ n)).map int) :=
    (sort_perm _).trans ((List.mergeSort_perm ns _).symm.map int)
  refine List.Perm.eq_of_pairwise ?_ (coherent_ints.ascending_sort hints)
    (ascending_map_int.mpr hnumbers) hperm
  -- integers that are not less than each other are the same
  intro v w hv hw hvw hwv
  obtain ⟨m, rfl⟩ := hints v ((sort_perm _).mem_iff.mp hv)
  obtain ⟨n, -, rfl⟩ := List.mem_map.mp hw
  simp only [less_int, decide_eq_false_iff_not] at hvw hwv
  rw [Int.le_antisymm (Int.not_lt.mp hvw) (Int.not_lt.mp hwv)]

end DiceNotation.Value
