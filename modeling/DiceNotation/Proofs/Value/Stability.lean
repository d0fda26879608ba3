/-
# Equal values keep their order

Where the order of values is consistent, sorting is stable: of the values that are tied with any one
value it makes the same list as before (`Coherent.filter_sort`).  The run at the front is either
left as it is, or it descends strictly and then has no ties to turn round; each further element goes
behind all that it is tied with; and merging is stable in itself.

Values of one depth are such a case (`coherent_hasDepth`), and there to be tied is to compare as
equal.
-/
import DiceNotation.Proofs.Value.Sorting
import DiceNotation.Proofs.Value.Preorder

namespace DiceNotation

/-! ## 1. Merging is stable -/

/-- Merging keeps the order of elements of which none has to come before another. -/
theorem filter_mergeSort {α : Type} {le : α → α → Bool}
    (htrans : ∀ a b c, le a b = true → le b c = true → le a c = true)
    (htotal : ∀ a b, (le a b || le b a) = true) {p : α → Bool}
    (hp : ∀ a b, p a = true → p b = true → le a b = true) (as : List α) :
    (as.mergeSort le).filter p = as.filter p := by
  have hordered : (as.filter p).Pairwise fun a b => le a b = true := by
    refine List.pairwise_of_forall_mem_list fun a ha b hb => ?_
    exact hp a b (List.mem_filter.mp ha).2 (List.mem_filter.mp hb).2
  -- in order as they stand, they are still there, and there are no others
  have hsublist := (List.sublist_mergeSort htrans htotal hordered List.filter_sublist).filter p
  rw [List.filter_filter] at hsublist
  simp only [Bool.and_self] at hsublist
  have hperm := (List.mergeSort_perm as le).filter p
  exact (hsublist.eq_of_length hperm.length_eq.symm).symm

namespace Value

/-! ## 2. Ties -/

/-- Whether neither of two values is less than the other. -/
def tied (v w : Value) : Bool := !v.less w && !w.less v

theorem tied_iff {v w : Value} : tied v w = true ↔ v.less w = false ∧ w.less v = false := by
  simp [tied]

section Coherent

variable {P : Value → Prop} (coherent : Coherent P)

include coherent

/-- What is tied with a value is less than all that are greater than that value. -/
theorem Coherent.not_tied_of_less {x v w : Value} (hx : P x) (hv : P v) (hw : P w)
    (hxv : tied x v = true) (hvw : v.less w = true) : tied x w = false := by
  rw [← Bool.not_eq_true, tied_iff]
  rintro ⟨hxw, -⟩
  obtain ⟨-, hvx⟩ := tied_iff.mp hxv
  have hfalse := coherent.trans hw hx hv hxw hvx
  exact absurd (hfalse.symm.trans hvw) (by simp)

/-- Of values that ascend strictly at most one is tied with a given value. -/
theorem Coherent.filter_reverse {vs : List Value} {x : Value} (hvs : ∀ v ∈ vs, P v) (hx : P x)
    (h : StrictlyAscending vs) : vs.reverse.filter (tied x) = vs.filter (tied x) := by
  have hties : (vs.filter (tied x)).Pairwise fun _ _ => False := by
    refine (h.filter (tied x)).imp_of_mem fun {v w} hv hw hless => ?_
    obtain ⟨hmem, hxv⟩ := List.mem_filter.mp hv
    obtain ⟨hmem', hxw⟩ := List.mem_filter.mp hw
    have hfalse := coherent.not_tied_of_less hx (hvs v hmem) (hvs w hmem') hxv hless
    exact absurd (hfalse.symm.trans hxw) (by simp)
  rw [List.filter_reverse]
  generalize vs.filter (tied x) = ties at hties
  match ties with
  | [] => rfl
  | [_] => rfl
  | _ :: _ :: _ => exact ((List.pairwise_cons.mp hties).1 _ List.mem_cons_self).elim

/-! ## 3. Each part of sorting -/

theorem Coherent.filter_splitRun {vs : List Value} {x : Value} (hvs : ∀ v ∈ vs, P v) (hx : P x) :
    ((splitRun vs).1 ++ (splitRun vs).2).filter (tied x) = vs.filter (tied x) := by
  match vs with
  | [] => rfl
  | [v] => rfl
  | v :: w :: rest =>
    have hperm := splitRun_perm (v :: w :: rest)
    obtain ⟨hv, hw, hrest⟩ : P v ∧ P w ∧ ∀ x ∈ rest, P x := by simpa using hvs
    rw [splitRun] at hperm ⊢
    split
    · next hless =>
      rw [if_pos hless] at hperm
      have hrun : ∀ u ∈ (descendingRun w [w, v] rest).1, P u := fun u hu =>
        hvs u (hperm.mem_iff.mp (List.mem_append_left _ hu))
      have hpair : ∀ u ∈ [w, v], P u := by simp [hv, hw]
      have hstrict : StrictlyAscending (descendingRun w [w, v] rest).1 :=
        coherent.strictlyAscending_descendingRun hpair hrest (by simpa [StrictlyAscending])
      rw [List.filter_append, ← coherent.filter_reverse hrun hx hstrict, ← List.filter_append,
        descendingRun_eq]
      rfl
    · exact congrArg _ (ascendingRun_eq w [w, v] rest)

/-- A value is inserted behind all that it is tied with. -/
theorem Coherent.filter_insertSorted {v : Value} {sorted : List Value} {x : Value} (hv : P v)
    (hsorted : ∀ w ∈ sorted, P w) (hx : P x) (hasc : Ascending sorted) :
    (insertSorted sorted v).filter (tied x) = (sorted ++ [v]).filter (tied x) := by
  obtain ⟨front, back, rfl, heq, -, hback⟩ := coherent.exists_insertSorted_eq hv hsorted hasc
  rw [heq]
  cases hxv : tied x v with
  | false => simp [hxv]
  | true =>
    have hnone : back.filter (tied x) = [] := by
      refine List.filter_eq_nil_iff.mpr fun w hw => ?_
      rw [coherent.not_tied_of_less hx hv (hsorted w (List.mem_append_right _ hw)) hxv
        (hback w hw)]
      exact Bool.false_ne_true
    simp [hxv, hnone]

theorem Coherent.filter_foldl {run rest : List Value} {x : Value} (hrun : ∀ v ∈ run, P v)
    (hrest : ∀ v ∈ rest, P v) (hx : P x) (hasc : Ascending run) :
    (rest.foldl insertSorted run).filter (tied x) = (run ++ rest).filter (tied x) := by
  induction rest generalizing run with
  | nil => rw [List.append_nil, List.foldl_nil]
  | cons v rest ih =>
    obtain ⟨hv, hrest⟩ := List.forall_mem_cons.mp hrest
    have hinserted : ∀ w ∈ insertSorted run v, P w := by
      intro w hw
      rcases List.mem_cons.mp ((insertSorted_perm run v).mem_iff.mp hw) with rfl | hw
      · exact hv
      · exact hrun w hw
    rw [List.foldl_cons, ih hinserted hrest (coherent.ascending_insertSorted hv hrun hasc),
      List.filter_append, coherent.filter_insertSorted hv hrun hx hasc, ← List.filter_append,
      List.append_assoc, List.singleton_append]

theorem Coherent.filter_mergeSort {vs : List Value} {x : Value} (hvs : ∀ v ∈ vs, P v) (hx : P x) :
    (vs.mergeSort fun v w => !w.less v).filter (tied x) = vs.filter (tied x) := by
  have hp : ∀ v w : {v // P v}, tied x v.1 = true → tied x w.1 = true → notAbove v w = true := by
    intro v w hxv hxw
    simpa [notAbove] using coherent.trans v.2 hx w.2 (tied_iff.mp hxv).1 (tied_iff.mp hxw).2
  have hmerged := DiceNotation.filter_mergeSort coherent.notAbove_trans coherent.notAbove_total hp
    (vs.attachWith P hvs)
  calc (vs.mergeSort fun v w => !w.less v).filter (tied x)
      = (((vs.attachWith P hvs).mergeSort notAbove).map Subtype.val).filter (tied x) := by
        rw [mergeSort_eq_map hvs]
    _ = (((vs.attachWith P hvs).mergeSort notAbove).filter fun v => tied x v.1).map Subtype.val :=
        List.filter_map
    _ = ((vs.attachWith P hvs).filter fun v => tied x v.1).map Subtype.val := by rw [hmerged]
    _ = ((vs.attachWith P hvs).map Subtype.val).filter (tied x) := by
        rw [List.filter_map]
        rfl
    _ = vs.filter (tied x) := by rw [List.attachWith_map_subtype_val]

/-- **Sorting keeps the order of values that are tied.** -/
theorem Coherent.filter_sort {vs : List Value} {x : Value} (hvs : ∀ v ∈ vs, P v) (hx : P x) :
    (sort vs).filter (tied x) = vs.filter (tied x) := by
  rw [sort]
  split
  · have hsplit : ∀ v ∈ (splitRun vs).1 ++ (splitRun vs).2, P v := fun v hv =>
      hvs v ((splitRun_perm vs).mem_iff.mp hv)
    obtain ⟨hrun, hrest⟩ := List.forall_mem_append.mp hsplit
    have hfold := coherent.filter_foldl hrun hrest hx (coherent.ascending_splitRun hvs)
    exact hfold.trans (coherent.filter_splitRun hvs hx)
  · exact coherent.filter_mergeSort hvs hx

end Coherent

/-! ## 4. Orders that turn round with their operands -/

theorem less_eq_false_iff {v w : Value} (hswap : v.compare w = (w.compare v).swap) :
    w.less v = false ↔ (v.compare w).isLE = true := by
  rw [less, hswap]
  cases w.compare v <;> decide

theorem tied_eq_equiv {v w : Value} (hswap : v.compare w = (w.compare v).swap) :
    tied v w = v.equiv w := by
  rw [tied, less, less, equiv, hswap]
  cases w.compare v <;> rfl

/-- An order that turns round with its operands and is transitive is consistent. -/
theorem coherent_of_trans {P : Value → Prop}
    (hswap : ∀ v w, P v → P w → v.compare w = (w.compare v).swap)
    (htrans : ∀ u v w, P u → P v → P w → (u.compare v).isLE → (v.compare w).isLE →
      (u.compare w).isLE) : Coherent P where
  asymm {v w} hv hw h := by
    rw [less, beq_iff_eq] at h
    rw [less, hswap w v hw hv, h]
    rfl
  trans {u v w} hu hv hw huv hvw := by
    rw [less_eq_false_iff (hswap u v hu hv)] at huv
    rw [less_eq_false_iff (hswap v w hv hw)] at hvw
    rw [less_eq_false_iff (hswap u w hu hw)]
    exact htrans u v w hu hv hw huv hvw

theorem compare_swap_of_hasDepth {n : Nat} {v w : Value} (hv : v.HasDepth n) (hw : w.HasDepth n) :
    v.compare w = (w.compare v).swap :=
  (transCmp_hasDepth n).eq_swap (a := ⟨v, hv⟩) (b := ⟨w, hw⟩)

/-- **The order of values of one depth is consistent.** -/
theorem coherent_hasDepth (n : Nat) : Coherent (HasDepth n) :=
  coherent_of_trans (fun _ _ hv hw => compare_swap_of_hasDepth hv hw) fun u v w hu hv hw =>
    (transCmp_hasDepth n).isLE_trans (a := ⟨u, hu⟩) (b := ⟨v, hv⟩) (c := ⟨w, hw⟩)

/-! ## 5. Sorting values of one depth -/

/-- **Sorting is stable.**  Whatever the values are, it rearranges them.  Values of one depth ascend
afterwards, each of them and any that stands behind it, and those that compare as equal with any one
value are the same list as before. -/
theorem sort_stable :
    (∀ vs : List Value, (sort vs).Perm vs) ∧
    ∀ (n : Nat) (vs : List Value), (∀ v ∈ vs, v.HasDepth n) →
      (sort vs).Pairwise (fun v w => (v.compare w).isLE) ∧
      ∀ x : Value, x.HasDepth n → (sort vs).filter x.equiv = vs.filter x.equiv := by
  constructor
  · exact sort_perm
  intro n vs hvs
  have coherent := coherent_hasDepth n
  have hsorted : ∀ v ∈ sort vs, v.HasDepth n := fun v hv => hvs v ((sort_perm vs).mem_iff.mp hv)
  constructor
  · refine (coherent.ascending_sort hvs).imp_of_mem ?_
    intro v w hv hw hless
    have hswap := compare_swap_of_hasDepth (hsorted v hv) (hsorted w hw)
    exact (less_eq_false_iff hswap).mp hless
  · intro x hx
    have hequiv : ∀ vs : List Value, (∀ v ∈ vs, v.HasDepth n) →
        vs.filter x.equiv = vs.filter (tied x) := by
      intro vs hvs
      refine List.filter_congr fun v hv => ?_
      exact (tied_eq_equiv (compare_swap_of_hasDepth hx (hvs v hv))).symm
    rw [hequiv _ hsorted, hequiv _ hvs, coherent.filter_sort hvs hx]

/-- Characters, their code points, and numbers that differ in the seventh place only. -/
theorem sort_stable_code_points :
    let vs : List Value := [char 'b', int 98, char 'a', real 97.0000001, int 97]
    (∀ v ∈ vs, v.HasDepth 0) ∧
      sort vs = [char 'a', real 97.0000001, int 97, char 'b', int 98] ∧
      (sort vs).filter (int 97).equiv = vs.filter (int 97).equiv := by
  intro vs
  have hvs : ∀ v ∈ vs, v.HasDepth 0 := by
    simp only [vs, List.forall_mem_cons, HasDepth.scalar, true_and]
    exact fun _ h => absurd h List.not_mem_nil
  have hsort : sort vs = [char 'a', real 97.0000001, int 97, char 'b', int 98] := by
    decide +kernel
  obtain ⟨-, hstable⟩ := sort_stable.2 0 vs hvs
  exact ⟨hvs, hsort, hstable (int 97) (.scalar _)⟩

end Value

end DiceNotation
