/-
# What a keep of an array selects

A keep of an array forces the elements in order, each of them once, up to the first array
(`forceScalars_append`).  From the numbers that it has then it takes some places: those of the
greatest or of the least, and of equal numbers the earlier ones (`Keep.Takes`).  There is only one
way to do that (`Keep.Takes.unique`), and it is what comes out of sorting twice
(`Keep.exists_takes`), once by what the keep prefers and then back into the original order.

That equal numbers are not swapped rests on two things: their order is a consistent one, and the
sort is stable.
-/
import DiceNotation.Proofs.Effects
import DiceNotation.Proofs.Value.Stability
import DiceNotation.Selection

namespace DiceNotation

namespace Keep

/-! ## 1. What a keep prefers -/

/-- The order in which a keep takes numbers. -/
def order (k : Keep) (x y : Scalar) : Ordering :=
  match k with
  | .highest => y.compare x
  | .lowest => x.compare y

instance (k : Keep) : Std.TransCmp k.order := by
  have hleast : Std.TransCmp Scalar.compare := inferInstance
  have hgreatest : Std.TransCmp fun x y : Scalar => y.compare x := Std.TransCmp.opposite
  cases k with
  | highest => exact hgreatest
  | lowest => exact hleast

theorem prefers_eq (k : Keep) (x y : Scalar) : k.prefers x y = (k.order x y).isLE := by
  cases k with
  | highest =>
    have hswap : y.compare x = (x.compare y).swap := Std.OrientedCmp.eq_swap
    rw [prefers, order, hswap]
    cases x.compare y <;> rfl
  | lowest =>
    rw [prefers, order]
    cases x.compare y <;> rfl

theorem order_eq_iff {k : Keep} {x y : Scalar} : k.order x y = .eq ↔ x.compare y = .eq := by
  cases k with
  | highest => exact Std.OrientedCmp.eq_comm
  | lowest => exact Iff.rfl

theorem prefers_trans (k : Keep) (x y z : Scalar) :
    k.prefers x y = true → k.prefers y z = true → k.prefers x z = true := by
  rw [prefers_eq, prefers_eq, prefers_eq]
  exact Std.TransCmp.isLE_trans

theorem prefers_total (k : Keep) (x y : Scalar) : (k.prefers x y || k.prefers y x) = true := by
  have hswap : k.order x y = (k.order y x).swap := Std.OrientedCmp.eq_swap
  rw [prefers_eq, prefers_eq, hswap]
  cases k.order y x <;> rfl

/-- Of equal numbers each is preferred to the other. -/
theorem prefers_of_compare_eq (k : Keep) {x y : Scalar} (h : x.compare y = .eq) :
    k.prefers x y = true := by
  rw [prefers_eq, order_eq_iff.mpr h]
  rfl

theorem compare_eq_of_prefers {k : Keep} {x y : Scalar} (hxy : k.prefers x y = true)
    (hyx : k.prefers y x = true) : x.compare y = .eq := by
  have hswap : k.order y x = (k.order x y).swap := Std.OrientedCmp.eq_swap
  rw [prefers_eq] at hxy hyx
  rw [hswap] at hyx
  exact order_eq_iff.mp (Ordering.eq_eq_of_isLE_of_isLE_swap hxy hyx)

/-! ## 2. Ranked elements -/

/-- The elements of a list with their places, in the order in which a keep prefers them. -/
def rank (k : Keep) (xs : List Scalar) : List (Scalar × Nat) :=
  xs.zipIdx.mergeSort fun a b => k.prefers a.1 b.1

/-- Whether an element at its place is ranked in front of another: it is preferred, and it is the
earlier one if the two are equal. -/
def Outranks (k : Keep) (a b : Scalar × Nat) : Prop :=
  k.prefers a.1 b.1 = true ∧ (a.1.compare b.1 = .eq → a.2 < b.2)

theorem mem_rank_iff {k : Keep} {xs : List Scalar} {a : Scalar × Nat} :
    a ∈ k.rank xs ↔ xs[a.2]? = some a.1 := by
  rw [rank, List.mem_mergeSort, List.mem_zipIdx_iff_getElem?]

/-- **Equal elements are ranked in their original order.** -/
theorem filter_rank (k : Keep) (xs : List Scalar) (x : Scalar) :
    (k.rank xs).filter (fun a => x.compare a.1 == .eq) =
      xs.zipIdx.filter fun a => x.compare a.1 == .eq := by
  -- elements that equal `x` equal each other, so that they are in order as they stand
  refine filter_mergeSort (fun a b c => k.prefers_trans a.1 b.1 c.1)
    (fun a b => k.prefers_total a.1 b.1) (fun a b ha hb => k.prefers_of_compare_eq ?_) xs.zipIdx
  rw [← Std.TransCmp.congr_left (beq_iff_eq.mp ha)]
  exact beq_iff_eq.mp hb

theorem pairwise_rank (k : Keep) (xs : List Scalar) : (k.rank xs).Pairwise k.Outranks := by
  have hpreferred : (k.rank xs).Pairwise fun a b => k.prefers a.1 b.1 = true :=
    List.pairwise_mergeSort (fun a b c => k.prefers_trans a.1 b.1 c.1)
      (fun a b => k.prefers_total a.1 b.1) _
  have hplaces : xs.zipIdx.Pairwise fun a b => a.2 < b.2 := by
    rw [← List.pairwise_map (R := (· < ·)), List.zipIdx_map_snd]
    exact List.pairwise_lt_range'
  refine List.pairwise_iff_forall_sublist.mpr fun {a b} hab => ?_
  refine ⟨List.pairwise_iff_forall_sublist.mp hpreferred hab, fun hequal => ?_⟩
  have hself : a.1.compare a.1 = .eq := Std.ReflCmp.compare_self
  -- the two are still there, and in this order, among the elements equal to the first of them
  have hfiltered := hab.filter fun c => a.1.compare c.1 == .eq
  rw [filter_rank, List.filter_cons_of_pos (by simp [hself]),
    List.filter_cons_of_pos (by simp [hequal]), List.filter_nil] at hfiltered
  exact List.pairwise_iff_forall_sublist.mp hplaces (hfiltered.trans List.filter_sublist)

/-! ## 3. The places that a keep takes -/

/-- Whether a keep of `n` numbers takes those at some places: as many as there are, but no more than
`n`, listed in order, and every one as great, or as small, as all that are left out; of equal ones
no earlier one is left out. -/
structure Takes (k : Keep) (n : Nat) (xs : List Scalar) (places : List (Fin xs.length)) : Prop where
  ascending : places.Pairwise (· < ·)
  length_eq : places.length = min n xs.length
  greatest : k = .highest → ∀ i ∈ places, ∀ j ∉ places, (xs[i].compare xs[j]).isGE = true
  least : k = .lowest → ∀ i ∈ places, ∀ j ∉ places, (xs[i].compare xs[j]).isLE = true
  earlier : ∀ i ∈ places, ∀ j ∉ places, xs[i].compare xs[j] = .eq → i < j

theorem Takes.prefers {k : Keep} {n : Nat} {xs : List Scalar} {places : List (Fin xs.length)}
    (h : k.Takes n xs places) {i j : Fin xs.length} (hi : i ∈ places) (hj : j ∉ places) :
    k.prefers xs[i] xs[j] = true := by
  rw [prefers_eq]
  cases k with
  | highest => exact Std.OrientedCmp.isGE_iff_isLE.mp (h.greatest rfl i hi j hj)
  | lowest => exact h.least rfl i hi j hj

theorem Takes.subset {k : Keep} {n : Nat} {xs : List Scalar} {places others : List (Fin xs.length)}
    (h : k.Takes n xs places) (h' : k.Takes n xs others) : places ⊆ others := by
  intro i hi
  by_contra hi'
  have hcount : places.length = others.length := h.length_eq.trans h'.length_eq.symm
  have hnodup : others.Nodup := h'.ascending.imp ne_of_lt
  -- the other places are as many, so that one of them is left out here
  obtain ⟨j, hj', hj⟩ : ∃ j ∈ others, j ∉ places := by
    by_contra hnone
    push Not at hnone
    have hperm := (List.subperm_of_subset hnodup hnone).perm_of_length_le hcount.le
    exact hi' (hperm.mem_iff.mpr hi)
  have hequal := compare_eq_of_prefers (h.prefers hi hj) (h'.prefers hj' hi')
  have hequal' := compare_eq_of_prefers (h'.prefers hj' hi') (h.prefers hi hj)
  exact lt_asymm (h.earlier i hi j hj hequal) (h'.earlier j hj' i hi' hequal')

/-- **There is one way only to take the right places.** -/
theorem Takes.unique {k : Keep} {n : Nat} {xs : List Scalar} {places others : List (Fin xs.length)}
    (h : k.Takes n xs places) (h' : k.Takes n xs others) : places = others := by
  have hnodup : places.Nodup := h.ascending.imp ne_of_lt
  have hperm := (List.subperm_of_subset hnodup (h.subset h')).perm_of_length_le
    (h'.length_eq.trans h.length_eq.symm).le
  exact List.Perm.eq_of_pairwise (fun i j _ _ hij hji => absurd hji hij.asymm) h.ascending
    h'.ascending hperm

/-! ## 4. The places that a selection takes -/

/-- The front of the ranked elements outranks the others. -/
theorem outranks_of_mem_take {k : Keep} {n : Nat} {xs : List Scalar} {a b : Scalar × Nat}
    (ha : a ∈ (k.rank xs).take n) (hb : b ∈ k.rank xs) (hb' : b ∉ (k.rank xs).take n) :
    k.Outranks a b := by
  have hpairwise := k.pairwise_rank xs
  rw [← List.take_append_drop n (k.rank xs), List.pairwise_append] at hpairwise
  rw [← List.take_append_drop n (k.rank xs), List.mem_append] at hb
  exact hpairwise.2.2 a ha b (hb.resolve_left hb')

theorem nodup_rank (k : Keep) (xs : List Scalar) : (k.rank xs).Nodup := by
  have hplaces : (xs.zipIdx.map Prod.snd).Nodup := by
    rw [List.zipIdx_map_snd]
    exact List.nodup_range'
  exact (List.mergeSort_perm _ _).nodup_iff.mpr hplaces.of_map

/-- An element with its place. -/
def placed (xs : List Scalar) (i : Fin xs.length) : Scalar × Nat := (xs[i], i.1)

theorem placed_injective (xs : List Scalar) : Function.Injective (placed xs) :=
  fun _ _ h => Fin.ext (congrArg Prod.snd h)

theorem placed_mem_rank (k : Keep) {xs : List Scalar} (i : Fin xs.length) :
    placed xs i ∈ k.rank xs :=
  mem_rank_iff.mpr (List.getElem?_eq_getElem i.2)

theorem exists_placed_of_mem_rank {k : Keep} {xs : List Scalar} {a : Scalar × Nat}
    (h : a ∈ k.rank xs) : ∃ i, placed xs i = a := by
  obtain ⟨hplace, hget⟩ := List.getElem?_eq_some_iff.mp (mem_rank_iff.mp h)
  exact ⟨⟨a.2, hplace⟩, Prod.ext hget rfl⟩

/-- A selection takes the places that are ranked at the front, and lists them in order. -/
theorem exists_places (k : Keep) (n : Nat) (xs : List Scalar) :
    ∃ places : List (Fin xs.length), k.select n xs = places.map (fun i => xs[i]) ∧
      places.Pairwise (· < ·) ∧ (places.map (placed xs)).Perm ((k.rank xs).take n) := by
  let chosen := ((k.rank xs).take n).mergeSort fun a b => a.2 ≤ b.2
  have hperm : chosen.Perm ((k.rank xs).take n) := List.mergeSort_perm _ _
  obtain ⟨places, hplaces⟩ : chosen ∈ Set.range (List.map (placed xs)) := by
    rw [Set.range_list_map]
    intro a ha
    exact exists_placed_of_mem_rank (List.mem_of_mem_take (hperm.mem_iff.mp ha))
  have hnodup : (places.map (placed xs)).Nodup := by
    rw [hplaces, hperm.nodup_iff]
    exact (k.nodup_rank xs).sublist (List.take_sublist n _)
  have hascending : (places.map (placed xs)).Pairwise fun a b => decide (a.2 ≤ b.2) = true := by
    rw [hplaces]
    exact List.pairwise_mergeSort (by simp; omega) (by simp; omega) _
  rw [List.pairwise_map] at hascending
  refine ⟨places, ?_, ?_, hplaces ▸ hperm⟩
  · have hselect : k.select n xs = chosen.map Prod.fst := rfl
    rw [hselect, ← hplaces, List.map_map]
    rfl
  · exact hascending.imp₂ (fun i j hij hne => lt_of_le_of_ne (of_decide_eq_true hij) hne)
      hnodup.of_map

/-- **A selection takes the right places.** -/
theorem exists_takes (k : Keep) (n : Nat) (xs : List Scalar) :
    ∃ places, k.Takes n xs places ∧ k.select n xs = places.map fun i => xs[i] := by
  obtain ⟨places, hselect, hascending, hperm⟩ := k.exists_places n xs
  have hlength : places.length = min n xs.length := by
    rw [← places.length_map, hperm.length_eq, List.length_take, rank, List.length_mergeSort,
      List.length_zipIdx]
  have hmem (i : Fin xs.length) : i ∈ places ↔ placed xs i ∈ (k.rank xs).take n := by
    rw [← hperm.mem_iff, List.mem_map_of_injective (placed_injective xs)]
  have houtranks {i j : Fin xs.length} (hi : i ∈ places) (hj : j ∉ places) :
      k.Outranks (placed xs i) (placed xs j) :=
    outranks_of_mem_take ((hmem i).mp hi) (k.placed_mem_rank j) fun h => hj ((hmem j).mpr h)
  refine ⟨places, ⟨hascending, hlength, ?_, ?_, fun i hi j hj => (houtranks hi hj).2⟩, hselect⟩
  · rintro rfl i hi j hj
    have hpreferred := (houtranks hi hj).1
    rw [prefers_eq] at hpreferred
    exact Std.OrientedCmp.isGE_iff_isLE.mpr hpreferred
  · rintro rfl i hi j hj
    have hpreferred := (houtranks hi hj).1
    rw [prefers_eq] at hpreferred
    exact hpreferred

end Keep

/-! ## 5. Forcing the elements -/

/-- **Elements that are scalars are forced in order, each once**, and leave those that are
numbers. -/
theorem forceScalars_append {operation : String} {front rest : List Operand}
    {done scalars : List Scalar} {s s₁ : Session}
    (h : front.mapM Operand.force s = .ok (scalars.map .scalar) s₁) :
    forceScalars operation done (front ++ rest) s =
      forceScalars operation ((scalars.filter fun x => !x.isNaN).reverse ++ done) rest s₁ := by
  induction front generalizing done scalars s with
  | nil =>
    rw [List.mapM_nil] at h
    cases scalars with
    | nil =>
      cases h
      rfl
    | cons x scalars => cases h
  | cons item front ih =>
    rw [List.mapM_cons] at h
    obtain ⟨x, s₂, hforce, h⟩ := bind_eq_ok_iff.mp h
    obtain ⟨xs, s₃, hfront, h⟩ := bind_eq_ok_iff.mp h
    cases scalars with
    | nil => cases h
    | cons y scalars =>
      cases h
      rw [List.cons_append, forceScalars, bind_of_eq_ok hforce]
      dsimp only
      rw [ih hfront]
      cases hnumber : y.isNaN with
      | true => simp [hnumber]
      | false => simp [hnumber]

theorem keepItems_of_scalars {items : List Operand} {scalars : List Scalar} {s s' : Session}
    (h : items.mapM Operand.force s = .ok (scalars.map .scalar) s') (n : Nat) (k : Keep)
    (operation : String) :
    keepItems items n k operation s =
      .ok ((k.select n (scalars.filter fun x => !x.isNaN)).map .scalar) s' := by
  have hforce : forceScalars operation [] items s =
      .ok (scalars.filter fun x => !x.isNaN) s' := by
    rw [← items.append_nil, forceScalars_append h, forceScalars, List.append_nil,
      List.reverse_reverse]
    rfl
  rw [keepItems, bind_of_eq_ok hforce, Int.toNat_natCast]
  rfl

theorem keepItems_of_array {front rest : List Operand} {x : Operand} {scalars : List Scalar}
    {ys : List Operand} {s s₁ s₂ : Session}
    (hfront : front.mapM Operand.force s = .ok (scalars.map .scalar) s₁)
    (hx : x.force s₁ = .ok (.array ys) s₂) (amount : Int) (k : Keep) (operation : String) :
    keepItems (front ++ x :: rest) amount k operation s =
      .error (.error (.nestedArray operation)) s₂ := by
  have hforce : forceScalars operation [] (front ++ x :: rest) s =
      .error (.error (.nestedArray operation)) s₂ := by
    rw [forceScalars_append hfront, forceScalars, bind_of_eq_ok hx]
    rfl
  rw [keepItems, bind_of_eq_error hforce]

/-! ## 6. Keeping -/

/-- **A keep of an array takes the right elements.**  If all elements are forced to scalars, one
after the other, then it ends where that ends, and leaves of the numbers among them those at the
places that a keep of `n` takes, in their original order; there are no other such places.  If the
elements are forced to scalars up to one that is forced to an array, then that is an error of type,
and no element behind it is forced. -/
theorem keepItems_selects (items : List Operand) (n : Nat) (k : Keep) (operation : String)
    (s : Session) :
    (∀ (scalars : List Scalar) (s' : Session),
      items.mapM Operand.force s = .ok (scalars.map .scalar) s' →
      let numbers := scalars.filter fun x => !x.isNaN
      ∃ places : List (Fin numbers.length), k.Takes n numbers places ∧
        (∀ others, k.Takes n numbers others → others = places) ∧
        keepItems items n k operation s = .ok (places.map fun i => .scalar numbers[i]) s') ∧
    ∀ (front rest : List Operand) (x : Operand) (scalars : List Scalar) (ys : List Operand)
      (s₁ s₂ : Session), items = front ++ x :: rest →
      front.mapM Operand.force s = .ok (scalars.map .scalar) s₁ →
      x.force s₁ = .ok (.array ys) s₂ →
      keepItems items n k operation s = .error (.error (.nestedArray operation)) s₂ ∧
        (EvalError.nestedArray operation).category = .type := by
  refine ⟨fun scalars s' hforce => ?_, ?_⟩
  · intro numbers
    obtain ⟨places, htakes, hselect⟩ := k.exists_takes n numbers
    refine ⟨places, htakes, fun others h => h.unique htakes, ?_⟩
    rw [keepItems_of_scalars hforce, hselect, List.map_map]
    rfl
  · rintro front rest x scalars ys s₁ s₂ rfl hfront hx
    exact ⟨keepItems_of_array hfront hx n k operation, rfl⟩

/-- The two greatest of 2, no number, 1 die that shows 3, and 2 again; and the same elements with an
array in front of the last. -/
theorem keepItems_selects_two_greatest :
    let front : List Operand :=
      [.scalar (.int 2), .scalar (.real (0 / 0)), .pool (.ofSides 1 #[.int 3])]
    let scalars : List Scalar := [.int 2, .real (0 / 0), .int 3]
    let s : Session := { tray := { source := .script [0] } }
    let s' : Session := { tray := { source := .script [], drawn := 1, budget := { steps := 1 } } }
    let numbers := (scalars ++ [Scalar.int 2]).filter fun x => !x.isNaN
    (∃ places : List (Fin numbers.length), Keep.highest.Takes 2 numbers places ∧
      keepItems (front ++ [Operand.scalar (.int 2)]) 2 .highest "keep" s =
        .ok (places.map fun i => .scalar numbers[i]) s') ∧
    keepItems (front ++ [.array [], .scalar (.int 2)]) 2 .highest "keep" s =
      .error (.error (.nestedArray "keep")) s' := by
  intro front scalars s s' numbers
  have hforce : (front ++ [Operand.scalar (.int 2)]).mapM Operand.force s =
      .ok ((scalars ++ [Scalar.int 2]).map .scalar) s' := rfl
  have hfront : front.mapM Operand.force s = .ok (scalars.map .scalar) s' := rfl
  have harray : (Operand.array []).force s' = .ok (.array []) s' := rfl
  obtain ⟨places, htakes, -, hkept⟩ := (keepItems_selects _ 2 .highest "keep" s).1 _ _ hforce
  obtain ⟨hfails, -⟩ := (keepItems_selects _ 2 .highest "keep" s).2 front _ _ _ _ _ _ rfl hfront
    harray
  exact ⟨⟨places, htakes, hkept⟩, hfails⟩

end DiceNotation
