/-
# Separate dice and the dice of a pool

Some dice can be kept in two ways.  A pool narrows its range, and its rolls are sorted and cut; an
array of as many single dice is rolled element by element, and a selection leaves some of its
elements where they are.  Both come to the same (`Pool.keep_separate_dice`): the dice are rolled in
the same order with the same steps, and what is summed is, up to its order, one end of the sorted
numbers.

That a selection takes one end of a list is true of any scalars (`Keep.select_perm`), with the list
ranked as the keep prefers; on integers the ranked list is the sorted list, or its reverse.
-/
import DiceNotation.Proofs.Evaluation.Forcing
import DiceNotation.Proofs.Rolling.KeptRange

namespace DiceNotation

/-! ## 1. What a selection takes -/

namespace Keep

/-- **A selection takes the front of the ranked list**, up to the order of the elements. -/
theorem select_perm (k : Keep) (n : Nat) (xs : List Scalar) :
    (k.select n xs).Perm ((xs.mergeSort k.prefers).take n) := by
  have hranked : (xs.zipIdx.mergeSort fun a b => k.prefers a.1 b.1).map Prod.fst =
      xs.mergeSort k.prefers := by
    rw [List.map_mergeSort (s := k.prefers) fun _ _ _ _ => rfl, List.zipIdx_map_fst]
  rw [← hranked, ← List.map_take]
  exact (List.mergeSort_perm _ _).map Prod.fst

/-- The order in which a keep ranks integers. -/
def ranks (k : Keep) (m n : Int) : Bool :=
  match k with
  | .highest => decide (m ≥ n)
  | .lowest => decide (m ≤ n)

theorem prefers_int (k : Keep) (m n : Int) : k.prefers (.int m) (.int n) = k.ranks m n := by
  have hcompare : (Scalar.int m).compare (.int n) =
      if m < n then .lt else if n < m then .gt else .eq := by
    change Quantity.compareRat m n = _
    simp only [Quantity.compareRat, Rat.intCast_lt_intCast]
  cases k with
  | highest =>
    simp only [prefers, ranks, hcompare]
    grind
  | lowest =>
    simp only [prefers, ranks, hcompare]
    grind

/-- The ranked integers are the sorted ones, with the greatest in front for a keep of the greatest,
so that the front of the one is an end of the other. -/
theorem take_ranked_perm (k : Keep) (amount : Nat) (ns : List Int) :
    ((ns.mergeSort k.ranks).take amount).Perm
      (k.takeFrom amount (ns.mergeSort fun m n => decide (m ≤ n))) := by
  cases k with
  | lowest => exact .refl _
  | highest =>
    have hascending := List.pairwise_mergeSort' (· ≤ ·) ns
    have hreverse : ns.mergeSort (fun m n => decide (m ≥ n)) =
        (ns.mergeSort fun m n => decide (m ≤ n)).reverse := by
      refine List.Perm.eq_of_pairwise' (List.pairwise_mergeSort' (· ≥ ·) ns)
        (List.pairwise_reverse.mpr hascending) ?_
      exact (List.mergeSort_perm ns _).trans
        ((List.mergeSort_perm ns _).symm.trans (List.reverse_perm _).symm)
    change ((ns.mergeSort fun m n => decide (m ≥ n)).take amount).Perm _
    rw [hreverse, List.take_reverse]
    exact List.reverse_perm _

/-- A selection of integers takes integers, and as a sum one end of the sorted list. -/
theorem select_ints (k : Keep) (amount : Nat) (ns : List Int) :
    ∃ kept : List Int, k.select amount (ns.map .int) = kept.map .int ∧
      kept.sum = (k.takeFrom amount (ns.mergeSort fun m n => decide (m ≤ n))).sum := by
  have hranked : (ns.map Scalar.int).mergeSort k.prefers = (ns.mergeSort k.ranks).map .int :=
    (List.map_mergeSort fun m _ n _ => (k.prefers_int m n).symm).symm
  have hselect := k.select_perm amount (ns.map .int)
  rw [hranked, ← List.map_take] at hselect
  -- what is a permutation of some integers consists of integers
  obtain ⟨kept, hkept, hperm⟩ := (congrFun₂ (List.eq_map_comp_perm Scalar.int) _ _).mpr hselect
  exact ⟨kept, hkept, (hperm.trans (k.take_ranked_perm amount ns)).sum_eq⟩

theorem mem_of_mem_takeFrom {α : Type} {k : Keep} {n : Nat} {xs : List α} {a : α}
    (h : a ∈ k.takeFrom n xs) : a ∈ xs := by
  cases k with
  | highest => exact List.mem_of_mem_drop h
  | lowest => exact List.mem_of_mem_take h

end Keep

/-! ## 2. Dice of one kind -/

namespace Pool

/-- A dice term for `n` dice that explodes on `triggers`. -/
def dice (n : Nat) (sides : Array Value) (triggers : List Value) : Pool :=
  (ofSides n sides).explodeOn triggers

/-- A die does not depend on how many others there are, nor on which of them count. -/
theorem rollNumbers_eq (p : Pool) (n : Nat) :
    p.rollNumbers n = (dice 1 p.sides p.triggers).rollNumbers n := by
  have hdie : p.rollNumber = (dice 1 p.sides p.triggers).rollNumber := rfl
  induction n with
  | zero => rfl
  | succ n ih => rw [rollNumbers, rollNumbers, ih, hdie]

/-- The range that a keep leaves of all dice is one end of them. -/
theorem orderStatistics_keep (k : Keep) (sides : Array Value) (triggers : List Value)
    (ns : List Int) (amount : Nat) :
    orderStatistics ns ((dice ns.length sides triggers).keep k amount).lowest
        ((dice ns.length sides triggers).keep k amount).highest =
      k.takeFrom amount (ns.mergeSort fun m n => decide (m ≤ n)) := by
  have hlength : (ns.mergeSort fun m n => decide (m ≤ n)).length = ns.length :=
    List.length_mergeSort ns
  cases k with
  | highest =>
    simp only [orderStatistics, keep, dice, explodeOn, ofSides, Keep.takeFrom, hlength]
    rw [List.take_of_length_le (by rw [List.length_drop, hlength]; omega)]
    congr 1
    omega
  | lowest =>
    simp only [orderStatistics, keep, dice, explodeOn, ofSides, Keep.takeFrom]
    rw [Int.toNat_zero, List.drop_zero, List.take_eq_take_iff, hlength]
    omega

/-! ## 3. Separate dice -/

/-- A pool that is rolled to an integer is forced to that integer. -/
theorem forceScalars_cons {p : Pool} {number : Rolling Int} (h : p.roll = Value.int <$> number)
    (operation : String) (done : List Scalar) (items : List Operand) :
    forceScalars operation done (.pool p :: items) = (do
      let n ← number.inSession
      forceScalars operation (.int n :: done) items) := by
  have hroll : (liftM p.roll : Evaluating Value) = Value.int <$> number.inSession := by
    rw [h]
    exact Rolling.inSession_map number Value.int
  rw [forceScalars, Operand.force, hroll]
  simp [Operand.ofValue, Scalar.isNaN]

section Numbers

variable {sides : Array Value} (hsides : ∀ v ∈ sides, v = .int v.number)
  (hsome : sides.isEmpty = false) (triggers : List Value)

include hsides hsome

/-- A single die is rolled to its number. -/
theorem roll_single :
    (dice 1 sides triggers).roll = Value.int <$> (do
      let number ← (dice 1 sides triggers).rollNumber
      payStep
      return number) := by
  have hempty : (dice 1 sides triggers).isEmpty = false := by
    simp [isEmpty, dice, explodeOn, ofSides, hsome]
  have hall : (dice 1 sides triggers).countsAll = true := rfl
  have hnum : (dice 1 sides triggers).num.toNat = 1 := rfl
  have hsum := rollSum_eq_rollNumbers (p := dice 1 sides triggers) hsides 1 none
  rw [Option.map_none] at hsum
  rw [roll, if_neg (by simp [hempty]), if_pos hall, hnum, hsum]
  simp [rollNumbers]

/-- Single dice are forced one after the other, as those of a pool are rolled. -/
theorem forceScalars_single (operation : String) (n : Nat) (done : List Scalar) :
    forceScalars operation done (List.replicate n (.pool (dice 1 sides triggers))) =
      (fun ns => done.reverse ++ ns.map .int) <$>
        ((dice 1 sides triggers).rollNumbers n).inSession := by
  induction n generalizing done with
  | zero => simp [forceScalars, rollNumbers]
  | succ n ih =>
    rw [List.replicate_succ, forceScalars_cons (roll_single hsides hsome triggers), rollNumbers]
    simp [ih]

/-- A pool that a keep has narrowed, but not to nothing, is rolled to one end of its numbers. -/
theorem roll_keep_dice (k : Keep) (n : Nat) {amount : Nat} (hamount : 0 < amount) :
    ((dice n sides triggers).keep k amount).roll = (do
      let ns ← (dice 1 sides triggers).rollNumbers n
      return .int (k.takeFrom amount (ns.mergeSort fun m n => decide (m ≤ n))).sum) := by
  have hnum : ((dice n sides triggers).keep k amount).num.toNat = n := by
    rw [num_keep]
    rfl
  have hkept : ((dice n sides triggers).keep k amount).sides = sides := sides_keep _ k amount
  have htriggers : ((dice n sides triggers).keep k amount).triggers = triggers :=
    triggers_keep _ k amount
  have hpool : ∀ v ∈ ((dice n sides triggers).keep k amount).sides, v = .int v.number :=
    hkept.symm ▸ hsides
  obtain ⟨hlow, hrange, hhigh, hnone⟩ : 0 ≤ ((dice n sides triggers).keep k amount).lowest ∧
      ((dice n sides triggers).keep k amount).lowest ≤
        ((dice n sides triggers).keep k amount).highest + 1 ∧
      ((dice n sides triggers).keep k amount).highest + 1 ≤
        ((dice n sides triggers).keep k amount).num ∧
      (((dice n sides triggers).keep k amount).highest <
        ((dice n sides triggers).keep k amount).lowest ↔ n = 0) := by
    cases k with
    | highest =>
      simp only [keep, dice, explodeOn, ofSides]
      omega
    | lowest =>
      simp only [keep, dice, explodeOn, ofSides]
      omega
  by_cases hn : n = 0
  · subst hn
    have hempty : ((dice 0 sides triggers).keep k amount).isEmpty = true := by
      simp [isEmpty, hnone.mpr rfl]
    rw [roll, if_pos hempty]
    cases k <;> simp [rollNumbers, Keep.takeFrom]
  · have hempty : ((dice n sides triggers).keep k amount).isEmpty = false := by
      simpa [isEmpty, hkept, hsome] using fun h => hn (hnone.mp h)
    rw [roll_eq_rollSorted hpool hlow hrange hhigh hempty, rollSorted_eq hpool hlow hrange hhigh,
      hnum, rollNumbers_eq, hkept, htriggers]
    refine bind_rollNumbers_congr hsides fun ns hlength => ?_
    subst hlength
    rw [orderStatistics_keep]

end Numbers

/-- Dice without faces are not rolled, and each of them is 0. -/
theorem forceScalars_faceless (triggers : List Value) (operation : String) (n : Nat)
    (done : List Scalar) :
    forceScalars operation done (List.replicate n (.pool (dice 1 #[] triggers))) =
      pure (done.reverse ++ (List.replicate n 0).map .int) := by
  have hroll : (dice 1 #[] triggers).roll = Value.int <$> pure 0 := rfl
  induction n generalizing done with
  | zero => simp [forceScalars]
  | succ n ih =>
    rw [List.replicate_succ, forceScalars_cons hroll]
    simp [ih, List.replicate_succ]

end Pool

/-! ## 4. Both ways to keep -/

theorem Operand.forceAllOnto_scalars (ss : List Scalar) (done : List Value) :
    forceAllOnto done (ss.map .scalar) = pure (done.reverse ++ ss.map .scalar) := by
  rw [map_scalar_eq_ofValues, Value.forceAllOnto_ofValues]

/-- Keeps some elements of an array and adds them up. -/
def sumKept (items : List Operand) (amount : Int) (k : Keep) (operation : String) :
    Evaluating Value := do
  let kept ← keepItems items amount k operation
  let values ← Operand.forceAllOnto [] kept
  Value.sum values

theorem sumKept_of_forceScalars {items : List Operand} {operation : String}
    {numbers : Evaluating (List Int)}
    (h : forceScalars operation [] items = (List.map .int ·) <$> numbers) (amount : Nat)
    (k : Keep) :
    sumKept items amount k operation = (do
      let ns ← numbers
      return .int (k.takeFrom amount (ns.mergeSort fun m n => decide (m ≤ n))).sum) := by
  rw [sumKept, keepItems, h]
  simp only [bind_map_left, bind_assoc, pure_bind]
  refine bind_congr fun ns => ?_
  obtain ⟨kept, hkept, hsum⟩ := k.select_ints amount ns
  rw [Int.toNat_natCast, hkept, Operand.forceAllOnto_scalars, ← hsum]
  simp only [pure_bind]
  have hvalues : [].reverse ++ (kept.map Scalar.int).map Value.scalar = kept.map Value.int := by
    simp
  rw [hvalues, Value.sum_ints]
  rfl

/-- **Separate dice and the dice of a pool are kept alike.**  Keeping some of `n` single dice in an
array and adding them up is the same work as rolling `n` dice in a pool of which as many are kept:
the same value, the same draws and the same steps, or the same fault, in every session. -/
theorem Pool.keep_separate_dice (k : Keep) (faces : List Int) (triggers : List Value)
    (n amount : Nat) (hamount : 0 < amount) (operation : String) :
    let sides := (faces.map Value.int).toArray
    sumKept (List.replicate n (.pool ((ofSides 1 sides).explodeOn triggers))) amount k operation =
      (((ofSides n sides).explodeOn triggers).keep k amount).roll.inSession := by
  intro sides
  change sumKept (List.replicate n (.pool (dice 1 sides triggers))) amount k operation =
    ((dice n sides triggers).keep k amount).roll.inSession
  by_cases hsome : sides.isEmpty = false
  · have hsides : ∀ v ∈ sides, v = .int v.number := by
      intro v hv
      obtain ⟨m, -, rfl⟩ := List.mem_map.mp (List.mem_toArray.mp hv)
      rfl
    rw [roll_keep_dice hsides hsome triggers k n hamount,
      sumKept_of_forceScalars (forceScalars_single hsides hsome triggers operation n [])]
    simp
  · obtain rfl : faces = [] := by simpa [sides] using hsome
    have hempty : ((dice n sides triggers).keep k amount).isEmpty = true := by
      cases k <;> rfl
    have hzeros : forceScalars operation [] (List.replicate n (.pool (dice 1 sides triggers))) =
        (List.map .int ·) <$> pure (List.replicate n 0) := by
      rw [map_pure]
      exact forceScalars_faceless triggers operation n []
    have hsum : (k.takeFrom amount
        ((List.replicate n 0).mergeSort fun m n => decide (m ≤ n))).sum = (0 : Int) := by
      refine List.sum_eq_zero fun m hm => List.eq_of_mem_replicate (n := n) ?_
      exact (List.mergeSort_perm _ _).mem_iff.mp (Keep.mem_of_mem_takeFrom hm)
    rw [sumKept_of_forceScalars hzeros, pure_bind, hsum, roll, if_pos hempty]
    rfl

/-- The two highest of three dice that explode on a six, where the dice show 1, then 6 and 3, and
then 2. -/
theorem Pool.keep_separate_dice_two_of_three :
    let faces : List Int := [1, 2, 3, 4, 5, 6]
    let die : Pool := (ofSides 1 (faces.map Value.int).toArray).explodeOn [.int 6]
    let s : Session := { tray := { source := .script [0, 5, 2, 1] } }
    let s' : Session := ⟨⟨.script [], 4, { steps := 4 }⟩, {}⟩
    0 < 2 ∧
      sumKept (List.replicate 3 (.pool die)) 2 .highest "keep-highest" s = .ok (.int 11) s' := by
  intro faces die s s'
  have hroll : ((((ofSides 3 (faces.map Value.int).toArray).explodeOn [.int 6]).keep .highest
      2).roll.inSession) s = .ok (.int 11) s' := by cbv
  have h := Pool.keep_separate_dice .highest faces [.int 6] 3 2 (by decide) "keep-highest"
  exact ⟨by decide, (congrFun h s).trans hroll⟩

end DiceNotation
