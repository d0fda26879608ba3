/-
# What a pool comes to

A pool of dice with integers on their sides is rolled to a sum of **order statistics**: its dice
are rolled one after the other, and of their totals in ascending order those in the range of the
pool are summed (`Pool.roll_eq_orderStatistics`).  When every die counts the pool is not sorted, and
it makes no difference: both ways roll the same numbers with the same steps, and the sum of all of
them does not depend on their order.
-/
import DiceNotation.Proofs.Rolling.NumberDice
import DiceNotation.Proofs.Value.Sorting
import Mathlib

namespace DiceNotation

/-! ## 1. Sums and ranges -/

/-- The numbers at the places from `lowest` to `highest` of some numbers in ascending order. -/
def orderStatistics (ns : List Int) (lowest highest : Int) : List Int :=
  ((ns.mergeSort fun m n => decide (m ≤ n)).drop lowest.toNat).take (highest + 1 - lowest).toNat

theorem length_orderStatistics {ns : List Int} {lowest highest : Int} (hlow : 0 ≤ lowest)
    (hhigh : highest + 1 ≤ ns.length) :
    (orderStatistics ns lowest highest).length = (highest + 1 - lowest).toNat := by
  rw [orderStatistics, List.length_take, List.length_drop, List.length_mergeSort]
  omega

theorem mem_of_mem_orderStatistics {ns : List Int} {lowest highest n : Int}
    (h : n ∈ orderStatistics ns lowest highest) : n ∈ ns :=
  (List.mergeSort_perm ns _).mem_iff.mp (List.mem_of_mem_drop (List.mem_of_mem_take h))

/-- A sum of order statistics lies between as many times the least and the greatest number. -/
theorem sum_orderStatistics_bounds {ns : List Int} {lowest highest lo hi : Int}
    (hlow : 0 ≤ lowest) (hrange : lowest ≤ highest + 1) (hhigh : highest + 1 ≤ ns.length)
    (hlo : ∀ n ∈ ns, lo ≤ n) (hhi : ∀ n ∈ ns, n ≤ hi) :
    (highest - lowest + 1) * lo ≤ (orderStatistics ns lowest highest).sum ∧
      (orderStatistics ns lowest highest).sum ≤ (highest - lowest + 1) * hi := by
  have hlength := length_orderStatistics hlow hhigh
  have hcount : ((orderStatistics ns lowest highest).length : Int) = highest - lowest + 1 := by
    omega
  have hleast := List.card_nsmul_le_sum (orderStatistics ns lowest highest) lo fun n hn =>
    hlo n (mem_of_mem_orderStatistics hn)
  have hgreatest := List.sum_le_card_nsmul (orderStatistics ns lowest highest) hi fun n hn =>
    hhi n (mem_of_mem_orderStatistics hn)
  rw [Int.nsmul_eq_mul, hcount] at hleast hgreatest
  exact ⟨hleast, hgreatest⟩

theorem foldlM_add_ints (m : Int) (ns : List Int) :
    (ns.map Value.int).foldlM Value.add (.int m) = pure (.int (m + ns.sum)) := by
  induction ns generalizing m with
  | nil => simp
  | cons n ns ih => simp [ih, Int.add_assoc]

theorem Value.sum_ints (ns : List Int) : Value.sum (ns.map .int) = pure (.int ns.sum) := by
  cases ns with
  | nil => rfl
  | cons n ns => exact foldlM_add_ints n ns

namespace Pool

theorem clampPlace_of_nonneg {length : Nat} {position : Int} (h : 0 ≤ position)
    (hle : position ≤ length) : clampPlace length position = position.toNat := by
  rw [clampPlace, if_neg (by omega)]
  omega

/-- In a range that lies within the list nothing is clamped. -/
theorem slice_eq {α : Type} {xs : List α} {lowest highest : Int} (hlow : 0 ≤ lowest)
    (hrange : lowest ≤ highest + 1) (hhigh : highest + 1 ≤ xs.length) :
    slice xs lowest (highest + 1) =
      (xs.drop lowest.toNat).take (highest + 1 - lowest).toNat := by
  rw [slice, clampPlace_of_nonneg hlow (by omega), clampPlace_of_nonneg (by omega) hhigh]
  have hsize : (highest + 1).toNat - lowest.toNat = (highest + 1 - lowest).toNat := by omega
  simp only [hsize]

theorem sum_slice_sort {ns : List Int} {lowest highest : Int} (hlow : 0 ≤ lowest)
    (hrange : lowest ≤ highest + 1) (hhigh : highest + 1 ≤ ns.length) :
    Value.sum (slice (Value.sort (ns.map .int)) lowest (highest + 1)) =
      pure (.int (orderStatistics ns lowest highest).sum) := by
  rw [Value.sort_ints, slice_eq hlow hrange (by simpa using hhigh), ← List.map_drop,
    ← List.map_take, Value.sum_ints]
  rfl

/-- All of some numbers, in whatever order. -/
theorem sum_orderStatistics_all (ns : List Int) :
    (orderStatistics ns 0 (ns.length - 1)).sum = ns.sum := by
  have hall : orderStatistics ns 0 (ns.length - 1) = ns.mergeSort fun m n => decide (m ≤ n) := by
    simp [orderStatistics]
  rw [hall]
  exact (List.mergeSort_perm ns _).sum_eq

/-! ## 2. The two ways to roll a pool -/

/-- Rolls a pool as if not every die counted: all dice are rolled and sorted, and those in the range
are summed. -/
def rollSorted (p : Pool) : Rolling Value := do
  let rolls ← p.rollEach p.num.toNat []
  Value.sum (slice (Value.sort rolls) p.lowest (p.highest + 1))

section Numbers

variable {p : Pool} (hsides : ∀ v ∈ p.sides, v = .int v.number)

include hsides

theorem length_of_rollNumbers {n : Nat} {t t' : Tray} {ns : List Int}
    (h : p.rollNumbers n t = .ok ns t') : ns.length = n := by
  obtain ⟨_, -, -, hlength⟩ := rollDice_of_rollNumbers hsides h
  exact hlength

/-- Work that goes on with the numbers of `n` dice only has to know what becomes of `n` numbers. -/
theorem bind_rollNumbers_congr {n : Nat} {f g : List Int → Rolling Value}
    (h : ∀ ns : List Int, ns.length = n → f ns = g ns) :
    p.rollNumbers n >>= f = p.rollNumbers n >>= g := by
  funext t
  change EStateM.bind (p.rollNumbers n) f t = EStateM.bind (p.rollNumbers n) g t
  rw [EStateM.bind, EStateM.bind]
  cases hrun : p.rollNumbers n t with
  | ok ns t' => simp only [h ns (length_of_rollNumbers hsides hrun)]
  | error e t' => rfl

theorem rollSorted_eq (hlow : 0 ≤ p.lowest) (hrange : p.lowest ≤ p.highest + 1)
    (hhigh : p.highest + 1 ≤ p.num) :
    p.rollSorted = (do
      let ns ← p.rollNumbers p.num.toNat
      return .int (orderStatistics ns p.lowest p.highest).sum) := by
  rw [rollSorted, rollEach_eq_rollNumbers hsides, bind_map_left]
  refine bind_rollNumbers_congr hsides fun ns hlength => ?_
  rw [List.reverse_nil, List.nil_append, sum_slice_sort hlow hrange (by omega)]
  rfl

/-- When every die counts, it makes no difference whether the dice are sorted. -/
theorem rollSum_eq_rollSorted (hnum : 0 ≤ p.num) (hall : p.countsAll = true) :
    p.rollSum p.num.toNat none = p.rollSorted := by
  obtain ⟨hlow, hhigh⟩ : p.lowest = 0 ∧ p.highest = p.num - 1 := by
    simpa [countsAll] using hall
  have hsum := rollSum_eq_rollNumbers hsides p.num.toNat none
  rw [Option.map_none] at hsum
  rw [hsum, rollSorted_eq hsides (by omega) (by omega) (by omega), ← bind_pure_comp]
  refine bind_rollNumbers_congr hsides fun ns hlength => ?_
  have hlast : p.highest = (ns.length : Int) - 1 := by omega
  rw [hlow, hlast, sum_orderStatistics_all]
  simp

theorem roll_eq_rollSorted (hlow : 0 ≤ p.lowest) (hrange : p.lowest ≤ p.highest + 1)
    (hhigh : p.highest + 1 ≤ p.num) (hempty : p.isEmpty = false) : p.roll = p.rollSorted := by
  rw [roll, if_neg (by simp [hempty])]
  split
  · next hall => exact rollSum_eq_rollSorted hsides (by omega) hall
  · rfl

end Numbers

/-! ## 3. Sums of order statistics -/

/-- **A pool is rolled to a sum of order statistics.**  A pool of which nothing counts is 0 and is
not rolled.  Of any other pool all dice are rolled, one after the other, and those in its range are
summed; that not every pool is sorted makes no difference, neither to the value nor to what is drawn
and paid for.  Without triggers every die is drawn once and the sum has the bounds that the sides
give it. -/
theorem roll_eq_orderStatistics {p : Pool} {faces : List Int}
    (hfaces : p.sides.toList = faces.map .int) (hlow : 0 ≤ p.lowest)
    (hrange : p.lowest ≤ p.highest + 1) (hhigh : p.highest + 1 ≤ p.num) :
    (p.isEmpty = true → ∀ t, p.roll t = .ok (.int 0) t) ∧
    (p.isEmpty = false → p.roll = p.rollSorted ∧
      ∀ (t t' : Tray) (v : Value), p.roll t = .ok v t' →
        ∃ (totals : List Int) (t₁ : Tray),
          p.rollDice p.num.toNat t = .ok (totals.map .int) t₁ ∧ totals.length = p.num.toNat ∧
          v = .int (orderStatistics totals p.lowest p.highest).sum ∧
          t' = t₁.paying p.num.toNat ∧
          (p.triggers = [] → t'.drawn = t.drawn + p.num.toNat ∧
            ∀ lo ∈ faces.min?, ∀ hi ∈ faces.max?,
              (p.highest - p.lowest + 1) * lo ≤
                  (orderStatistics totals p.lowest p.highest).sum ∧
                (orderStatistics totals p.lowest p.highest).sum ≤
                  (p.highest - p.lowest + 1) * hi)) := by
  have hsides : ∀ v ∈ p.sides, ∃ n ∈ faces, v = .int n := by
    intro v hv
    obtain ⟨n, hn, rfl⟩ := List.mem_map.mp (hfaces ▸ Array.mem_toList_iff.mpr hv)
    exact ⟨n, hn, rfl⟩
  have hnumbers : ∀ v ∈ p.sides, v = .int v.number := by
    intro v hv
    obtain ⟨n, -, rfl⟩ := hsides v hv
    rfl
  refine ⟨fun hempty t => ?_, fun hempty => ?_⟩
  · rw [roll, if_pos hempty]
    rfl
  · have hroll := roll_eq_rollSorted hnumbers hlow hrange hhigh hempty
    refine ⟨hroll, fun t t' v h => ?_⟩
    rw [hroll, rollSorted_eq hnumbers hlow hrange hhigh] at h
    obtain ⟨totals, t₂, htotals, h⟩ := bind_eq_ok_iff.mp h
    cases h
    obtain ⟨t₁, hdice, rfl, hlength⟩ := rollDice_of_rollNumbers hnumbers htotals
    refine ⟨totals, t₁, hdice, hlength, rfl, rfl, fun htriggers => ?_⟩
    obtain ⟨hshown, hdrawn⟩ := rollNumbers_of_no_triggers htriggers htotals
    have hmem : ∀ n ∈ totals, n ∈ faces := by
      intro n hn
      obtain ⟨v, hv, rfl⟩ := hshown n hn
      obtain ⟨m, hm, rfl⟩ := hsides v hv
      exact hm
    refine ⟨hdrawn, fun lo hlo hi hhi => ?_⟩
    exact sum_orderStatistics_bounds hlow hrange (by omega)
      (fun n hn => (List.min?_eq_some_iff.mp hlo).2 n (hmem n hn))
      (fun n hn => (List.max?_eq_some_iff.mp hhi).2 n (hmem n hn))

/-- The two highest of three dice, on a tray where the dice show 1, 6 and 3. -/
theorem roll_two_highest_of_three :
    let faces : List Int := [1, 2, 3, 4, 5, 6]
    let p : Pool := ⟨3, (faces.map Value.int).toArray, 1, 2, []⟩
    let t : Tray := ⟨.script [0, 5, 2], 0, {}⟩
    let t' : Tray := ⟨.script [], 3, { steps := 3 }⟩
    p.roll t = .ok (.int 9) t' ∧ ∃ (totals : List Int) (t₁ : Tray),
      p.rollDice 3 t = .ok (totals.map .int) t₁ ∧ t' = t₁.paying 3 ∧
        9 = (orderStatistics totals 1 2).sum ∧ 2 * 1 ≤ (orderStatistics totals 1 2).sum := by
  have hroll : roll ⟨3, ([1, 2, 3, 4, 5, 6].map Value.int).toArray, 1, 2, []⟩
      ⟨.script [0, 5, 2], 0, {}⟩ = .ok (.int 9) ⟨.script [], 3, { steps := 3 }⟩ := rfl
  intro faces p t t'
  obtain ⟨-, hfull⟩ := roll_eq_orderStatistics (rfl : p.sides.toList = faces.map Value.int)
    (by decide : 0 ≤ p.lowest) (by decide : p.lowest ≤ p.highest + 1)
    (by decide : p.highest + 1 ≤ p.num)
  obtain ⟨-, hstatistics⟩ := hfull rfl
  obtain ⟨totals, t₁, hdice, -, hvalue, hpaid, hbounds⟩ := hstatistics t t' _ hroll
  have hsum : 9 = (orderStatistics totals 1 2).sum := by simpa using hvalue
  exact ⟨hroll, totals, t₁, hdice, hpaid, hsum, ((hbounds rfl).2 1 rfl 6 rfl).1⟩

end Pool

end DiceNotation
