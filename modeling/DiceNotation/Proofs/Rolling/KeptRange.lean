/-
# The range of dice that a pool keeps

A pool is changed in three ways: a keep narrows its range, and two kinds of explosion add triggers
(`Pool.Change`).  A **sound** pool has no more dice and sides than are allowed, and its range lies
within its dice; it may be empty, also at either end.  Changes preserve that (`Pool.Sound.after`).

What chained keeps mean does not depend on how the range is stored: as many dice are left as the
smallest amount says (`Pool.Sound.kept_afterAll`), and the rolls that the range cuts out of any list
are those that are left when each keep takes its amount from the top or the bottom of the list
(`Pool.Sound.inRange_afterAll`).
-/
import DiceNotation.Proofs.Rolling.OrderStatistics

namespace DiceNotation

/-! ## 1. Changes -/

/-- What an action can do to a pool. -/
inductive Pool.Change where
  | keep (k : Keep) (amount : Nat)
  | explodeOnGreatest
  | explodeOn (faces : List Value)

/-- The amount of a keep, and from which end of the sorted rolls it is taken. -/
def Pool.Change.keep? : Change → Option (Keep × Nat)
  | keep k amount => some (k, amount)
  | _ => none

/-- The keeps among some changes, in their order. -/
def Pool.Change.keeps (cs : List Change) : List (Keep × Nat) := cs.filterMap keep?

/-- A change is a keep or an explosion. -/
theorem Pool.Change.keep_or_explosion (c : Change) :
    (∃ k amount, c = .keep k amount) ∨ c.keep? = none := by
  cases c with
  | keep k amount => exact .inl ⟨k, amount, rfl⟩
  | explodeOnGreatest => exact .inr rfl
  | explodeOn faces => exact .inr rfl

theorem Pool.Change.keeps_cons_keep (k : Keep) (amount : Nat) (cs : List Change) :
    keeps (.keep k amount :: cs) = (k, amount) :: keeps cs := rfl

theorem Pool.Change.keeps_cons_explosion {c : Change} (hc : c.keep? = none) (cs : List Change) :
    keeps (c :: cs) = keeps cs :=
  List.filterMap_cons_none hc

/-- The last or the first `n` elements of a list. -/
def Keep.takeFrom {α : Type} (k : Keep) (n : Nat) (xs : List α) : List α :=
  match k with
  | .highest => xs.drop (xs.length - n)
  | .lowest => xs.take n

/-- What is left of a list of sorted rolls after some keeps. -/
def keepAll {α : Type} (keeps : List (Keep × Nat)) (rolls : List α) : List α :=
  keeps.foldl (fun left kept => kept.1.takeFrom kept.2 left) rolls

namespace Pool

/-- The pool after a change. -/
def after (p : Pool) : Change → Pool
  | .keep k amount => p.keep k amount
  | .explodeOnGreatest => p.explodeOnGreatest
  | .explodeOn faces => p.explodeOn faces

/-- The pool after some changes, one after the other. -/
def afterAll (p : Pool) (cs : List Change) : Pool := cs.foldl after p

/-- How many dice count. -/
def kept (p : Pool) : Int := p.highest - p.lowest + 1

@[simp] theorem afterAll_nil (p : Pool) : p.afterAll [] = p := rfl

@[simp] theorem afterAll_cons (p : Pool) (c : Change) (cs : List Change) :
    p.afterAll (c :: cs) = (p.after c).afterAll cs := rfl

theorem afterAll_append (p : Pool) (cs₁ cs₂ : List Change) :
    p.afterAll (cs₁ ++ cs₂) = (p.afterAll cs₁).afterAll cs₂ :=
  List.foldl_append

/-! ## 2. What a change leaves alone -/

/-- Adding the greatest face is adding some faces, or none. -/
theorem exists_explodeOnGreatest_eq (p : Pool) :
    ∃ faces, ∀ q : Pool, q.sides = p.sides → q.explodeOnGreatest = q.explodeOn faces := by
  cases hsides : p.sides.toList with
  | nil =>
    refine ⟨[], fun q hq => ?_⟩
    rw [explodeOnGreatest, hq, hsides, explodeOn, List.append_nil]
  | cons face others =>
    refine ⟨[Value.greatest face others], fun q hq => ?_⟩
    rw [explodeOnGreatest, hq, hsides]

/-- An explosion of either kind adds faces to the triggers. -/
theorem exists_after_eq_explodeOn {c : Change} (hc : c.keep? = none) (p : Pool) :
    ∃ faces, ∀ q : Pool, q.sides = p.sides → q.after c = q.explodeOn faces := by
  cases c with
  | keep k amount => cases hc
  | explodeOnGreatest => exact p.exists_explodeOnGreatest_eq
  | explodeOn faces => exact ⟨faces, fun _ _ => rfl⟩

theorem sides_keep (p : Pool) (k : Keep) (amount : Int) : (p.keep k amount).sides = p.sides := by
  cases k <;> rfl

theorem num_keep (p : Pool) (k : Keep) (amount : Int) : (p.keep k amount).num = p.num := by
  cases k <;> rfl

theorem triggers_keep (p : Pool) (k : Keep) (amount : Int) :
    (p.keep k amount).triggers = p.triggers := by
  cases k <;> rfl

/-- No change makes other dice of the dice of a pool. -/
theorem dice_after (p : Pool) (c : Change) :
    (p.after c).num = p.num ∧ (p.after c).sides = p.sides := by
  rcases c.keep_or_explosion with ⟨k, amount, rfl⟩ | hc
  · exact ⟨p.num_keep k amount, p.sides_keep k amount⟩
  · obtain ⟨faces, h⟩ := p.exists_after_eq_explodeOn hc
    rw [h p rfl]
    exact ⟨rfl, rfl⟩

theorem dice_afterAll (p : Pool) (cs : List Change) :
    (p.afterAll cs).num = p.num ∧ (p.afterAll cs).sides = p.sides := by
  induction cs generalizing p with
  | nil => exact ⟨rfl, rfl⟩
  | cons c cs ih =>
    obtain ⟨hnum, hsides⟩ := ih (p.after c)
    obtain ⟨hnum', hsides'⟩ := p.dice_after c
    exact ⟨hnum.trans hnum', hsides.trans hsides'⟩

/-- An explosion leaves the range alone. -/
theorem range_after {c : Change} (hc : c.keep? = none) (p : Pool) :
    (p.after c).lowest = p.lowest ∧ (p.after c).highest = p.highest := by
  obtain ⟨faces, h⟩ := p.exists_after_eq_explodeOn hc
  rw [h p rfl]
  exact ⟨rfl, rfl⟩

/-- A keep and an explosion can change places. -/
theorem after_keep_comm {c : Change} (hc : c.keep? = none) (p : Pool) (k : Keep) (amount : Nat) :
    (p.after (.keep k amount)).after c = (p.after c).after (.keep k amount) := by
  obtain ⟨faces, h⟩ := p.exists_after_eq_explodeOn hc
  rw [h p rfl, h (p.after (.keep k amount)) (p.sides_keep k amount)]
  cases k <;> rfl

/-! ## 3. Soundness -/

/-- A pool within the limits, whose range lies within its dice. -/
structure Sound (p : Pool) : Prop where
  num_nonneg : 0 ≤ p.num
  num_le : p.num ≤ countLimit
  size_sides_le : p.sides.size ≤ countLimit
  lowest_nonneg : 0 ≤ p.lowest
  /-- At most one place above the highest die: then the range is empty. -/
  lowest_le : p.lowest ≤ p.highest + 1
  highest_lt : p.highest + 1 ≤ p.num

theorem sound_ofSides {n : Nat} {faces : Array Value} (hn : n ≤ countLimit)
    (hfaces : faces.size ≤ countLimit) : (ofSides n faces).Sound where
  num_nonneg := Int.natCast_nonneg n
  num_le := Int.ofNat_le.mpr hn
  size_sides_le := hfaces
  lowest_nonneg := Int.le_refl 0
  lowest_le := by simp [ofSides]
  highest_lt := by simp [ofSides]

/-- A keep raises the lower end or lowers the upper end, but by no more than the range is long. -/
theorem Sound.range_keep {p : Pool} (h : p.Sound) (k : Keep) (amount : Nat) :
    p.lowest ≤ (p.keep k amount).lowest ∧ (p.keep k amount).highest ≤ p.highest ∧
      (p.keep k amount).lowest ≤ (p.keep k amount).highest + 1 := by
  have hrange := h.lowest_le
  cases k with
  | highest =>
    simp only [keep]
    omega
  | lowest =>
    simp only [keep]
    omega

/-- **A change of a sound pool is sound.** -/
theorem Sound.after {p : Pool} (h : p.Sound) (c : Change) : (p.after c).Sound := by
  obtain ⟨hnum, hsides⟩ := p.dice_after c
  have hrange : p.lowest ≤ (p.after c).lowest ∧ (p.after c).highest ≤ p.highest ∧
      (p.after c).lowest ≤ (p.after c).highest + 1 := by
    rcases c.keep_or_explosion with ⟨k, amount, rfl⟩ | hc
    · exact h.range_keep k amount
    · obtain ⟨hlow, hhigh⟩ := range_after hc p
      rw [hlow, hhigh]
      exact ⟨Int.le_refl _, Int.le_refl _, h.lowest_le⟩
  obtain ⟨hlow, hhigh, hle⟩ := hrange
  constructor
  · rw [hnum]
    exact h.num_nonneg
  · rw [hnum]
    exact h.num_le
  · rw [hsides]
    exact h.size_sides_le
  · exact Int.le_trans h.lowest_nonneg hlow
  · exact hle
  · rw [hnum]
    exact Int.le_trans (Int.add_le_add_right hhigh 1) h.highest_lt

theorem Sound.afterAll {p : Pool} (h : p.Sound) (cs : List Change) : (p.afterAll cs).Sound := by
  induction cs generalizing p with
  | nil => exact h
  | cons c cs ih => exact ih (h.after c)

/-! ## 4. How many dice chained keeps leave -/

theorem Sound.kept_keep {p : Pool} (h : p.Sound) (k : Keep) (amount : Nat) :
    (p.keep k amount).kept = min p.kept amount := by
  have hrange := h.lowest_le
  cases k with
  | highest =>
    simp only [keep, kept]
    omega
  | lowest =>
    simp only [keep, kept]
    omega

/-- As many dice count as the smallest amount says. -/
theorem Sound.kept_afterAll {p : Pool} (h : p.Sound) (cs : List Change) :
    (p.afterAll cs).kept =
      (Change.keeps cs).foldl (fun least kept => min least (kept.2 : Int)) p.kept := by
  induction cs generalizing p with
  | nil => rfl
  | cons c cs ih =>
    rw [afterAll_cons, ih (h.after c)]
    rcases c.keep_or_explosion with ⟨k, amount, rfl⟩ | hc
    · rw [Change.keeps_cons_keep, List.foldl_cons, ← h.kept_keep k amount]
      rfl
    · obtain ⟨hlow, hhigh⟩ := range_after hc p
      rw [Change.keeps_cons_explosion hc, kept, kept, hlow, hhigh]

/-! ## 5. Which rolls chained keeps leave -/

/-- The rolls in the range of a pool. -/
def inRange {α : Type} (p : Pool) (rolls : List α) : List α :=
  slice rolls p.lowest (p.highest + 1)

section Rolls

variable {α : Type} {rolls : List α}

theorem Sound.inRange_eq {p : Pool} (h : p.Sound) (hrolls : (rolls.length : Int) = p.num) :
    p.inRange rolls = (rolls.drop p.lowest.toNat).take p.kept.toNat := by
  have hsize : (p.highest + 1 - p.lowest).toNat = p.kept.toNat := by
    rw [kept]
    omega
  rw [inRange, slice_eq h.lowest_nonneg h.lowest_le (hrolls ▸ h.highest_lt), hsize]

/-- Narrowing the range takes from the rolls in it. -/
theorem Sound.inRange_keep {p : Pool} (h : p.Sound) (hrolls : (rolls.length : Int) = p.num)
    (k : Keep) (amount : Nat) :
    (p.keep k amount).inRange rolls = k.takeFrom amount (p.inRange rolls) := by
  have hkeep : (p.keep k amount).Sound := h.after (.keep k amount)
  have hkept := h.kept_keep k amount
  have hlow := h.lowest_nonneg
  have hrange := h.lowest_le
  have hhigh := h.highest_lt
  rw [h.inRange_eq hrolls, hkeep.inRange_eq (hrolls.trans (p.num_keep k amount).symm), hkept]
  cases k with
  | highest =>
    -- taking the last ones of a window is moving its front
    have hlength : ((rolls.drop p.lowest.toNat).take p.kept.toNat).length = p.kept.toNat := by
      rw [List.length_take, List.length_drop, kept]
      omega
    have hfront : (p.keep .highest amount).lowest.toNat =
        p.lowest.toNat + (p.kept.toNat - amount) := by
      simp only [keep, kept]
      omega
    have hsize : (min p.kept amount).toNat = p.kept.toNat - (p.kept.toNat - amount) := by
      rw [kept]
      omega
    rw [Keep.takeFrom, hlength, List.drop_take, List.drop_drop, hfront, hsize]
  | lowest =>
    have hsize : (min p.kept amount).toNat = min amount p.kept.toNat := by
      rw [kept]
      omega
    rw [Keep.takeFrom, List.take_take, hsize]
    rfl

/-- Of any rolls, as many as there are dice, chained keeps take one after the other. -/
theorem Sound.inRange_afterAll {p : Pool} (h : p.Sound) (hrolls : (rolls.length : Int) = p.num)
    (cs : List Change) :
    (p.afterAll cs).inRange rolls = keepAll (Change.keeps cs) (p.inRange rolls) := by
  induction cs generalizing p with
  | nil => rfl
  | cons c cs ih =>
    rw [afterAll_cons, ih (h.after c) (hrolls.trans (p.dice_after c).1.symm)]
    rcases c.keep_or_explosion with ⟨k, amount, rfl⟩ | hc
    · rw [Change.keeps_cons_keep, keepAll, keepAll, List.foldl_cons,
        ← h.inRange_keep hrolls k amount]
      rfl
    · obtain ⟨hlow, hhigh⟩ := range_after hc p
      rw [Change.keeps_cons_explosion hc, inRange, inRange, hlow, hhigh]

/-- At first all rolls are in the range. -/
theorem inRange_ofSides {n : Nat} {faces : Array Value} (hrolls : rolls.length = n) :
    (ofSides n faces).inRange rolls = rolls := by
  have hend : clampPlace rolls.length (n - 1 + 1) = rolls.length := by
    rw [clampPlace_of_nonneg (by omega) (by omega)]
    omega
  have hstart : clampPlace rolls.length 0 = 0 := clampPlace_of_nonneg (Int.le_refl 0) (by omega)
  simp only [inRange, ofSides, slice, hend, hstart]
  simp

end Rolls

end Pool

end DiceNotation
