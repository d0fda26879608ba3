/-
# The budget of an evaluation

Long work is done in steps, and every step is paid for with `payStep`.  A budget counts the steps
and looks at a clock as it does so: a step that is counted behind the deadline halts the evaluation,
after counting.

What the clock shows at which step is up to the surroundings.  All that is known of it is that it
never goes back, so the steps in time come first: the next `k` steps are in time
(`Budget.Lasts`), or one of them is the first that is late (`Budget.HaltsAfter`).
-/
import DiceNotation.Fault

namespace DiceNotation

/-! ## 1. Clocks -/

/-- A clock, known by what it shows, in seconds: `shows 0` when a budget is made, and `shows n` when
the `n`-th step is counted.  It never goes back: a time that has passed stays passed. -/
structure Clock where
  shows : Nat → Float
  forward : ∀ {m n : Nat} {x : Float}, m ≤ n → x < shows m → x < shows n

/-- The clock that stands still. -/
def Clock.still : Clock where
  shows _ := 0
  forward _ h := h

/-! ## 2. Budgets -/

/-- The time that an evaluation was given, in seconds, the clock that measures it, and the steps
that have been counted. -/
structure Budget where
  timeout : Option Float := none
  clock : Clock := .still
  steps : Nat := 0

namespace Budget

/-- The time behind which steps are late. -/
def deadline? (b : Budget) : Option Float := b.timeout.map fun seconds => b.clock.shows 0 + seconds

/-- Whether the deadline has passed when the `n`-th step is counted. -/
def isLate (b : Budget) (n : Nat) : Bool :=
  match b.deadline? with
  | none => false
  | some deadline => decide (deadline < b.clock.shows n)

/-- The budget with `k` more steps counted. -/
def paying (b : Budget) (k : Nat) : Budget := { b with steps := b.steps + k }

end Budget

/-- Work that is paid for from a budget. -/
abbrev Metered := EStateM Fault Budget

/-- Pays for one step. -/
def payStep : Metered Unit := fun b =>
  let b' := b.paying 1
  if b'.isLate b'.steps then .error (.halted b'.timeout) b' else .ok () b'

/-! ## 3. Steps in time -/

namespace Budget

variable {b : Budget}

@[simp] theorem paying_zero (b : Budget) : b.paying 0 = b := rfl

@[simp] theorem paying_paying (b : Budget) (j k : Nat) :
    (b.paying j).paying k = b.paying (j + k) := by
  simp [paying, Nat.add_assoc]

@[simp] theorem steps_paying (b : Budget) (k : Nat) : (b.paying k).steps = b.steps + k := rfl

@[simp] theorem timeout_paying (b : Budget) (k : Nat) : (b.paying k).timeout = b.timeout := rfl

@[simp] theorem isLate_paying (b : Budget) (k n : Nat) : (b.paying k).isLate n = b.isLate n := rfl

/-- Behind a late step all steps are late. -/
theorem isLate_mono {m n : Nat} (h : m ≤ n) (hm : b.isLate m = true) : b.isLate n = true := by
  unfold isLate at hm ⊢
  cases hdeadline : b.deadline? with
  | none =>
    rw [hdeadline] at hm
    cases hm
  | some deadline =>
    rw [hdeadline] at hm
    exact decide_eq_true (b.clock.forward h (of_decide_eq_true hm))

/-- The next `k` steps are in time. -/
def Lasts (b : Budget) (k : Nat) : Prop := ∀ n < k, b.isLate (b.steps + (n + 1)) = false

/-- The next `k` steps are in time, and the one behind them is late. -/
structure HaltsAfter (b : Budget) (k : Nat) : Prop where
  lasts : b.Lasts k
  late : b.isLate (b.steps + (k + 1)) = true

instance (b : Budget) (k : Nat) : Decidable (b.Lasts k) :=
  inferInstanceAs (Decidable (∀ n < k, b.isLate (b.steps + (n + 1)) = false))

instance (b : Budget) (k : Nat) : Decidable (b.HaltsAfter k) :=
  decidable_of_decidable_of_iff (p := b.Lasts k ∧ b.isLate (b.steps + (k + 1)) = true)
    ⟨fun ⟨lasts, late⟩ => ⟨lasts, late⟩, fun h => ⟨h.lasts, h.late⟩⟩

/-- No step is ever late. -/
def Endless (b : Budget) : Prop := ∀ n, b.isLate n = false

theorem lasts_zero (b : Budget) : b.Lasts 0 := fun _ h => absurd h (Nat.not_lt_zero _)

theorem lasts_one_iff : b.Lasts 1 ↔ b.isLate (b.steps + 1) = false := by
  constructor
  · intro h
    exact h 0 Nat.one_pos
  · intro h n hn
    rw [Nat.lt_one_iff.mp hn]
    exact h

theorem Lasts.mono {j k : Nat} (h : b.Lasts k) (hjk : j ≤ k) : b.Lasts j :=
  fun n hn => h n (Nat.lt_of_lt_of_le hn hjk)

/-- Some steps behind others are in time if all of them are. -/
theorem lasts_add_iff {j k : Nat} : b.Lasts (j + k) ↔ b.Lasts j ∧ (b.paying j).Lasts k := by
  have hbehind (n : Nat) : (b.paying j).steps + (n + 1) = b.steps + (j + n + 1) := by
    simp only [steps_paying]
    omega
  constructor
  · intro h
    refine ⟨h.mono (Nat.le_add_right j k), fun n hn => ?_⟩
    rw [isLate_paying, hbehind]
    exact h (j + n) (Nat.add_lt_add_left hn j)
  · rintro ⟨hj, hk⟩ n hn
    by_cases hfirst : n < j
    · exact hj n hfirst
    · have hlate := hk (n - j) (by omega)
      rwa [isLate_paying, hbehind, Nat.add_sub_cancel' (Nat.le_of_not_lt hfirst)] at hlate

/-- Steps that are in time behind some others are in time without them, since the clock does not go
back. -/
theorem Lasts.of_paying {j k : Nat} (h : (b.paying j).Lasts k) : b.Lasts k := by
  intro n hn
  rw [Bool.eq_false_iff]
  intro hlate
  have hlater : b.isLate ((b.paying j).steps + (n + 1)) = true :=
    isLate_mono (by simp only [steps_paying]; omega) hlate
  exact Bool.false_ne_true ((h n hn).symm.trans hlater)

/-- Of some steps all are in time, or one is the first that is late. -/
theorem lasts_or_haltsAfter (b : Budget) (n : Nat) : b.Lasts n ∨ ∃ k < n, b.HaltsAfter k := by
  induction n with
  | zero => exact .inl b.lasts_zero
  | succ n ih =>
    rcases ih with hlasts | ⟨k, hk, hhalts⟩
    · cases hlate : b.isLate (b.steps + (n + 1)) with
      | true => exact .inr ⟨n, Nat.lt_succ_self n, hlasts, hlate⟩
      | false => exact .inl (lasts_add_iff.mpr ⟨hlasts, lasts_one_iff.mpr hlate⟩)
    · exact .inr ⟨k, Nat.lt_succ_of_lt hk, hhalts⟩

/-- A late step behind some steps in time is late from the beginning. -/
theorem HaltsAfter.of_paying {j k : Nat} (hj : b.Lasts j) (h : (b.paying j).HaltsAfter k) :
    b.HaltsAfter (j + k) where
  lasts := lasts_add_iff.mpr ⟨hj, h.lasts⟩
  late := by
    have hlate := h.late
    rwa [isLate_paying, steps_paying, Nat.add_assoc, ← Nat.add_assoc j] at hlate

/-- Behind the first step the late one is nearer. -/
theorem HaltsAfter.behind {k : Nat} (h : b.HaltsAfter (k + 1)) :
    b.Lasts 1 ∧ (b.paying 1).HaltsAfter k := by
  obtain ⟨hfirst, hrest⟩ := lasts_add_iff.mp (Nat.add_comm k 1 ▸ h.lasts)
  refine ⟨hfirst, hrest, ?_⟩
  rw [isLate_paying, steps_paying, Nat.add_assoc, Nat.add_comm 1]
  exact h.late

/-- The budget `b'` is what is left of `b` behind some steps in time. -/
def InTime (b b' : Budget) : Prop := ∃ k, b.Lasts k ∧ b' = b.paying k

/-- The budget `b'` is what is left of `b` behind the first step that is late. -/
def Halted (b b' : Budget) : Prop := ∃ k, b.HaltsAfter k ∧ b' = b.paying (k + 1)

theorem InTime.refl (b : Budget) : b.InTime b := ⟨0, b.lasts_zero, rfl⟩

theorem InTime.trans {b₁ b₂ : Budget} (h : b.InTime b₁) (h' : b₁.InTime b₂) : b.InTime b₂ := by
  obtain ⟨j, hj, rfl⟩ := h
  obtain ⟨k, hk, rfl⟩ := h'
  exact ⟨j + k, lasts_add_iff.mpr ⟨hj, hk⟩, paying_paying b j k⟩

theorem InTime.timeout_eq {b' : Budget} (h : b.InTime b') : b'.timeout = b.timeout := by
  obtain ⟨k, -, rfl⟩ := h
  rfl

theorem Halted.of_inTime {b₁ b₂ : Budget} (h : b.InTime b₁) (h' : b₁.Halted b₂) : b.Halted b₂ := by
  obtain ⟨j, hj, rfl⟩ := h
  obtain ⟨k, hk, rfl⟩ := h'
  exact ⟨j + k, hk.of_paying hj, paying_paying b j (k + 1)⟩

theorem Endless.lasts (h : b.Endless) (k : Nat) : b.Lasts k := fun _ _ => h _

/-- Some step is the first that is late, or none is late. -/
theorem endless_or_haltsAfter (b : Budget) : b.Endless ∨ ∃ k, b.HaltsAfter k := by
  by_cases hendless : b.Endless
  · exact .inl hendless
  · obtain ⟨n, hn⟩ := Classical.not_forall.mp hendless
    have hn : b.isLate n = true := by simpa using hn
    have hlate : b.isLate (b.steps + (n + 1)) = true := isLate_mono (by omega) hn
    rcases b.lasts_or_haltsAfter (n + 1) with hlasts | ⟨k, -, hhalts⟩
    · exact absurd ((hlasts n (Nat.lt_succ_self n)).symm.trans hlate) Bool.false_ne_true
    · exact .inr ⟨k, hhalts⟩

theorem Endless.paying (h : b.Endless) (k : Nat) : (b.paying k).Endless := h

/-- Without a time limit no step is late. -/
theorem endless_of_timeout (h : b.timeout = none) : b.Endless := by
  intro n
  simp [isLate, deadline?, h]

end Budget

theorem payStep_apply (b : Budget) : payStep b =
    if b.isLate (b.steps + 1) then .error (.halted b.timeout) (b.paying 1)
    else .ok () (b.paying 1) := rfl

end DiceNotation
