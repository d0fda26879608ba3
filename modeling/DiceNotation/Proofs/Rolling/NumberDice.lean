/-
# Dice with numbers on them

A die whose faces are integers shows integers: rolling it is some work that gives an integer
(`Pool.rollDie_eq_rollNumber`).  Adding integers costs no step, so that the steps of a pool are
those of its dice and one behind each of them.

Steps that have been paid before make no difference to such work, as long as it ends well
(`StepBlind`): it draws the same faces and only counts on from there.  Without them it ends well all
the more, since the clock does not go back.
-/
import DiceNotation.Proofs.Effects
import DiceNotation.Rolling
import Mathlib

namespace DiceNotation

/-! ## 1. Steps make no difference -/

/-- Work that, where it ends well, does so without the steps that have been paid for before as
well, and in the same way. -/
def StepBlind {α : Type} (work : Rolling α) : Prop :=
  ∀ (t t' : Tray) (k : Nat) (a : α), work (t.paying k) = .ok a t' →
    ∃ t₁, work t = .ok a t₁ ∧ t' = t₁.paying k

theorem stepBlind_pure {α : Type} (a : α) : StepBlind (pure a) := by
  intro t t' k b h
  cases h
  exact ⟨t, rfl, rfl⟩

theorem stepBlind_throw {α : Type} (e : Fault) : StepBlind (throw e : Rolling α) := by
  intro t t' k a h
  cases h

theorem StepBlind.bind {α β : Type} {work : Rolling α} {next : α → Rolling β}
    (h : StepBlind work) (hnext : ∀ a, StepBlind (next a)) : StepBlind (work >>= next) := by
  intro t t' k b hrun
  obtain ⟨a, t₂, hwork, hrest⟩ := bind_eq_ok_iff.mp hrun
  obtain ⟨t₁, hplain, rfl⟩ := h t t₂ k a hwork
  obtain ⟨t₃, hlater, rfl⟩ := hnext a t₁ t' k b hrest
  exact ⟨t₃, bind_eq_ok_iff.mpr ⟨a, t₁, hplain, hlater⟩, rfl⟩

theorem stepBlind_draw (n : Nat) (pos : 0 < n) : StepBlind (draw n pos) := by
  intro t t' k i h
  obtain ⟨source, hdraw, rfl⟩ := draw_eq_ok_iff.mp h
  exact ⟨_, draw_eq_ok_iff.mpr ⟨source, hdraw, rfl⟩, rfl⟩

theorem stepBlind_payStep : StepBlind (liftM payStep : Rolling Unit) := by
  intro t t' k u h
  obtain ⟨htime, rfl⟩ := payStep_eq_ok_iff.mp h
  refine ⟨t.paying 1, payStep_eq_ok_iff.mpr ⟨htime.of_paying, rfl⟩, ?_⟩
  rw [t.paying_paying, t.paying_paying, Nat.add_comm]

/-! ## 2. Adding integers -/

@[simp] theorem liftM_metered_pure {α : Type} (a : α) :
    (liftM (pure a : Metered α) : Rolling α) = pure a := rfl

@[simp] theorem Value.add_int (m n : Int) : Value.add (.int m) (.int n) = pure (.int (m + n)) := by
  simp [Value.add, Value.elementwise, Value.mapRight, Scalar.add, Scalar.combine]

/-- A total with one more number added. -/
def numberAdded (total : Option Int) (n : Int) : Int :=
  match total with
  | none => n
  | some m => m + n

@[simp] theorem addTo_int (total : Option Int) (n : Int) :
    addTo (total.map .int) (.int n) = pure (.int (numberAdded total n)) := by
  cases total with
  | none => rfl
  | some m => exact Value.add_int m n

/-! ## 3. One die -/

/-- The number that a value is, if it is an integer. -/
def Value.number : Value → Int
  | scalar (.int n) => n
  | _ => 0

section Sides

variable {sides : Array Value} (hsides : ∀ v ∈ sides, v = .int v.number) (pos : 0 < sides.size)
  (triggers : List Value)

include hsides

/-- One more roll of a die with numbers on its sides: adding them costs nothing. -/
theorem rollOn_succ (fuel : Nat) (total : Option Int) :
    rollOn sides pos triggers (fuel + 1) (total.map .int) = (do
      let i ← draw sides.size pos
      let total := numberAdded total sides[i.val]!.number
      if Pool.triggered triggers sides[i.val]! then
        payStep
        rollOn sides pos triggers fuel ((some total).map .int)
      else return .int total) := by
  rw [rollOn]
  refine bind_congr fun i => ?_
  have hshown : sides[i] = sides[i.val]! := (getElem!_pos sides i.val i.isLt).symm
  have hface : sides[i.val]! = .int sides[i.val]!.number :=
    hsides _ (hshown ▸ Array.getElem_mem i.isLt)
  have hadd : addTo (total.map .int) sides[i.val]! =
      pure (.int (numberAdded total sides[i.val]!.number)) := by
    rw [hface]
    exact addTo_int total _
  simp only [hshown, hadd, liftM_metered_pure, pure_bind, Option.map_some]

theorem stepBlind_rollOn (fuel : Nat) (total : Option Int) :
    StepBlind (rollOn sides pos triggers fuel (total.map .int)) := by
  induction fuel generalizing total with
  | zero => exact stepBlind_throw _
  | succ fuel ih =>
    rw [rollOn_succ hsides]
    refine (stepBlind_draw _ pos).bind fun i => ?_
    split
    · exact stepBlind_payStep.bind fun _ => ih _
    · exact stepBlind_pure _

/-- The total of a die with numbers on its sides is a number. -/
theorem number_of_rollOn {fuel : Nat} {total : Option Int} {t t' : Tray} {v : Value}
    (h : rollOn sides pos triggers fuel (total.map .int) t = .ok v t') : v = .int v.number := by
  induction fuel generalizing total t with
  | zero => cases h
  | succ fuel ih =>
    rw [rollOn_succ hsides] at h
    obtain ⟨i, t₁, -, h⟩ := bind_eq_ok_iff.mp h
    split at h
    · obtain ⟨_, t₂, -, h⟩ := bind_eq_ok_iff.mp h
      exact ih h
    · cases h
      rfl

end Sides

namespace Pool

theorem rollDie_eq (p : Pool) (pos : 0 < p.sides.size) (t : Tray) :
    p.rollDie t = rollOn p.sides pos p.triggers t.source.remaining none t := by
  rw [rollDie, dif_pos pos]
  rfl

theorem rollDie_of_no_sides {p : Pool} (h : ¬ 0 < p.sides.size) :
    p.rollDie = throw .rollsExhausted := by
  rw [rollDie, dif_neg h]

theorem stepBlind_rollDie {p : Pool} (hsides : ∀ v ∈ p.sides, v = .int v.number) :
    StepBlind p.rollDie := by
  intro t t' k v h
  by_cases pos : 0 < p.sides.size
  · rw [p.rollDie_eq pos] at h ⊢
    exact stepBlind_rollOn hsides pos p.triggers t.source.remaining none t t' k v h
  · rw [rollDie_of_no_sides pos] at h
    cases h

/-- Rolls one die of a pool, for the number that it gives. -/
def rollNumber (p : Pool) : Rolling Int := Value.number <$> p.rollDie

theorem rollDie_eq_rollNumber {p : Pool} (hsides : ∀ v ∈ p.sides, v = .int v.number) :
    p.rollDie = Value.int <$> p.rollNumber := by
  funext t
  change _ = EStateM.map Value.int (EStateM.map Value.number p.rollDie) t
  rw [EStateM.map, EStateM.map]
  cases hroll : p.rollDie t with
  | error e t' => rfl
  | ok v t' =>
    by_cases pos : 0 < p.sides.size
    · rw [p.rollDie_eq pos] at hroll
      have hnone : (none : Option Int).map Value.int = none := rfl
      rw [← hnone] at hroll
      have hv := number_of_rollOn hsides pos p.triggers hroll
      simp only [← hv]
    · rw [rollDie_of_no_sides pos] at hroll
      cases hroll

/-- Without triggers a die is drawn once and shows one of its sides. -/
theorem rollDie_of_no_triggers {p : Pool} (htriggers : p.triggers = []) {t t' : Tray} {v : Value}
    (h : p.rollDie t = .ok v t') : v ∈ p.sides ∧ t'.drawn = t.drawn + 1 := by
  by_cases pos : 0 < p.sides.size
  · rw [p.rollDie_eq pos, htriggers] at h
    cases hfuel : t.source.remaining with
    | zero =>
      rw [hfuel] at h
      cases h
    | succ fuel =>
      rw [hfuel, rollOn] at h
      obtain ⟨i, t₁, hdraw, h⟩ := bind_eq_ok_iff.mp h
      cases h
      rw [draw] at hdraw
      split at hdraw
      · cases hdraw
        exact ⟨Array.getElem_mem _, rfl⟩
      · cases hdraw
  · rw [rollDie_of_no_sides pos] at h
    cases h

/-! ## 4. Some dice -/

/-- Rolls `n` dice one after the other, and does nothing else. -/
def rollDice (p : Pool) : (n : Nat) → Rolling (List Value)
  | 0 => return []
  | n + 1 => do
    let roll ← p.rollDie
    let rolls ← rollDice p n
    return roll :: rolls

/-- Rolls `n` dice with numbers on their sides, and pays for one step behind each. -/
def rollNumbers (p : Pool) : (n : Nat) → Rolling (List Int)
  | 0 => return []
  | n + 1 => do
    let number ← p.rollNumber
    payStep
    let numbers ← rollNumbers p n
    return number :: numbers

/-- Without triggers each die is drawn once and shows one of its sides. -/
theorem rollNumbers_of_no_triggers {p : Pool} (htriggers : p.triggers = []) {n : Nat} {t t' : Tray}
    {ns : List Int} (h : p.rollNumbers n t = .ok ns t') :
    (∀ m ∈ ns, ∃ v ∈ p.sides, m = v.number) ∧ t'.drawn = t.drawn + n := by
  induction n generalizing t ns with
  | zero =>
    cases h
    exact ⟨fun m hm => absurd hm List.not_mem_nil, rfl⟩
  | succ n ih =>
    obtain ⟨number, t₁, hnumber, h⟩ := bind_eq_ok_iff.mp h
    obtain ⟨_, t₂, hstep, h⟩ := bind_eq_ok_iff.mp h
    obtain ⟨numbers, t₃, hnumbers, h⟩ := bind_eq_ok_iff.mp h
    cases h
    obtain ⟨-, rfl⟩ := payStep_eq_ok_iff.mp hstep
    obtain ⟨v, hroll, rfl⟩ := map_eq_ok_iff.mp hnumber
    obtain ⟨hshown, hdrawn⟩ := rollDie_of_no_triggers htriggers hroll
    obtain ⟨hall, hdrawn'⟩ := ih hnumbers
    refine ⟨List.forall_mem_cons.mpr ⟨⟨v, hshown, rfl⟩, hall⟩, ?_⟩
    rw [hdrawn', Tray.drawn_paying, hdrawn]
    omega

section Numbers

variable {p : Pool} (hsides : ∀ v ∈ p.sides, v = .int v.number)

include hsides

theorem rollEach_eq_rollNumbers (n : Nat) (done : List Value) :
    p.rollEach n done = (fun ns => done.reverse ++ ns.map .int) <$> p.rollNumbers n := by
  induction n generalizing done with
  | zero => simp [rollEach, rollNumbers]
  | succ n ih => simp [rollEach, rollNumbers, rollDie_eq_rollNumber hsides, ih]

theorem rollSum_eq_rollNumbers (n : Nat) (total : Option Int) :
    p.rollSum n (total.map .int) =
      (fun ns => .int (total.getD 0 + ns.sum)) <$> p.rollNumbers n := by
  induction n generalizing total with
  | zero => cases total <;> simp [rollSum, rollNumbers]
  | succ n ih =>
    have hnext (number : Int) := ih (some (numberAdded total number))
    have hsum (number : Int) (ns : List Int) :
        numberAdded total number + ns.sum = total.getD 0 + (number :: ns).sum := by
      cases total <;> simp [numberAdded, Int.add_assoc]
    simp only [Option.map_some, Option.getD_some] at hnext
    simp only [rollSum, rollNumbers, rollDie_eq_rollNumber hsides, bind_map_left, addTo_int,
      liftM_metered_pure, pure_bind, hnext, hsum, map_bind, map_pure]
    simp

theorem stepBlind_rollDice (n : Nat) : StepBlind (p.rollDice n) := by
  induction n with
  | zero => exact stepBlind_pure _
  | succ n ih =>
    exact (stepBlind_rollDie hsides).bind fun _ => ih.bind fun _ => stepBlind_pure _

/-- With the steps behind them or without, the dice show the same numbers and are drawn alike. -/
theorem rollDice_of_rollNumbers {n : Nat} {t t' : Tray} {ns : List Int}
    (h : p.rollNumbers n t = .ok ns t') :
    ∃ t₁, p.rollDice n t = .ok (ns.map .int) t₁ ∧ t' = t₁.paying n ∧ ns.length = n := by
  induction n generalizing t t' ns with
  | zero =>
    cases h
    exact ⟨t, rfl, rfl, rfl⟩
  | succ n ih =>
    obtain ⟨number, t₁, hnumber, h⟩ := bind_eq_ok_iff.mp h
    obtain ⟨_, t₂, hstep, h⟩ := bind_eq_ok_iff.mp h
    obtain ⟨numbers, t₃, hnumbers, h⟩ := bind_eq_ok_iff.mp h
    cases h
    obtain ⟨-, rfl⟩ := payStep_eq_ok_iff.mp hstep
    obtain ⟨t₄, hdice, rfl, rfl⟩ := ih hnumbers
    -- the step in between makes no difference to the dice behind it
    obtain ⟨t₅, hplain, rfl⟩ := stepBlind_rollDice hsides numbers.length _ _ _ _ hdice
    refine ⟨t₅, ?_, by rw [Tray.paying_paying, Nat.add_comm], rfl⟩
    refine bind_eq_ok_iff.mpr ⟨.int number, t₁, ?_, bind_eq_ok_iff.mpr ⟨_, t₅, hplain, rfl⟩⟩
    rw [rollDie_eq_rollNumber hsides]
    exact map_eq_ok_iff.mpr ⟨number, hnumber, rfl⟩

end Numbers

end Pool

end DiceNotation
