/-
# Evaluations as trees of their effects

What an evaluation does to a session is made of few effects: it pays for a step, draws a number,
looks how many draws the source has left, and reads or writes the variables.  A **play** writes down
these effects as a tree, with a branch for every answer (`Play`), and can be run on a session
(`Play.run`).  That a work is a play (`Evaluating.IsPlay`) says more than any property of its runs:
it cannot look at the time, or at the steps that have been paid for.

In a play one can point to the moment when some steps have been paid for and one more is about to be
(`Play.untilStep`): the session at that moment, and what is left of the play.  A deadline makes a
difference only there.  As long as the steps are in time it makes none (`Play.run_within`), and the
first step that is late halts the play in the session of that moment (`Play.run_halted`).
-/
import DiceNotation.Proofs.Effects
import DiceNotation.Proofs.Value.Steps
import Mathlib.Tactic.Choose

namespace DiceNotation

/-! ## 1. Plays -/

/-- An evaluation as the tree of its effects. -/
inductive Play (α : Type) : Type where
  | done (a : α)
  | fail (f : Fault)
  /-- Pays for one step. -/
  | pay (next : Play α)
  /-- Draws a number below `n`. -/
  | draw (n : Nat) (pos : 0 < n) (next : Fin n → Play α)
  /-- Looks for a number of draws that the source cannot exceed. -/
  | remaining (next : Nat → Play α)
  | read (next : Variables → Play α)
  | write (vars : Variables) (next : Play α)

namespace Play

variable {α β : Type}

/-- Carries out the effects of a play. -/
def run : Play α → Evaluating α
  | done a => return a
  | fail f => throw f
  | pay next => do
    payStep
    next.run
  | draw n pos next => do
    let i ← DiceNotation.draw n pos
    (next i).run
  | remaining next => do
    let s ← get
    (next s.tray.source.remaining).run
  | read next => do
    let s ← get
    (next s.vars).run
  | write vars next => do
    modify fun s => { s with vars }
    next.run

/-- Goes on with another play when one is done. -/
def bind (p : Play α) (f : α → Play β) : Play β :=
  match p with
  | done a => f a
  | fail e => fail e
  | pay next => pay (next.bind f)
  | draw n pos next => draw n pos fun i => (next i).bind f
  | remaining next => remaining fun n => (next n).bind f
  | read next => read fun vars => (next vars).bind f
  | write vars next => write vars (next.bind f)

theorem run_bind (p : Play α) (f : α → Play β) :
    (p.bind f).run = p.run >>= fun a => (f a).run := by
  induction p with
  | done a => simp [bind, run]
  | fail e => rfl
  | pay next ih => simp [bind, run, ih]
  | draw n pos next ih => simp [bind, run, ih]
  | remaining next ih => simp [bind, run, ih]
  | read next ih => simp [bind, run, ih]
  | write vars next ih => simp [bind, run, ih]

/-- Ends as some work on the variables has ended, with the variables that it has left. -/
def settle : EStateM.Result Fault Variables α → Play α
  | .ok a vars => write vars (done a)
  | .error f vars => write vars (fail f)

theorem run_settle (work : EStateM Fault Variables α) :
    (read fun vars => settle (work vars)).run = inVariables work := by
  funext s
  change (settle (work s.vars)).run s = _
  simp only [inVariables]
  cases work s.vars <;> rfl

end Play

/-! ## 2. Deadlines -/

/-- The session with a time limit. -/
def Session.within (s : Session) (timeout : Option Float) : Session :=
  { s with tray := { s.tray with budget := { s.tray.budget with timeout } } }

/-- The steps that have been paid for. -/
def Session.steps (s : Session) : Nat := s.tray.budget.steps

/-- The session with one more step paid for. -/
def Session.stepped (s : Session) : Session :=
  { s with tray := { s.tray with budget := s.tray.budget.paying 1 } }

/-- The session in which some work has ended. -/
def sessionOf {α : Type} : EStateM.Result Fault Session α → Session
  | .ok _ s => s
  | .error _ s => s

/-- An outcome with a time limit in its session. -/
def withinResult {α : Type} (timeout : Option Float) :
    EStateM.Result Fault Session α → EStateM.Result Fault Session α
  | .ok a s => .ok a (s.within timeout)
  | .error f s => .error f (s.within timeout)

section Deadlines

variable {α β : Type} {s s' : Session} {timeout : Option Float}

theorem payStep_run (s : Session) : (liftM payStep : Evaluating Unit) s =
    if s.tray.budget.isLate (s.steps + 1) then .error (.halted s.tray.budget.timeout) s.stepped
    else .ok () s.stepped := by
  change (liftM payStep : Rolling Unit).inSession s = _
  rw [Rolling.inSession, payStep_onTray, Session.steps]
  cases s.tray.budget.isLate (s.tray.budget.steps + 1) <;> rfl

theorem draw_within (n : Nat) (pos : 0 < n) (s : Session) (timeout : Option Float) :
    (draw n pos).inSession (s.within timeout) =
      withinResult timeout ((draw n pos).inSession s) := by
  have hsource : (s.within timeout).tray.source = s.tray.source := rfl
  simp only [Rolling.inSession, draw, hsource]
  cases s.tray.source.draw? n pos <;> rfl

/-- Drawing costs no step. -/
theorem budget_of_draw {n : Nat} {pos : 0 < n} {result : EStateM.Result Fault Session (Fin n)}
    (h : (draw n pos).inSession s = result) :
    (sessionOf result).tray.budget = s.tray.budget := by
  subst h
  simp only [Rolling.inSession, draw]
  cases s.tray.source.draw? n pos <;> rfl

theorem steps_of_draw {n : Nat} {pos : 0 < n} {result : EStateM.Result Fault Session (Fin n)}
    (h : (draw n pos).inSession s = result) : (sessionOf result).steps = s.steps :=
  congrArg Budget.steps (budget_of_draw h)

end Deadlines

namespace Play

variable {α β : Type} {s t : Session} {timeout : Option Float}

theorem run_pay (next : Play α) (s : Session) : (pay next).run s =
    if s.tray.budget.isLate (s.steps + 1) then .error (.halted s.tray.budget.timeout) s.stepped
    else next.run s.stepped := by
  change EStateM.bind (liftM payStep : Evaluating Unit) _ s = _
  rw [EStateM.bind, payStep_run]
  cases s.tray.budget.isLate (s.steps + 1) <;> rfl

theorem run_pay_of_lasts (next : Play α) (h : s.tray.budget.Lasts 1) :
    (pay next).run s = next.run s.stepped := by
  have hlate : s.tray.budget.isLate (s.steps + 1) = false := Budget.lasts_one_iff.mp h
  rw [run_pay, hlate, if_neg Bool.false_ne_true]

theorem run_draw (n : Nat) (pos : 0 < n) (next : Fin n → Play α) (s : Session) :
    (draw n pos next).run s =
      match (DiceNotation.draw n pos).inSession s with
      | .ok i s' => (next i).run s'
      | .error f s' => .error f s' := by
  change EStateM.bind (DiceNotation.draw n pos).inSession _ s = _
  rw [EStateM.bind]
  cases (DiceNotation.draw n pos).inSession s <;> rfl

/-- Steps are never taken back. -/
theorem steps_le_run (p : Play α) (s : Session) : s.steps ≤ (sessionOf (p.run s)).steps := by
  induction p generalizing s with
  | done a => exact Nat.le_refl _
  | fail e => exact Nat.le_refl _
  | pay next ih =>
    rw [run_pay]
    split
    · exact Nat.le_succ _
    · exact Nat.le_trans (Nat.le_succ _) (ih s.stepped)
  | draw n pos next ih =>
    rw [run_draw]
    cases hdraw : (DiceNotation.draw n pos).inSession s with
    | ok i s' =>
      have hsteps : s'.steps = s.steps := steps_of_draw hdraw
      exact hsteps ▸ ih i s'
    | error e s' =>
      exact Nat.le_of_eq (steps_of_draw hdraw).symm
  | remaining next ih => exact ih _ s
  | read next ih => exact ih _ s
  | write vars next ih => exact ih { s with vars }

/-- **A deadline makes no difference as long as the steps are in time.** -/
theorem run_within (p : Play α) {k : Nat} (hs : s.tray.budget.Endless)
    (hk : (sessionOf (p.run s)).steps ≤ s.steps + k)
    (ht : (s.within timeout).tray.budget.Lasts k) :
    p.run (s.within timeout) = withinResult timeout (p.run s) := by
  induction p generalizing s k with
  | done a => rfl
  | fail e => rfl
  | pay next ih =>
    rw [run_pay_of_lasts next (hs.lasts 1)] at hk ⊢
    -- the step is one of the `k`
    have hcounted : s.steps + 1 ≤ s.steps + k := Nat.le_trans (next.steps_le_run s.stepped) hk
    obtain ⟨rest, rfl⟩ := Nat.exists_eq_add_of_le (Nat.le_of_add_le_add_left hcounted)
    obtain ⟨hfirst, hrest⟩ := Budget.lasts_add_iff.mp ht
    have hstep : (s.within timeout).stepped = s.stepped.within timeout := rfl
    rw [run_pay_of_lasts next hfirst, hstep]
    exact ih hs (by rwa [← Nat.add_assoc] at hk) hrest
  | draw n pos next ih =>
    rw [run_draw] at hk ⊢
    rw [run_draw, draw_within]
    cases hdraw : (DiceNotation.draw n pos).inSession s with
    | ok i s' =>
      have hbudget : s'.tray.budget = s.tray.budget := budget_of_draw hdraw
      have hsteps : s'.steps = s.steps := steps_of_draw hdraw
      rw [hdraw] at hk
      refine ih i (k := k) (hbudget ▸ hs) (hsteps ▸ hk) ?_
      simpa only [Session.within, hbudget] using ht
    | error e s' => rfl
  | remaining next ih => exact ih _ hs hk ht
  | read next ih => exact ih _ hs hk ht
  | write vars next ih => exact ih (s := { s with vars }) hs hk ht

/-! ## 3. The moment of a step -/

/-- The session in which `k` steps have been paid for and one more is about to be, and the play
behind that step; none if the play comes to its end before. -/
def untilStep : Play α → (k : Nat) → Session → Option (Session × Play α)
  | done _, _, _ => none
  | fail _, _, _ => none
  | pay next, 0, s => some (s, next)
  | pay next, k + 1, s => next.untilStep k s.stepped
  | draw n pos next, k, s =>
    match (DiceNotation.draw n pos).inSession s with
    | .ok i s' => (next i).untilStep k s'
    | .error _ _ => none
  | remaining next, k, s => (next s.tray.source.remaining).untilStep k s
  | read next, k, s => (next s.vars).untilStep k s
  | write vars next, k, s => next.untilStep k { s with vars }

/-- A play that comes to its end before it pays for one more step has paid for `k` at the most. -/
theorem steps_of_untilStep_eq_none (p : Play α) {k : Nat} (hs : s.tray.budget.Endless)
    (h : p.untilStep k s = none) : (sessionOf (p.run s)).steps ≤ s.steps + k := by
  induction p generalizing s k with
  | done a => exact Nat.le_add_right _ _
  | fail e => exact Nat.le_add_right _ _
  | pay next ih =>
    rw [run_pay_of_lasts next (hs.lasts 1)]
    cases k with
    | zero => cases h
    | succ k =>
      have hsteps : s.stepped.steps = s.steps + 1 := rfl
      have hrest := ih (s := s.stepped) hs h
      omega
  | draw n pos next ih =>
    rw [untilStep] at h
    rw [run_draw]
    cases hdraw : (DiceNotation.draw n pos).inSession s with
    | ok i s' =>
      have hbudget : s'.tray.budget = s.tray.budget := budget_of_draw hdraw
      have hsteps : s'.steps = s.steps := steps_of_draw hdraw
      rw [hdraw] at h
      exact hsteps ▸ ih i (hbudget ▸ hs) h
    | error e s' =>
      have hsteps : s'.steps = s.steps := steps_of_draw hdraw
      exact hsteps ▸ Nat.le_add_right _ _
  | remaining next ih => exact ih _ hs h
  | read next ih => exact ih _ hs h
  | write vars next ih => exact ih (s := { s with vars }) hs h

/-- A play that pays for more than `k` steps comes to the moment of the next one. -/
theorem exists_untilStep (p : Play α) {k : Nat} (hs : s.tray.budget.Endless)
    (h : s.steps + k < (sessionOf (p.run s)).steps) :
    ∃ t next, p.untilStep k s = some (t, next) := by
  cases huntil : p.untilStep k s with
  | none => exact absurd (p.steps_of_untilStep_eq_none hs huntil) (Nat.not_le_of_lt h)
  | some moment => exact ⟨moment.1, moment.2, rfl⟩

/-- Up to the moment of a step that all others are in time for, a deadline makes no difference. -/
theorem run_of_untilStep_eq_some (p : Play α) {k : Nat} {next : Play α}
    (hs : s.tray.budget.Endless) (ht : (s.within timeout).tray.budget.Lasts k)
    (h : p.untilStep k s = some (t, next)) :
    t.tray.budget = s.tray.budget.paying k ∧ p.run s = (pay next).run t ∧
      p.run (s.within timeout) = (pay next).run (t.within timeout) := by
  induction p generalizing s k with
  | done a => cases h
  | fail e => cases h
  | pay next' ih =>
    cases k with
    | zero =>
      cases h
      exact ⟨rfl, rfl, rfl⟩
    | succ k =>
      obtain ⟨hfirst, hrest⟩ := Budget.lasts_add_iff.mp (Nat.add_comm k 1 ▸ ht)
      obtain ⟨hbudget, hrun, hwithin⟩ := ih (s := s.stepped) hs hrest h
      have hstep : (s.within timeout).stepped = s.stepped.within timeout := rfl
      refine ⟨?_, ?_, ?_⟩
      · rw [hbudget, Nat.add_comm, ← Budget.paying_paying]
        rfl
      · rw [run_pay_of_lasts next' (hs.lasts 1), hrun]
      · rw [run_pay_of_lasts next' hfirst, hstep, hwithin]
  | draw n pos next' ih =>
    rw [untilStep] at h
    rw [run_draw, run_draw, draw_within]
    cases hdraw : (DiceNotation.draw n pos).inSession s with
    | ok i s' =>
      have hbudget : s'.tray.budget = s.tray.budget := budget_of_draw hdraw
      rw [hdraw] at h
      rw [← hbudget]
      refine ih i (hbudget ▸ hs) ?_ h
      simpa only [Session.within, hbudget] using ht
    | error e s' =>
      rw [hdraw] at h
      cases h
  | remaining next' ih => exact ih _ hs ht h
  | read next' ih => exact ih _ hs ht h
  | write vars next' ih => exact ih (s := { s with vars }) hs ht h

/-- **The first step that is late halts**, in the session that there is without a deadline. -/
theorem run_halted (p : Play α) {k : Nat} {next : Play α} (hs : s.tray.budget.Endless)
    (ht : (s.within timeout).tray.budget.HaltsAfter k)
    (h : p.untilStep k s = some (t, next)) :
    t.steps = s.steps + k ∧ p.run s = next.run t.stepped ∧
      s.steps + k < (sessionOf (p.run s)).steps ∧
      p.run (s.within timeout) = .error (.halted timeout) (t.within timeout).stepped := by
  obtain ⟨hbudget, hrun, hwithin⟩ := p.run_of_untilStep_eq_some hs ht.lasts h
  have hsteps : t.steps = s.steps + k := congrArg Budget.steps hbudget
  have hopen : t.tray.budget.Endless := hbudget ▸ hs
  have hlate : (t.within timeout).tray.budget.isLate ((t.within timeout).steps + 1) = true := by
    have hcount : (t.within timeout).steps = (s.within timeout).steps + k := hsteps
    have hclock : (t.within timeout).tray.budget =
        (s.within timeout).tray.budget.paying k := by
      simp only [Session.within, hbudget]
      rfl
    rw [hclock, Budget.isLate_paying, hcount, Nat.add_assoc]
    exact ht.late
  have hstepped : p.run s = next.run t.stepped := by
    rw [hrun, run_pay_of_lasts next (hopen.lasts 1)]
  refine ⟨hsteps, hstepped, ?_, ?_⟩
  · rw [hstepped]
    have hcounted : t.stepped.steps = s.steps + k + 1 := congrArg (· + 1) hsteps
    exact Nat.lt_of_lt_of_le (hcounted ▸ Nat.lt_succ_self _) (next.steps_le_run t.stepped)
  · rw [hwithin, run_pay, hlate]
    rfl

end Play

/-! ## 4. Work that is a play -/

/-- Work that does what some play does, in all sessions. -/
def Evaluating.IsPlay {α : Type} (work : Evaluating α) : Prop := ∃ p : Play α, p.run = work

namespace Evaluating.IsPlay

variable {α β : Type}

theorem pure (a : α) : IsPlay (Pure.pure a) := ⟨.done a, rfl⟩

theorem throw (f : Fault) : IsPlay (throw f : Evaluating α) := ⟨.fail f, rfl⟩

theorem bind {x : Evaluating α} {f : α → Evaluating β} (hx : IsPlay x)
    (hf : ∀ a, IsPlay (f a)) : IsPlay (x >>= f) := by
  obtain ⟨p, rfl⟩ := hx
  choose q hq using hf
  refine ⟨p.bind q, ?_⟩
  rw [p.run_bind]
  exact bind_congr hq

end Evaluating.IsPlay

/-- Work on a tray that does what some play does, in all sessions. -/
def Rolling.IsPlay {α : Type} (work : Rolling α) : Prop := work.inSession.IsPlay

namespace Rolling.IsPlay

variable {α β : Type}

theorem pure (a : α) : IsPlay (Pure.pure a) := Evaluating.IsPlay.pure a

theorem throw (f : Fault) : IsPlay (throw f : Rolling α) := Evaluating.IsPlay.throw f

theorem bind {x : Rolling α} {f : α → Rolling β} (hx : IsPlay x) (hf : ∀ a, IsPlay (f a)) :
    IsPlay (x >>= f) := by
  rw [IsPlay, inSession_bind]
  exact Evaluating.IsPlay.bind hx hf

theorem draw (n : Nat) (pos : 0 < n) : IsPlay (draw n pos) :=
  ⟨.draw n pos .done, bind_pure _⟩

theorem payStep : IsPlay (liftM payStep) := ⟨.pay (.done ()), bind_pure _⟩

/-- Looking at the source for a number of draws that it cannot exceed. -/
theorem remaining {f : Nat → Rolling α} (hf : ∀ n, IsPlay (f n)) :
    IsPlay (do
      let t ← get
      f t.source.remaining) := by
  choose p hp using hf
  refine ⟨.remaining p, funext fun s => ?_⟩
  exact congrFun (hp s.tray.source.remaining) s

/-- Arithmetic pays for steps and does nothing else. -/
theorem of_paced {work : Metered α} (h : work.Paced) : IsPlay (liftM work) := by
  obtain ⟨steps, a, rfl⟩ := h
  induction steps with
  | zero => exact pure a
  | succ steps ih =>
    have hlift : (liftM (Metered.paid (steps + 1) a) : Rolling α) =
        liftM DiceNotation.payStep >>= fun _ => liftM (Metered.paid steps a) :=
      Metered.onTray_bind _ _
    rw [hlift]
    exact payStep.bind fun _ => ih

end Rolling.IsPlay

end DiceNotation
