/-
# A deadline only halts

Every evaluation is a play (`isPlay_evaluate`): the work of each function is put together from the
few effects of a play, one lemma for each.  What holds of plays therefore holds of evaluations.  A
time limit for which no step is late changes nothing.  One that passes behind `k` steps, or has
passed before all steps, changes nothing if no further step is paid for, and otherwise the
evaluation is halted by that step, with the draws and the variables that the evaluation without a
time limit has at that moment (`deadline_only_halts`).
-/
import DiceNotation.Proofs.Evaluation.Faults
import DiceNotation.Proofs.Evaluation.Play
import Mathlib.Tactic.Choose

namespace DiceNotation

/-! ## 1. Rolling -/

theorem isPlay_addTo (total : Option Value) (v : Value) :
    Rolling.IsPlay (liftM (addTo total v)) :=
  .of_paced (paced_addTo total v)

theorem isPlay_rollOn (sides : Array Value) (pos : 0 < sides.size) (triggers : List Value)
    (fuel : Nat) (total : Option Value) : (rollOn sides pos triggers fuel total).IsPlay := by
  induction fuel generalizing total with
  | zero => exact .throw _
  | succ fuel ih =>
    rw [rollOn]
    refine (Rolling.IsPlay.draw _ pos).bind fun i => (isPlay_addTo total _).bind fun v => ?_
    split
    · exact Rolling.IsPlay.payStep.bind fun _ => ih (some v)
    · exact .pure v

namespace Pool

variable (p : Pool)

theorem isPlay_rollDie : p.rollDie.IsPlay := by
  rw [rollDie]
  split
  · next pos =>
    exact .remaining fun fuel => isPlay_rollOn p.sides pos p.triggers fuel none
  · exact .throw _

theorem isPlay_rollSum (n : Nat) (total : Option Value) : (p.rollSum n total).IsPlay := by
  induction n generalizing total with
  | zero => exact .pure _
  | succ n ih =>
    rw [rollSum]
    exact p.isPlay_rollDie.bind fun v => (isPlay_addTo total v).bind fun w =>
      Rolling.IsPlay.payStep.bind fun _ => ih (some w)

theorem isPlay_rollEach (n : Nat) (done : List Value) : (p.rollEach n done).IsPlay := by
  induction n generalizing done with
  | zero => exact .pure _
  | succ n ih =>
    rw [rollEach]
    exact p.isPlay_rollDie.bind fun v => Rolling.IsPlay.payStep.bind fun _ => ih (v :: done)

/-- Rolling a pool is a play. -/
theorem isPlay_roll : p.roll.IsPlay := by
  rw [roll]
  split
  · exact .pure _
  · split
    · exact p.isPlay_rollSum _ none
    · exact (p.isPlay_rollEach _ []).bind fun rolls => .of_paced (Value.paced_sum _)

end Pool

/-! ## 2. Forcing -/

theorem isPlay_metered {α : Type} {work : Metered α} (h : work.Paced) :
    Evaluating.IsPlay (liftM work) :=
  Rolling.IsPlay.of_paced h

/-- Looking something up in the variables. -/
theorem isPlay_lookup {α : Type} {f : Variables → Evaluating α} (hf : ∀ vars, (f vars).IsPlay) :
    Evaluating.IsPlay (do
      let s ← get
      f s.vars) := by
  choose p hp using hf
  exact ⟨.read p, funext fun s => congrFun (hp s.vars) s⟩

theorem isPlay_inVariables {α : Type} (work : EStateM Fault Variables α) :
    (inVariables work).IsPlay :=
  ⟨_, Play.run_settle work⟩

theorem isPlay_fail {α : Type} (e : EvalError) : (fail e : Evaluating α).IsPlay := .throw _

theorem isPlay_readPlace (p : Place) : (readPlace p).IsPlay := by
  rw [readPlace_eq]
  refine isPlay_lookup (f := fun vars => lookedUp (vars.get p)) fun vars => ?_
  cases vars.get p with
  | ok v => exact .pure v
  | error e => exact isPlay_fail e

namespace Operand

theorem isPlay_force (x : Operand) : x.force.IsPlay := by
  cases x with
  | scalar c => exact .pure _
  | array items => exact .pure _
  | place p => exact (isPlay_readPlace p).bind fun v => .pure _
  | pool p => exact Evaluating.IsPlay.bind p.isPlay_roll fun v => .pure _

mutual

theorem isPlay_forceAll : (x : Operand) → x.forceAll.IsPlay
  | .scalar _ => .pure _
  | .place p => isPlay_readPlace p
  | .pool p => p.isPlay_roll
  | .array items => by
    rw [forceAll]
    exact (isPlay_forceAllOnto items []).bind fun vs => .pure _

theorem isPlay_forceAllOnto : (items : List Operand) → (done : List Value) →
    (forceAllOnto done items).IsPlay
  | [], _ => .pure _
  | x :: items, done => by
    rw [forceAllOnto]
    exact (isPlay_forceAll x).bind fun v => isPlay_forceAllOnto items (v :: done)

end

end Operand

theorem isPlay_forceScalars (operation : String) (items : List Operand) (done : List Scalar) :
    (forceScalars operation done items).IsPlay := by
  induction items generalizing done with
  | nil => exact .pure _
  | cons x items ih =>
    rw [forceScalars]
    refine x.isPlay_force.bind fun y => ?_
    cases y with
    | scalar c => exact ih _
    | _ => exact isPlay_fail _

theorem isPlay_keepItems (items : List Operand) (amount : Int) (k : Keep) (operation : String) :
    (keepItems items amount k operation).IsPlay :=
  (isPlay_forceScalars operation items []).bind fun _ => .pure _

/-! ## 3. Actions -/

namespace Meaning

theorem isPlay_literal (t : Token) : (literal t).IsPlay := by
  cases t with
  | number n => exact .pure _
  | word name => exact .pure _
  | char c => exact .pure _
  | string content => exact .pure _
  | _ => exact isPlay_fail _

theorem isPlay_assign (left right : Operand) : (assign left right).IsPlay := by
  cases left with
  | place p =>
    exact right.isPlay_forceAll.bind fun v => (isPlay_inVariables _).bind fun _ => .pure _
  | _ => exact isPlay_fail _

theorem isPlay_binary (left right : Operand) (o : Op) : (binary left right o).IsPlay := by
  cases ho : o.arithmetic? with
  | some operation =>
    simp only [binary, ho]
    exact left.isPlay_forceAll.bind fun v => right.isPlay_forceAll.bind fun w =>
      (isPlay_metered (Op.paced_arithmetic ho v w)).bind fun _ => .pure _
  | none =>
    cases o with
    | comma => exact left.isPlay_force.bind fun _ => right.isPlay_force.bind fun _ => .pure _
    | semicolon => exact .pure _
    | assign => exact isPlay_assign left right
    | _ => first | exact isPlay_fail _ | cases ho

theorem isPlay_unary (inner : Operand) (o : Op) : (unary inner o).IsPlay := by
  cases o with
  | plus => exact .pure _
  | minus =>
    exact inner.isPlay_forceAll.bind fun v =>
      (isPlay_metered (Value.paced_neg v)).bind fun _ => .pure _
  | comma => exact .pure _
  | hash =>
    refine inner.isPlay_force.bind fun y => ?_
    cases y with
    | array items => exact .pure _
    | _ => exact isPlay_fail _
  | _ => exact isPlay_fail _

theorem isPlay_suffix (inner : Operand) (o : Op) : (suffix inner o).IsPlay := by
  cases o with
  | percent =>
    exact inner.isPlay_forceAll.bind fun v =>
      (isPlay_metered (Value.paced_elementwise _ v _)).bind fun _ => .pure _
  | bang =>
    by_cases hpool : ∃ p, inner = .pool p
    · obtain ⟨p, rfl⟩ := hpool
      exact .pure _
    · rw [suffix_bang_of_ne_pool fun p hp => hpool ⟨p, hp⟩]
      refine inner.isPlay_force.bind fun y => ?_
      obtain ⟨e, -, -, hfactorial⟩ := exists_factorialOf_eq y
      rw [hfactorial]
      exact isPlay_fail e
  | _ => exact isPlay_fail _

theorem isPlay_count (x : Operand) (what : Counted) : (count x what).IsPlay := by
  rw [count]
  split
  · exact isPlay_fail _
  · split
    · exact isPlay_fail _
    · split
      · exact isPlay_fail _
      · exact .pure _

theorem isPlay_sidesOf (x : Operand) : (sidesOf x).IsPlay := by
  have hcounted (y : Operand) : Evaluating.IsPlay (do return numbered (← count y .sides)) :=
    (isPlay_count y .sides).bind fun _ => .pure _
  cases x with
  | array items =>
    simp only [sidesOf]
    split
    · exact isPlay_fail _
    · exact (Operand.isPlay_forceAllOnto items []).bind fun _ => .pure _
  | scalar c => exact hcounted _
  | place p => exact hcounted _
  | pool p => exact hcounted _

theorem isPlay_dice (num : Option Operand) (sides : Operand) : (dice num sides).IsPlay := by
  have hrest (n : Nat) : Evaluating.IsPlay
      (do return Operand.pool (.ofSides n (← sidesOf (← sides.force)))) :=
    sides.isPlay_force.bind fun y => (isPlay_sidesOf y).bind fun _ => .pure _
  cases num with
  | none => exact hrest 1
  | some x => exact x.isPlay_force.bind fun y => (isPlay_count y .dice).bind fun n => hrest n

theorem isPlay_amount (k : Keep) (x : Operand) : (amount k x).IsPlay := by
  refine x.isPlay_force.bind fun y => ?_
  cases y.toInt with
  | error cause => exact isPlay_fail _
  | ok n =>
    simp only
    split
    · exact isPlay_fail _
    · exact .pure _

theorem isPlay_keep (k : Keep) (target howMany : Operand) : (keep k target howMany).IsPlay := by
  by_cases hpool : ∃ p, target = .pool p
  · obtain ⟨p, rfl⟩ := hpool
    exact (isPlay_amount k howMany).bind fun n => .pure _
  · rw [keep_of_ne_pool fun p hp => hpool ⟨p, hp⟩]
    refine (isPlay_amount k howMany).bind fun n => target.isPlay_force.bind fun y => ?_
    cases y with
    | array items => exact (isPlay_keepItems items n k _).bind fun _ => .pure _
    | _ => exact isPlay_fail _

theorem isPlay_explode (target faces : Operand) : (explode target faces).IsPlay := by
  by_cases hpool : ∃ p, target = .pool p
  · obtain ⟨p, rfl⟩ := hpool
    exact faces.isPlay_forceAll.bind fun _ => .pure _
  · rw [explode_of_ne_pool fun p hp => hpool ⟨p, hp⟩]
    exact target.isPlay_force.bind fun _ => isPlay_fail _

theorem isPlay_elementOf (i : Int) (x : Operand) : (elementOf i x).IsPlay := by
  cases x with
  | array items =>
    simp only [elementOf]
    split
    · exact .pure _
    · exact isPlay_fail _
  | _ => exact isPlay_fail _

theorem isPlay_index (target position : Operand) : (index target position).IsPlay := by
  rw [index_eq]
  refine position.isPlay_force.bind fun y => ?_
  cases y.toInt with
  | error cause => exact isPlay_fail _
  | ok i =>
    by_cases hplace : ∃ p, target = .place p
    · obtain ⟨p, rfl⟩ := hplace
      exact .pure _
    · rw [indexBy_of_ne_place fun p hp => hplace ⟨p, hp⟩]
      exact target.isPlay_force.bind fun z => isPlay_elementOf i z

end Meaning

/-! ## 4. Texts -/

mutual

/-- Evaluating a tree is a play. -/
theorem isPlay_fold : (t : Tree) → (Actions.evaluation.fold t).IsPlay
  | .literal t => Meaning.isPlay_literal t
  | .binary left right o => by
    rw [Actions.fold]
    exact (isPlay_fold left).bind fun x => (isPlay_fold right).bind fun y =>
      Meaning.isPlay_binary x y o
  | .unary inner o => by
    rw [Actions.fold]
    exact (isPlay_fold inner).bind fun x => Meaning.isPlay_unary x o
  | .suffix inner o => by
    rw [Actions.fold]
    exact (isPlay_fold inner).bind fun x => Meaning.isPlay_suffix x o
  | .dice none sides => by
    rw [Actions.fold]
    exact (isPlay_fold sides).bind fun y => Meaning.isPlay_dice none y
  | .dice (some num) sides => by
    rw [Actions.fold]
    exact (isPlay_fold num).bind fun x => (isPlay_fold sides).bind fun y =>
      Meaning.isPlay_dice (some x) y
  | .keep k target amount => by
    rw [Actions.fold]
    exact (isPlay_fold target).bind fun x => (isPlay_fold amount).bind fun y =>
      Meaning.isPlay_keep k x y
  | .explode target faces => by
    rw [Actions.fold]
    exact (isPlay_fold target).bind fun x => (isPlay_fold faces).bind fun y =>
      Meaning.isPlay_explode x y
  | .array items => by
    rw [Actions.fold]
    exact (isPlay_foldAll items).bind fun xs => .pure _
  | .index target position => by
    rw [Actions.fold]
    exact (isPlay_fold target).bind fun x => (isPlay_fold position).bind fun y =>
      Meaning.isPlay_index x y

theorem isPlay_foldAll : (trees : List Tree) → (Actions.evaluation.foldAll trees).IsPlay
  | [] => .pure _
  | t :: trees => by
    rw [Actions.foldAll]
    exact (isPlay_fold t).bind fun x => (isPlay_foldAll trees).bind fun xs => .pure _

end

theorem isPlay_evaluateLazily (depth : Nat) (text : String) :
    (evaluateLazily depth text).IsPlay := by
  rcases evaluateLazily_outcome depth text with ⟨t, ht⟩ | ⟨done, e, hbroken⟩
  · rw [ht]
    exact isPlay_fold t
  · rw [hbroken]
    exact (isPlay_foldAll done).bind fun _ => isPlay_fail _

/-- **Evaluating a text is a play.** -/
theorem isPlay_evaluate (depth : Nat) (text : String) : (evaluate depth text).IsPlay := by
  refine (isPlay_evaluateLazily depth text).bind fun x => x.isPlay_forceAll.bind fun v => ?_
  split
  · exact .pure v
  · exact .throw _

/-- **A deadline only halts.**  An evaluation is a play; let `s` be a session without a time limit.
With any limit, no step is late or one of them is the first.  If none is, everything is as without
the limit.  Let the step behind the next `k` be the first; if the deadline has passed, `k` is 0.  If
the evaluation ends without that step, everything is as without the limit too.  Otherwise let `t` be
the session in which the evaluation is about to pay for it: with the limit it is halted there,
behind that one step, with the draws and the variables of `t`. -/
theorem deadline_only_halts (depth : Nat) (text : String) :
    (∃ p : Play Value, p.run = evaluate depth text) ∧
    ∀ p : Play Value, p.run = evaluate depth text →
      ∀ (s : Session) (timeout : Option Float), s.tray.budget.timeout = none →
        ((s.within timeout).tray.budget.Endless ∨
          ∃ k, (s.within timeout).tray.budget.HaltsAfter k) ∧
        ((s.within timeout).tray.budget.Endless →
          evaluate depth text (s.within timeout) = withinResult timeout (evaluate depth text s)) ∧
        ∀ k : Nat, (s.within timeout).tray.budget.HaltsAfter k →
          (p.untilStep k s = none →
            s.steps ≤ (sessionOf (evaluate depth text s)).steps ∧
              (sessionOf (evaluate depth text s)).steps ≤ s.steps + k ∧
              evaluate depth text (s.within timeout) =
                withinResult timeout (evaluate depth text s)) ∧
          ∀ (t : Session) (next : Play Value), p.untilStep k s = some (t, next) →
            s.steps + k < (sessionOf (evaluate depth text s)).steps ∧
              t.steps = s.steps + k ∧ evaluate depth text s = next.run t.stepped ∧
              evaluate depth text (s.within timeout) =
                .error (.halted timeout) (t.within timeout).stepped := by
  refine ⟨isPlay_evaluate depth text, ?_⟩
  intro p hp s timeout hs
  have hopen : s.tray.budget.Endless := Budget.endless_of_timeout hs
  rw [← hp]
  refine ⟨Budget.endless_or_haltsAfter _, ?_, ?_⟩
  · -- the limit is never reached
    intro hnever
    obtain ⟨k, hk⟩ := Nat.exists_eq_add_of_le (p.steps_le_run s)
    exact p.run_within hopen hk.le (hnever.lasts k)
  · intro k hhalts
    constructor
    · -- the evaluation ends before
      intro hnone
      have hfew := p.steps_of_untilStep_eq_none hopen hnone
      exact ⟨p.steps_le_run s, hfew, p.run_within hopen hfew hhalts.lasts⟩
    · intro t next hsome
      obtain ⟨hsteps, hrun, hless, hhalted⟩ := p.run_halted hopen hhalts hsome
      exact ⟨hless, hsteps, hrun, hhalted⟩

/-- Two dice, with a deadline that has passed and with one that passes behind the first of them: the
step behind the first die halts, or that behind the second. -/
theorem deadline_only_halts_two_dice :
    let s := Session.start (.script [3, 4])
    let passed : Option Float := some (-1)
    let s' := Session.start (.script [3, 4]) none (.striking 2)
    let passing : Option Float := some 0.5
    ((s.within passed).tray.budget.HaltsAfter 0 ∧ (sessionOf (evaluate 100 "2d6" s)).steps = 2 ∧
      ∃ t : Session, evaluate 100 "2d6" (s.within passed) =
        .error (.halted passed) (t.within passed).stepped ∧ t.steps = 0 ∧ t.tray.drawn = 1) ∧
    (s'.within passing).tray.budget.HaltsAfter 1 ∧
      (∃ s₁, evaluate 100 "2d6" s' = .ok (.int 9) s₁ ∧ s₁.steps = 2) ∧
      ∃ t : Session, evaluate 100 "2d6" (s'.within passing) =
        .error (.halted passing) (t.within passing).stepped ∧ t.steps = 1 ∧ t.tray.drawn = 2 := by
  intro s passed s' passing
  have ht : Tree.ofText 100 "2d6" =
      .ok (.dice (some (.literal (.number 2))) (.literal (.number 6))) := by cbv
  have hsteps : (sessionOf (evaluate 100 "2d6" s)).steps = 2 ∧
      (sessionOf (evaluate 100 "2d6" s')).steps = 2 := by
    rw [evaluate, evaluateLazily_of_tree ht]
    decide +kernel
  have hdrawn : (sessionOf (evaluate 100 "2d6" (s.within passed))).tray.drawn = 1 ∧
      (sessionOf (evaluate 100 "2d6" (s'.within passing))).tray.drawn = 2 := by
    rw [evaluate, evaluateLazily_of_tree ht]
    decide +kernel
  obtain ⟨s₁, hrun⟩ : ∃ s₁, evaluate 100 "2d6" s' = .ok (.int 9) s₁ := by
    rw [evaluate, evaluateLazily_of_tree ht, ← valueOf?_eq_some_iff]
    decide +kernel
  obtain ⟨⟨p, hp⟩, hplays⟩ := deadline_only_halts 100 "2d6"
  have hpassed : (s.within passed).tray.budget.HaltsAfter 0 := by decide
  have hpassing : (s'.within passing).tray.budget.HaltsAfter 1 := by decide
  refine ⟨⟨hpassed, hsteps.1, ?_⟩, hpassing, ⟨s₁, hrun, ?_⟩, ?_⟩
  · obtain ⟨t, next, huntil⟩ := p.exists_untilStep (k := 0) (s := s)
      (Budget.endless_of_timeout rfl) (by rw [hp, hsteps.1]; decide)
    obtain ⟨-, hbegin, -, hhalted⟩ := ((hplays p hp s passed rfl).2.2 0 hpassed).2 t next huntil
    refine ⟨t, hhalted, hbegin, ?_⟩
    rw [hhalted] at hdrawn
    exact hdrawn.1
  · rw [hrun] at hsteps
    exact hsteps.2
  · obtain ⟨t, next, huntil⟩ := p.exists_untilStep (k := 1) (s := s')
      (Budget.endless_of_timeout rfl) (by rw [hp, hsteps.2]; decide)
    obtain ⟨-, hbegin, -, hhalted⟩ := ((hplays p hp s' passing rfl).2.2 1 hpassing).2 t next huntil
    refine ⟨t, hhalted, hbegin, ?_⟩
    rw [hhalted] at hdrawn
    exact hdrawn.2

end DiceNotation
