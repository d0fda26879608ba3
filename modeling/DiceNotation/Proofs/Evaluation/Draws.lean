/-
# Every die is rolled once

No action of evaluation doubles the dice that are pending in its operands (`Actions.RollsOnce`).  A
run of the stack machine adds this up: each call leaves alone what is pending below its operands
(`Actions.frugal_reduce`), and so does one call after the other (`Actions.frugal_perform`).  The
forcing at the end draws what is left.  Hence, whatever the text, the rolls, the time limit and the
clock are, an evaluation without explosions draws no more often than its dice terms have dice
(`evaluation_rollsOnce`): one that is halted has drawn what it has drawn until then.
-/
import DiceNotation.Proofs.Evaluation.Faults
import DiceNotation.Proofs.Evaluation.Pending

namespace DiceNotation

/-! ## 1. Runs -/

/-- The calls that add triggers to a pool. -/
def Reduction.explodes : Reduction → Bool
  | suffix .bang => true
  | explode => true
  | _ => false

/-- The dice of the dice term that a call makes, if it is one. -/
def Reduction.diceMade (s : Session) : Reduction → List Operand → Nat
  | .dice false, y :: _ => Meaning.diceMade (Meaning.dice none y) s
  | .dice true, y :: x :: _ => Meaning.diceMade (Meaning.dice (some x) y) s
  | _, _ => 0

/-- The dice of all dice terms that some calls make, one after the other on a stack. -/
def Reduction.diceMadeAlong : List Reduction → List Operand → Session → Nat
  | [], _, _ => 0
  | r :: steps, stack, s =>
    r.diceMade s stack +
      match (Actions.evaluation.reduce r stack).run s with
      | .ok (some stack') s' => diceMadeAlong steps stack' s'
      | _ => 0

/-- Work that gets by on some draws, leaves over those that are pending in its result, and gives no
dice that explode. -/
structure Evaluating.Frugal {α : Type} (pools : α → List Pool) (work : Evaluating α)
    (allowed : Nat) (s : Session) : Prop where
  thrifty : Thrifty Session.drawn allowed (fun a => pendingIn (pools a)) work s
  calm : ∀ {a : α} {s' : Session}, work s = .ok a s' → Calm (pools a)

/-- The pools on the stack of a machine, if it is not stuck. -/
def poolsOnStack (result : Option (List Operand)) : List Pool := Operand.poolsOf (result.getD [])

namespace Evaluating.Frugal

variable {α β : Type} {pools : α → List Pool} {allowed : Nat} {s : Session}

theorem pure {a : α} (hcalm : Calm (pools a)) (hle : pendingIn (pools a) ≤ allowed) :
    Frugal pools (Pure.pure a) allowed s where
  thrifty := .pure hle
  calm h := by
    cases h
    exact hcalm

/-- The rest of some work lives on what is pending in the result of its beginning, and on what is
allowed beyond the needs of the beginning. -/
theorem bind {pools' : β → List Pool} {rest total : Nat} {x : Evaluating α} {f : α → Evaluating β}
    (hx : x.Frugal pools allowed s) (htotal : rest + allowed ≤ total)
    (hf : ∀ a s', x s = .ok a s' → Calm (pools a) →
      (f a).Frugal pools' (rest + pendingIn (pools a)) s') :
    (x >>= f).Frugal pools' total s where
  thrifty := ((hx.thrifty.frame rest).mono htotal fun _ => Nat.le_refl _).bind
    fun a s' h => (hf a s' h (hx.calm h)).thrifty
  calm h := by
    obtain ⟨a, s', ha, h⟩ := bind_eq_ok_iff.mp h
    exact (hf a s' ha (hx.calm ha)).calm h

/-- Work that gives something without dice. -/
theorem of_no_pools {work : Evaluating α} (h : work.Within allowed s)
    (hpools : ∀ a s', work s = .ok a s' → pools a = []) : work.Frugal pools allowed s where
  thrifty.of_ok hok := by
    rw [hpools _ _ hok]
    exact h.of_ok hok
  thrifty.of_error herror := h.of_error herror
  calm hok := by
    rw [hpools _ _ hok]
    exact calm_nil

theorem of_lift {work : Evaluating α}
    (h : Frugal (fun result => result.elim [] pools) (OptionT.lift work).run allowed s) :
    work.Frugal pools allowed s where
  thrifty.of_ok hok := h.thrifty.of_ok (run_lift_eq_some_iff.mpr hok)
  thrifty.of_error herror := h.thrifty.of_error (run_lift_eq_error_iff.mpr herror)
  calm hok := h.calm (run_lift_eq_some_iff.mpr hok)

end Evaluating.Frugal

section Runs

variable {s s' : Session} {stack : List Operand} {x : Operand}

namespace Meaning

theorem calm_binary {left right : Operand} {o : Op} (hleft : left.Calm) (hright : right.Calm)
    (h : binary left right o s = .ok x s') : x.Calm :=
  fun p hp => (mem_pools_binary h hp).elim (hleft p) (hright p)

theorem calm_suffix {inner : Operand} {o : Op} (ho : o ≠ .bang)
    (h : suffix inner o s = .ok x s') : x.Calm := by
  cases o with
  | percent =>
    obtain ⟨v, s₁, -, h⟩ := bind_eq_ok_iff.mp h
    obtain ⟨w, s₂, -, h⟩ := bind_eq_ok_iff.mp h
    obtain ⟨rfl, -⟩ := pure_eq_ok_iff.mp h
    rw [Operand.Calm, Operand.pools_ofValue]
    exact calm_nil
  | bang => exact absurd rfl ho
  | _ => exact absurd h fail_ne_ok

theorem calm_dice {num : Option Operand} {sides : Operand} (h : dice num sides s = .ok x s') :
    x.Calm := by
  obtain ⟨n, faces, rfl, -, -⟩ := dice_eq_ok h
  intro p hp
  rw [List.mem_singleton.mp hp]
  rfl

theorem calm_keep {k : Keep} {target howMany : Operand} (htarget : target.Calm)
    (h : keep k target howMany s = .ok x s') : x.Calm := by
  by_cases hpool : ∃ p, target = .pool p
  · obtain ⟨p, rfl⟩ := hpool
    obtain ⟨n, -, rfl⟩ := keep_pool_eq_ok h
    intro q hq
    rw [List.mem_singleton.mp hq, p.triggers_keep]
    exact htarget p List.mem_cons_self
  · rw [Operand.Calm, pools_keep_of_ne_pool (fun p hp => hpool ⟨p, hp⟩) h]
    exact calm_nil

end Meaning

theorem run_call (work : Evaluating Operand) (stack : List Operand) :
    (do return (← work) :: stack : OptionT Evaluating (List Operand)).run =
      work >>= fun x => pure (some (x :: stack)) := by
  rw [OptionT.run_bind]
  change (OptionT.lift work).run >>= _ = _
  simp

/-- A call leaves alone what lies below its operands. -/
theorem frugal_call {work : Evaluating Operand} {allowed total : Nat}
    (hwork : Thrifty Session.drawn allowed Operand.pending work s)
    (hcalm : ∀ x s', work s = .ok x s' → x.Calm) (hstack : ∀ x ∈ stack, x.Calm)
    (htotal : Operand.pendingOf stack + allowed ≤ total) :
    Evaluating.Frugal poolsOnStack
      (do return (← work) :: stack : OptionT Evaluating (List Operand)).run total s := by
  rw [run_call]
  constructor
  · refine ((hwork.frame _).mono htotal fun _ => Nat.le_refl _).bind fun x s₁ _ => .pure ?_
    simp [poolsOnStack, Operand.pendingOf, Operand.pending, Nat.add_comm]
  · intro result s' h
    obtain ⟨x, s₁, hx, h⟩ := bind_eq_ok_iff.mp h
    obtain ⟨rfl, -⟩ := pure_eq_ok_iff.mp h
    exact Operand.calm_poolsOf.mpr (List.forall_mem_cons.mpr ⟨hcalm x s₁ hx, hstack⟩)

/-- A machine that is stuck draws nothing. -/
theorem frugal_stuck {allowed : Nat} :
    Evaluating.Frugal poolsOnStack (failure : OptionT Evaluating (List Operand)).run allowed s :=
  .of_no_pools (.pure (Nat.zero_le _)) fun _ _ h => by
    cases h
    rfl

/-- **One call draws what was pending on the stack**, if it adds no triggers; a dice term adds its
own dice. -/
theorem Actions.frugal_reduce {r : Reduction} (hr : r.explodes = false)
    (hstack : ∀ x ∈ stack, x.Calm) (s : Session) :
    Evaluating.Frugal poolsOnStack (Actions.evaluation.reduce r stack).run
      (Operand.pendingOf stack + r.diceMade s stack) s := by
  unfold Actions.reduce
  split
  · -- a literal
    next t =>
    refine frugal_call (Meaning.thrifty_literal t) (fun x s' h => ?_) hstack (by simp)
    rw [Operand.Calm, Meaning.pools_literal h]
    exact calm_nil
  · -- between two operands
    next o y x stack =>
    obtain ⟨hy, hx, hstack⟩ := by simpa only [List.forall_mem_cons] using hstack
    refine frugal_call (Meaning.thrifty_binary hx hy o)
      (fun _ _ h => Meaning.calm_binary hx hy h) hstack ?_
    simp only [Operand.pendingOf_cons]
    omega
  · -- in front of its operand
    next o x stack =>
    obtain ⟨hx, hstack⟩ := List.forall_mem_cons.mp hstack
    refine frugal_call (Meaning.thrifty_unary hx o)
      (fun _ _ h => hx.of_subset fun _ hp => Meaning.mem_pools_unary h hp) hstack ?_
    simp only [Operand.pendingOf_cons]
    omega
  · -- behind its operand
    next o x stack =>
    obtain ⟨hx, hstack⟩ := List.forall_mem_cons.mp hstack
    have ho : o ≠ .bang := by
      rintro rfl
      cases hr
    refine frugal_call (Meaning.thrifty_suffix hx o)
      (fun _ _ h => Meaning.calm_suffix ho h) hstack ?_
    simp only [Operand.pendingOf_cons]
    omega
  · -- a single die
    next y stack =>
    obtain ⟨hy, hstack⟩ := List.forall_mem_cons.mp hstack
    have hnum : ∀ x ∈ (none : Option Operand), x.Calm := fun _ h => absurd h (by simp)
    refine frugal_call (Meaning.thrifty_dice hnum hy)
      (fun _ _ (h : Meaning.dice none y _ = _) => Meaning.calm_dice h) hstack ?_
    simp only [Reduction.diceMade, Option.toList_none, Operand.pendingOf_nil,
      Operand.pendingOf_cons]
    omega
  · -- dice with a number in front of them
    next y x stack =>
    obtain ⟨hy, hx, hstack⟩ := by simpa only [List.forall_mem_cons] using hstack
    have hnum : ∀ z ∈ some x, z.Calm := fun z h => Option.mem_some.mp h ▸ hx
    refine frugal_call (Meaning.thrifty_dice hnum hy)
      (fun _ _ (h : Meaning.dice (some x) y _ = _) => Meaning.calm_dice h) hstack ?_
    simp only [Reduction.diceMade, Option.toList_some, Operand.pendingOf_nil,
      Operand.pendingOf_cons]
    omega
  · -- a keep
    next k y x stack =>
    obtain ⟨hy, hx, hstack⟩ := by simpa only [List.forall_mem_cons] using hstack
    refine frugal_call (Meaning.thrifty_keep hx hy k) (fun _ _ h => Meaning.calm_keep hx h)
      hstack ?_
    simp only [Operand.pendingOf_cons]
    omega
  · -- no explosion
    cases hr
  · -- an array, which the machine makes if there are enough operands
    next size =>
    split
    · have hsplit : Operand.pendingOf (stack.drop size) + Operand.pendingOf (stack.take size) =
          Operand.pendingOf stack := by
        rw [Nat.add_comm, ← Operand.pendingOf_append, List.take_append_drop]
      refine frugal_call (Actions.rollsOnce_evaluation.array _ s) (fun x s' h => ?_)
        (fun x hx => hstack x (List.mem_of_mem_drop hx)) ?_
      · obtain ⟨rfl, -⟩ := pure_eq_ok_iff.mp h
        refine Operand.calm_poolsOf.mpr fun x hx => hstack x ?_
        exact List.mem_of_mem_take (List.mem_reverse.mp hx)
      · rw [Operand.pendingOf_reverse, hsplit]
        exact Nat.le_add_right _ _
    · exact frugal_stuck
  · -- an index
    next y x stack =>
    obtain ⟨hy, hx, hstack⟩ := by simpa only [List.forall_mem_cons] using hstack
    refine frugal_call (Meaning.thrifty_index hx hy)
      (fun _ _ h => hx.of_subset fun _ hp => Meaning.mem_pools_index h hp) hstack ?_
    simp only [Operand.pendingOf_cons]
    omega
  · -- too few operands
    exact frugal_stuck

/-- **A run draws no more often than its dice terms have dice**, and than what is pending on the
stack at its beginning. -/
theorem Actions.frugal_perform {steps : List Reduction}
    (hsteps : ∀ r ∈ steps, r.explodes = false) (hstack : ∀ x ∈ stack, x.Calm) (s : Session) :
    Evaluating.Frugal poolsOnStack (Actions.evaluation.perform steps stack).run
      (Operand.pendingOf stack + Reduction.diceMadeAlong steps stack s) s := by
  induction steps generalizing stack s with
  | nil =>
    refine ⟨.pure (Nat.le_add_right _ _), fun h => ?_⟩
    obtain ⟨rfl, -⟩ := pure_eq_ok_iff.mp h
    exact Operand.calm_poolsOf.mpr hstack
  | cons r steps ih =>
    obtain ⟨hr, hsteps⟩ := List.forall_mem_cons.mp hsteps
    have hreduce := Actions.frugal_reduce hr hstack s
    obtain ⟨rest, hrest, hlater⟩ : ∃ rest, Reduction.diceMadeAlong (r :: steps) stack s =
          r.diceMade s stack + rest ∧ ∀ stack₁ s₁,
            (Actions.evaluation.reduce r stack).run s = .ok (some stack₁) s₁ →
              rest = Reduction.diceMadeAlong steps stack₁ s₁ :=
      ⟨_, rfl, fun stack₁ s₁ h => by simp only [h]⟩
    rw [perform, OptionT.run_bind, hrest]
    refine hreduce.bind (by omega : rest + _ ≤ _) fun result s₁ hresult hcalm => ?_
    cases result with
    | none => exact frugal_stuck
    | some stack₁ =>
      rw [hlater stack₁ s₁ hresult, Nat.add_comm]
      exact ih hsteps (Operand.calm_poolsOf.mp hcalm) s₁

end Runs

/-! ## 2. Texts -/

/-- The pools of what reading a text gives. -/
def poolsRead : Except SyntaxError Operand → List Pool
  | .ok x => x.pools
  | .error _ => []

/-- The end of a text leaves one operand on the stack, or none that matters. -/
theorem frugal_conclude {stack : List Operand} (hstack : Calm (Operand.poolsOf stack))
    (ending : Option SyntaxError) (s : Session) :
    Evaluating.Frugal (fun result => result.elim [] poolsRead)
      (Outline.conclude ending stack).run (Operand.pendingOf stack) s := by
  unfold Outline.conclude
  split
  · exact .pure calm_nil (Nat.zero_le _)
  · exact .pure (calm_append.mp hstack).1 (by simp [poolsRead, Operand.pendingOf])
  · exact .pure calm_nil (Nat.zero_le _)

section Texts

variable {depth : Nat} {text : String} {o : Outline} (ho : o.IsOf depth text)
  (hcalm : ∀ r ∈ o.steps, r.explodes = false) (s : Session)

include ho hcalm

theorem frugal_readText :
    Evaluating.Frugal poolsRead (Actions.evaluation.readText depth text).run
      (Reduction.diceMadeAlong o.steps [] s) s := by
  have hperform := Actions.frugal_perform hcalm
    (fun x (h : x ∈ ([] : List Operand)) => absurd h List.not_mem_nil) s
  refine .of_lift ?_
  rw [ho Evaluating Operand Actions.evaluation, Actions.follow, OptionT.run_bind]
  refine hperform.bind (by simp : 0 + _ ≤ _) fun result s₁ _ hstack => ?_
  rw [Nat.zero_add]
  cases result with
  | none => exact .pure calm_nil (Nat.zero_le _)
  | some stack => exact frugal_conclude hstack o.ending s₁

theorem frugal_evaluateLazily :
    Evaluating.Frugal Operand.pools (evaluateLazily depth text)
      (Reduction.diceMadeAlong o.steps [] s) s := by
  refine (frugal_readText ho hcalm s).bind (Nat.zero_add _).le fun result s₁ _ hread => ?_
  rw [Nat.zero_add]
  cases result with
  | ok x => exact .pure hread (Nat.le_refl _)
  | error e => exact .of_no_pools (.throw _) fun _ _ h => absurd h fail_ne_ok

/-- An evaluation draws no more often than its dice terms have dice. -/
theorem within_evaluate :
    (evaluate depth text).Within (Reduction.diceMadeAlong o.steps [] s) s := by
  have hlazy := frugal_evaluateLazily ho hcalm s
  refine hlazy.thrifty.bind fun x s₁ hx => ?_
  refine (x.within_forceAll (hlazy.calm hx) s₁).bind fun v s₂ _ => ?_
  split
  · exact .pure (Nat.le_refl _)
  · exact .throw _

end Texts

/-- **Every die is rolled once.**  No action doubles pending dice, and the forcing at the end draws
those that are left; so an evaluation of a text without explosions draws no more often than the dice
terms that it makes have dice, however it ends.  Reading a variable leaves the session as it is. -/
theorem evaluation_rollsOnce :
    Actions.evaluation.RollsOnce ∧
    (∀ (x : Operand) (s : Session), x.Calm → x.forceAll.Within x.pending s) ∧
    (∀ x : Operand, x.Built → (x.pending : Int) = (x.pools.map Pool.num).sum) ∧
    (∀ (depth : Nat) (text : String), ∃ o : Outline, o.IsOf depth text) ∧
    (∀ (depth : Nat) (text : String) (o : Outline), o.IsOf depth text →
      (∀ r ∈ o.steps, r.explodes = false) → ∀ s : Session,
        (evaluate depth text).Within (Reduction.diceMadeAlong o.steps [] s) s) ∧
    ∀ (p : Place) (s : Session),
      (∃ v, readPlace p s = .ok v s) ∨ ∃ f, readPlace p s = .error f s :=
  ⟨Actions.rollsOnce_evaluation, fun x s hx => x.within_forceAll hx s,
    fun _ hx => Operand.pending_eq_sum hx.sound, exists_isOf,
    fun _ _ _ ho hcalm s => within_evaluate ho hcalm s, readPlace_same⟩

/-- Two dice in a variable that is read twice are rolled once, when they are assigned. -/
theorem evaluation_rollsOnce_variable :
    let text := "x = 2d6; x + x"
    let s := Session.start (.script [3, 4, 0, 0])
    ∃ (o : Outline) (s' : Session), o.IsOf 100 text ∧ (∀ r ∈ o.steps, r.explodes = false) ∧
      Reduction.diceMadeAlong o.steps [] s = 2 ∧ evaluate 100 text s = .ok (.int 18) s' ∧
      s'.drawn ≤ s.drawn + 2 := by
  intro text s
  let assigned : Tree := .binary (.literal (.word "x"))
    (.dice (some (.literal (.number 2))) (.literal (.number 6))) .assign
  let t : Tree := .binary assigned
    (.binary (.literal (.word "x")) (.literal (.word "x")) .plus) .semicolon
  have ht : Tree.ofText 100 text = .ok t := by cbv
  have hcalm : ∀ r ∈ t.reductions, r.explodes = false := by decide
  have hdice : Reduction.diceMadeAlong t.reductions [] s = 2 := by decide +kernel
  obtain ⟨s', hrun⟩ : ∃ s', evaluate 100 text s = .ok (.int 18) s' := by
    rw [evaluate, evaluateLazily_of_tree ht, ← valueOf?_eq_some_iff]
    decide +kernel
  obtain ⟨-, -, -, -, hwithin, -⟩ := evaluation_rollsOnce
  have hdrawn := (hwithin 100 text (.accepted t) (isOf_of_tree ht) hcalm s).of_ok hrun
  refine ⟨.accepted t, s', isOf_of_tree ht, hcalm, hdice, hrun, ?_⟩
  rw [← hdice]
  exact hdrawn

end DiceNotation
