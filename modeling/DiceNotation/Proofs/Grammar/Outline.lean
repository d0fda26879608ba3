/-
# Evaluating while reading is evaluating afterwards

The **outline** of a text is a list of calls and an ending: the reader either accepts, or stops
with one syntax error.  Both depend on the text alone.  For all actions, whatever their values,
their state and their errors are, reading the text is performing the calls on a stack and then the
ending (`reading_follows_outline`).

In particular the first call that fails is the last one, and a syntax error comes up only when all
the calls in front of it have been made.  If the reader accepts, then the calls are those of a tree,
and descriptions and evaluations are folds of it.
-/
import DiceNotation.Evaluation
import DiceNotation.Description
import DiceNotation.Proofs.Effects
import DiceNotation.Proofs.Grammar.Derivation

namespace DiceNotation

/-! ## 1. Outlines -/

/-- What reading a text comes to for any actions: their calls, in order, and the syntax error that
ends the reading, unless the text is accepted. -/
structure Outline where
  steps : List Reduction
  ending : Option SyntaxError

namespace Outline

/-- The outline of the tree of an accepted text. -/
def accepted (t : Tree) : Outline := ⟨t.reductions, none⟩

/-- The outline of a text that breaks when some trees are complete. -/
def broken (done : List Tree) (e : SyntaxError) : Outline := ⟨reductionsOf done, some e⟩

end Outline

section Follow

variable {m : Type → Type} [Monad m] {α : Type}

/-- The ending, given what is left on the stack. -/
def Outline.conclude (ending : Option SyntaxError) (stack : List α) :
    OptionT m (Except SyntaxError α) :=
  match ending, stack with
  | some e, _ => return .error e
  | none, [x] => return .ok x
  | none, _ => failure

/-- Performs the calls of an outline on an empty stack, and then its ending. -/
def Actions.follow (acts : Actions m α) (o : Outline) : OptionT m (Except SyntaxError α) := do
  let stack ← acts.perform o.steps []
  Outline.conclude o.ending stack

variable [LawfulMonad m]

theorem Actions.follow_accepted (acts : Actions m α) (t : Tree) :
    acts.follow (.accepted t) = OptionT.lift (.ok <$> acts.fold t) := by
  have hlift : OptionT.lift (.ok <$> acts.fold t) = (do
      let x ← OptionT.lift (acts.fold t)
      return (.ok x : Except SyntaxError α)) := by
    apply OptionT.ext
    simp
  rw [follow, Outline.accepted, perform_reductions, hlift, bind_assoc]
  simp [Outline.conclude]
  rfl

theorem Actions.follow_broken (acts : Actions m α) (done : List Tree) (e : SyntaxError) :
    acts.follow (.broken done e) =
      OptionT.lift ((fun _ => .error e) <$> acts.foldAll done) := by
  have hlift : OptionT.lift ((fun _ => .error e) <$> acts.foldAll done) = (do
      let _ ← OptionT.lift (acts.foldAll done)
      return (.error e : Except SyntaxError α)) := by
    apply OptionT.ext
    simp
  rw [follow, Outline.broken, perform_reductionsOf, hlift, bind_assoc]
  simp [Outline.conclude]
  rfl

end Follow

/-! ## 2. The first call that fails -/

section Failing

variable {ε σ α : Type}

/-- The calls are made on the stack up to one that fails, with the error `e` and the state `s'`. -/
def Actions.FailsAt (acts : Actions (EStateM ε σ) α) (steps : List Reduction) (stack : List α)
    (s : σ) (e : ε) (s' : σ) : Prop :=
  ∃ done r left stack₁ s₁, steps = done ++ r :: left ∧
    (acts.perform done stack).run s = .ok (some stack₁) s₁ ∧
    (acts.reduce r stack₁).run s₁ = .error e s'

/-- Calls are made up to the first one that fails, or all of them are made. -/
theorem Actions.perform_cases (acts : Actions (EStateM ε σ) α) (steps : List Reduction)
    (stack : List α) (s : σ) :
    (∃ e s', acts.FailsAt steps stack s e s' ∧ (acts.perform steps stack).run s = .error e s') ∨
    ∃ result s', (acts.perform steps stack).run s = .ok result s' := by
  induction steps generalizing stack s with
  | nil => exact .inr ⟨some stack, s, rfl⟩
  | cons r steps ih =>
    have hbind (steps : List Reduction) := run_bind_eq (acts.reduce r stack) (acts.perform steps) s
    cases hr : (acts.reduce r stack).run s with
    | error e s' =>
      simp only [hr] at hbind
      exact .inl ⟨e, s', ⟨[], r, steps, stack, s, rfl, rfl, hr⟩, hbind steps⟩
    | ok result s₁ =>
      cases result with
      | none =>
        simp only [hr] at hbind
        exact .inr ⟨none, s₁, hbind steps⟩
      | some stack₁ =>
        simp only [hr] at hbind
        rcases ih stack₁ s₁ with ⟨e, s', hfails, hsteps⟩ | ⟨result, s', hsteps⟩
        · obtain ⟨done, r', left, stack₂, s₂, rfl, hdone, hfail⟩ := hfails
          refine .inl ⟨e, s', ⟨r :: done, r', left, stack₂, s₂, rfl, ?_, hfail⟩, ?_⟩
          · exact (hbind done).trans hdone
          · exact (hbind _).trans hsteps
        · exact .inr ⟨result, s', (hbind steps).trans hsteps⟩

/-- An outline that a work follows decides how the work goes: a call fails, or all are made and the
ending decides. -/
theorem Actions.run_of_follow {acts : Actions (EStateM ε σ) α} {o : Outline}
    {x : EStateM ε σ (Except SyntaxError α)} (h : OptionT.lift x = acts.follow o) (s : σ) :
    (∃ e s', acts.FailsAt o.steps [] s e s' ∧ x s = .error e s') ∨
    (∃ stack s' e, (acts.perform o.steps []).run s = .ok (some stack) s' ∧ o.ending = some e ∧
      x s = .ok (.error e) s') ∨
    ∃ v s', (acts.perform o.steps []).run s = .ok (some [v]) s' ∧ o.ending = none ∧
      x s = .ok (.ok v) s' := by
  have hbind := run_bind_eq (acts.perform o.steps []) (Outline.conclude o.ending) s
  have hrun : (OptionT.lift x).run s = (acts.follow o).run s := by rw [h]
  rcases acts.perform_cases o.steps [] s with ⟨e, s', hfails, hsteps⟩ | ⟨result, s', hsteps⟩
  · simp only [hsteps] at hbind
    exact .inl ⟨e, s', hfails, run_lift_eq_error_iff.mp (hrun.trans hbind)⟩
  · cases result with
    | none =>
      simp only [hsteps] at hbind
      exact absurd (hrun.trans hbind) (run_lift_ne_none x s s')
    | some stack =>
      simp only [hsteps] at hbind
      have hlast := hrun.trans hbind
      cases hending : o.ending with
      | some e =>
        rw [hending] at hlast
        exact .inr (.inl ⟨stack, s', e, hsteps, rfl, run_lift_eq_some_iff.mp hlast⟩)
      | none =>
        rw [hending] at hlast
        match stack with
        | [v] => exact .inr (.inr ⟨v, s', hsteps, rfl, run_lift_eq_some_iff.mp hlast⟩)
        | [] => exact absurd hlast (run_lift_ne_none x s s')
        | _ :: _ :: _ => exact absurd hlast (run_lift_ne_none x s s')

end Failing

/-! ## 3. Texts -/

/-- The two ways in which a text is read, for all actions at once. -/
theorem readText_outcome (depth : Nat) (text : String) :
    (∃ t : Tree, ∀ (m : Type → Type) [Monad m] [LawfulMonad m] (α : Type) (acts : Actions m α),
      (acts.readText depth text).run = .ok <$> acts.fold t) ∨
    ∃ (done : List Tree) (e : SyntaxError),
      ∀ (m : Type → Type) [Monad m] [LawfulMonad m] (α : Type) (acts : Actions m α),
        (acts.readText depth text).run = (fun _ => .error e) <$> acts.foldAll done := by
  rcases readTokens_outcome depth (endOfInput_notMem_ofText text) with
    ⟨p, -, -, hread⟩ | ⟨done, e, hread⟩
  · refine .inl ⟨p.tree, fun m _ _ α acts => ?_⟩
    simp [Actions.readText, hread m α acts]
  · refine .inr ⟨done, e, fun m _ _ α acts => ?_⟩
    simp [Actions.readText, hread m α acts, ExceptT.run_bind]

/-- Evaluating a text is evaluating its tree, or those in front of the place where it breaks. -/
theorem evaluateLazily_outcome (depth : Nat) (text : String) :
    (∃ t : Tree, evaluateLazily depth text = Actions.evaluation.fold t) ∨
    ∃ (done : List Tree) (e : SyntaxError), evaluateLazily depth text = (do
      let _ ← Actions.evaluation.foldAll done
      fail (.form e)) := by
  rcases readText_outcome depth text with ⟨t, hread⟩ | ⟨done, e, hread⟩
  · exact .inl ⟨t, by simp [evaluateLazily, hread Evaluating Operand Actions.evaluation]⟩
  · refine .inr ⟨done, e, ?_⟩
    simp only [evaluateLazily, hread Evaluating Operand Actions.evaluation, bind_map_left]

/-- Where the reading breaks, there is no value. -/
theorem evaluate_ne_ok {depth : Nat} {text : String} {done : List Tree} {e : SyntaxError}
    (h : (Actions.evaluation.readText depth text).run =
      (fun _ => .error e) <$> Actions.evaluation.foldAll done) (s : Session) (v : Value)
    (s' : Session) : evaluate depth text s ≠ .ok v s' := by
  have hfails : evaluate depth text = (do
      let _ ← Actions.evaluation.foldAll done
      fail (.form e)) := by
    simp only [evaluate, evaluateLazily, h, bind_map_left, bind_assoc]
    rfl
  rw [hfails]
  change EStateM.bind _ _ s ≠ _
  rw [EStateM.bind]
  cases Actions.evaluation.foldAll done s with
  | ok _ _ => nofun
  | error _ _ => nofun

/-- **Reading a text is performing its outline**, whatever the actions are.  If the outline ends in
acceptance it is that of the tree of the text, and the description and the value of the text are
folds of this tree; otherwise describing the text fails with the error at the end of the outline,
and evaluating it fails as well. -/
theorem reading_follows_outline (depth : Nat) (text : String) : ∃ o : Outline,
    (∀ (m : Type → Type) [Monad m] [LawfulMonad m] (α : Type) (acts : Actions m α),
      OptionT.lift (acts.readText depth text).run = acts.follow o) ∧
    (∀ (ε σ α : Type) (acts : Actions (EStateM ε σ) α) (s : σ),
      (∃ e s', acts.FailsAt o.steps [] s e s' ∧ (acts.readText depth text).run s = .error e s') ∨
      (∃ stack s' e, (acts.perform o.steps []).run s = .ok (some stack) s' ∧ o.ending = some e ∧
        (acts.readText depth text).run s = .ok (.error e) s') ∨
      ∃ v s', (acts.perform o.steps []).run s = .ok (some [v]) s' ∧ o.ending = none ∧
        (acts.readText depth text).run s = .ok (.ok v) s') ∧
    (o.ending = none → ∃ t, Tree.ofText depth text = .ok t ∧ o.steps = t.reductions ∧
      describe depth text = .ok (Actions.description.fold t) ∧
      evaluateLazily depth text = Actions.evaluation.fold t) ∧
    (∀ e, describe depth text = .error e ↔ o.ending = some e) ∧
    ∀ s v s', evaluate depth text s = .ok v s' → ∃ d, describe depth text = .ok d := by
  rcases readText_outcome depth text with ⟨t, hread⟩ | ⟨done, e, hread⟩
  · have hfollow : ∀ (m : Type → Type) [Monad m] [LawfulMonad m] (α : Type) (acts : Actions m α),
        OptionT.lift (acts.readText depth text).run = acts.follow (.accepted t) := by
      intro m _ _ α acts
      rw [hread m α acts, acts.follow_accepted]
    have htree : Tree.ofText depth text = .ok t :=
      (hread Id Tree Actions.tree).trans (congrArg Except.ok (Actions.fold_tree t))
    have hdescribe : describe depth text = .ok (Actions.description.fold t) := hread Id String _
    have hevaluate : evaluateLazily depth text = Actions.evaluation.fold t := by
      simp [evaluateLazily, hread Evaluating Operand Actions.evaluation]
    refine ⟨.accepted t, hfollow, fun ε σ α acts s => acts.run_of_follow (hfollow _ α acts) s,
      fun _ => ⟨t, htree, rfl, hdescribe, hevaluate⟩, ?_, fun _ _ _ _ => ⟨_, hdescribe⟩⟩
    intro e
    simp [hdescribe, Outline.accepted]
  · have hfollow : ∀ (m : Type → Type) [Monad m] [LawfulMonad m] (α : Type) (acts : Actions m α),
        OptionT.lift (acts.readText depth text).run = acts.follow (.broken done e) := by
      intro m _ _ α acts
      rw [hread m α acts, acts.follow_broken]
    have hdescribe : describe depth text = .error e := hread Id String _
    refine ⟨.broken done e, hfollow, fun ε σ α acts s => acts.run_of_follow (hfollow _ α acts) s,
      fun hnone => absurd hnone (by simp [Outline.broken]), ?_, ?_⟩
    · intro e'
      simp [hdescribe, Outline.broken]
    · intro s v s' hv
      exact absurd hv (evaluate_ne_ok (hread Evaluating Operand _) s v s')

/-- An accepted text: the calls of its outline, and its description. -/
example :
    (Tree.ofText 100 "2d6+1").toOption.map Tree.reductions =
        some [.literal (.number 2), .literal (.number 6), .dice true, .literal (.number 1),
          .binary .plus] ∧
      describe 100 "2d6+1" = .ok "((2d6) + 1)" := by
  constructor
  · cbv
  · cbv

end DiceNotation
