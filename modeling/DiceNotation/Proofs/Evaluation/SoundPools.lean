/-
# Pools stay sound, and chained keeps mean what they say

Whatever is evaluated, the pools that come up are sound.  An operand that a run can come upon has
been **built** by the actions, out of operands that have been built (`Operand.Built`); every action
hands on sound pools (`Meaning.sound_*`, one lemma for each), so that by induction all of them are
sound (`Operand.Built.sound`).  What lies on the stack of a run is built, whatever the run is
(`Actions.built_of_perform`).

The pool of a dice term can then be changed by any chain of keeps and explosions
(`Operand.ChangedBy`).  Such a chain comes down to changes of the pool, so that what is known of
these, soundness included, holds for chains of actions (`Pool.kept_ranges`).
-/
import DiceNotation.Proofs.Evaluation.Pools
import DiceNotation.Proofs.Grammar.Outline
import DiceNotation.Proofs.Rolling.KeptRange

namespace DiceNotation

/-! ## 1. Each action hands on sound pools -/

/-- Every pool that occurs in an operand is sound. -/
def Operand.Sound (x : Operand) : Prop := ∀ p ∈ x.pools, p.Sound

theorem Operand.sound_of_pools_eq_nil {x : Operand} (h : x.pools = []) : x.Sound := by
  intro p hp
  rw [h] at hp
  exact absurd hp List.not_mem_nil

theorem Operand.sound_pool {p : Pool} : (pool p).Sound ↔ p.Sound := by
  simp [Operand.Sound]

theorem Operand.sound_array {items : List Operand} :
    (array items).Sound ↔ ∀ x ∈ items, x.Sound := by
  simp only [Operand.Sound, Operand.pools_array, Operand.mem_poolsOf]
  constructor
  · intro h x hx p hp
    exact h p ⟨x, hx, hp⟩
  · rintro h p ⟨x, hx, hp⟩
    exact h x hx p hp

namespace Meaning

variable {s s' : Session} {x : Operand}

theorem sound_literal {t : Token} (h : literal t s = .ok x s') : x.Sound :=
  Operand.sound_of_pools_eq_nil (pools_literal h)

theorem sound_binary {left right : Operand} {o : Op} (hleft : left.Sound) (hright : right.Sound)
    (h : binary left right o s = .ok x s') : x.Sound := by
  intro p hp
  rcases mem_pools_binary h hp with hp | hp
  · exact hleft p hp
  · exact hright p hp

theorem sound_unary {inner : Operand} {o : Op} (hinner : inner.Sound)
    (h : unary inner o s = .ok x s') : x.Sound :=
  fun p hp => hinner p (mem_pools_unary h hp)

theorem sound_suffix {inner : Operand} {o : Op} (hinner : inner.Sound)
    (h : suffix inner o s = .ok x s') : x.Sound := by
  rcases suffix_pools h with hnil | ⟨p, rfl, rfl⟩
  · exact Operand.sound_of_pools_eq_nil hnil
  · exact Operand.sound_pool.mpr ((Operand.sound_pool.mp hinner).after .explodeOnGreatest)

/-- The pool of a dice term is sound, whatever its number and its sides are. -/
theorem sound_dice {num : Option Operand} {sides : Operand} (h : dice num sides s = .ok x s') :
    x.Sound := by
  obtain ⟨n, faces, rfl, hn, hfaces⟩ := dice_eq_ok h
  exact Operand.sound_pool.mpr (Pool.sound_ofSides hn hfaces)

theorem sound_keep {k : Keep} {target howMany : Operand} (htarget : target.Sound)
    (h : keep k target howMany s = .ok x s') : x.Sound := by
  by_cases hpool : ∃ p, target = .pool p
  · obtain ⟨p, rfl⟩ := hpool
    obtain ⟨n, -, rfl⟩ := keep_pool_eq_ok h
    exact Operand.sound_pool.mpr ((Operand.sound_pool.mp htarget).after (.keep k n))
  · exact Operand.sound_of_pools_eq_nil (pools_keep_of_ne_pool (fun p hp => hpool ⟨p, hp⟩) h)

theorem sound_explode {target faces : Operand} (htarget : target.Sound)
    (h : explode target faces s = .ok x s') : x.Sound := by
  obtain ⟨p, v, rfl, -, rfl⟩ := explode_eq_ok h
  exact Operand.sound_pool.mpr ((Operand.sound_pool.mp htarget).after (.explodeOn _))

theorem sound_index {target position : Operand} (htarget : target.Sound)
    (h : index target position s = .ok x s') : x.Sound :=
  fun p hp => htarget p (mem_pools_index h hp)

end Meaning

theorem Operand.Sound.force {x y : Operand} {s s' : Session} (hx : x.Sound)
    (h : x.force s = .ok y s') : y.Sound :=
  fun p hp => hx p (mem_pools_of_force h hp)

/-! ## 2. What the actions build -/

/-- An operand that the actions of evaluation can have made, each of them in any session, or that
comes of forcing one. -/
inductive Operand.Built : Operand → Prop
  | literal {t : Token} {s s' : Session} {x : Operand}
      (h : Meaning.literal t s = .ok x s') : Built x
  | binary {left right : Operand} {o : Op} {s s' : Session} {x : Operand} (hleft : Built left)
      (hright : Built right) (h : Meaning.binary left right o s = .ok x s') : Built x
  | unary {inner : Operand} {o : Op} {s s' : Session} {x : Operand} (hinner : Built inner)
      (h : Meaning.unary inner o s = .ok x s') : Built x
  | suffix {inner : Operand} {o : Op} {s s' : Session} {x : Operand} (hinner : Built inner)
      (h : Meaning.suffix inner o s = .ok x s') : Built x
  | dice {num : Option Operand} {sides : Operand} {s s' : Session} {x : Operand}
      (hnum : ∀ y, num = some y → Built y) (hsides : Built sides)
      (h : Meaning.dice num sides s = .ok x s') : Built x
  | keep {k : Keep} {target howMany : Operand} {s s' : Session} {x : Operand}
      (htarget : Built target) (hhowMany : Built howMany)
      (h : Meaning.keep k target howMany s = .ok x s') : Built x
  | explode {target faces : Operand} {s s' : Session} {x : Operand} (htarget : Built target)
      (hfaces : Built faces) (h : Meaning.explode target faces s = .ok x s') : Built x
  | array {items : List Operand} (hitems : ∀ x ∈ items, Built x) : Built (.array items)
  | index {target position : Operand} {s s' : Session} {x : Operand} (htarget : Built target)
      (hposition : Built position) (h : Meaning.index target position s = .ok x s') : Built x
  | forced {x y : Operand} {s s' : Session} (hx : Built x) (h : x.force s = .ok y s') : Built y

/-- **Every pool in an operand that has been built is sound.** -/
theorem Operand.Built.sound {x : Operand} (h : x.Built) : x.Sound := by
  induction h with
  | literal h => exact Meaning.sound_literal h
  | binary _ _ h hleft hright => exact Meaning.sound_binary hleft hright h
  | unary _ h hinner => exact Meaning.sound_unary hinner h
  | suffix _ h hinner => exact Meaning.sound_suffix hinner h
  | dice _ _ h _ _ => exact Meaning.sound_dice h
  | keep _ _ h htarget _ => exact Meaning.sound_keep htarget h
  | explode _ _ h htarget _ => exact Meaning.sound_explode htarget h
  | array _ hitems => exact Operand.sound_array.mpr hitems
  | index _ _ h htarget _ => exact Meaning.sound_index htarget h
  | forced _ h hx => exact hx.force h

/-! ## 3. Runs -/

section Runs

variable {s s' : Session} {stack stack' : List Operand}

/-- A call that ends well puts one operand on the stack. -/
theorem call_eq_ok {work : Evaluating Operand}
    (h : (do return (← work) :: stack : OptionT Evaluating (List Operand)).run s =
      .ok (some stack') s') : ∃ x, work s = .ok x s' ∧ stack' = x :: stack := by
  have hbind := run_bind_eq (OptionT.lift work) (fun x => pure (x :: stack)) s
  have hrun := hbind.symm.trans h
  rw [run_lift_eq] at hrun
  cases hwork : work s with
  | ok x s₁ =>
    simp only [hwork] at hrun
    obtain ⟨hstack, rfl⟩ := pure_eq_ok_iff.mp hrun
    exact ⟨x, rfl, (Option.some.inj hstack).symm⟩
  | error e s₁ =>
    simp only [hwork] at hrun
    cases hrun

theorem built_of_call {work : Evaluating Operand} (hstack : ∀ x ∈ stack, x.Built)
    (hwork : ∀ x, work s = .ok x s' → x.Built)
    (h : (do return (← work) :: stack : OptionT Evaluating (List Operand)).run s =
      .ok (some stack') s') : ∀ x ∈ stack', x.Built := by
  obtain ⟨x, hx, rfl⟩ := call_eq_ok h
  exact List.forall_mem_cons.mpr ⟨hwork x hx, hstack⟩

/-- One call leaves operands on the stack that have been built. -/
theorem Actions.built_of_reduce {r : Reduction} (hstack : ∀ x ∈ stack, x.Built)
    (h : (Actions.evaluation.reduce r stack).run s = .ok (some stack') s') :
    ∀ x ∈ stack', x.Built := by
  match r, stack, hstack, h with
  | .literal t, stack, hstack, h => exact built_of_call hstack (fun _ hx => .literal hx) h
  | .binary o, y :: x :: stack, hstack, h =>
    obtain ⟨hy, hx, hstack⟩ := by simpa only [List.forall_mem_cons] using hstack
    exact built_of_call hstack (fun _ hz => .binary hx hy hz) h
  | .unary o, x :: stack, hstack, h =>
    obtain ⟨hx, hstack⟩ := List.forall_mem_cons.mp hstack
    exact built_of_call hstack (fun _ hz => .unary hx hz) h
  | .suffix o, x :: stack, hstack, h =>
    obtain ⟨hx, hstack⟩ := List.forall_mem_cons.mp hstack
    exact built_of_call hstack (fun _ hz => .suffix hx hz) h
  | .dice false, y :: stack, hstack, h =>
    obtain ⟨hy, hstack⟩ := List.forall_mem_cons.mp hstack
    refine built_of_call hstack (fun z (hz : Meaning.dice none y s = .ok z s') => ?_) h
    exact .dice (fun _ hnone => by cases hnone) hy hz
  | .dice true, y :: x :: stack, hstack, h =>
    obtain ⟨hy, hx, hstack⟩ := by simpa only [List.forall_mem_cons] using hstack
    refine built_of_call hstack (fun z (hz : Meaning.dice (some x) y s = .ok z s') => ?_) h
    exact .dice (fun _ hsome => by cases hsome; exact hx) hy hz
  | .keep k, y :: x :: stack, hstack, h =>
    obtain ⟨hy, hx, hstack⟩ := by simpa only [List.forall_mem_cons] using hstack
    exact built_of_call hstack (fun _ hz => .keep hx hy hz) h
  | .explode, y :: x :: stack, hstack, h =>
    obtain ⟨hy, hx, hstack⟩ := by simpa only [List.forall_mem_cons] using hstack
    exact built_of_call hstack (fun _ hz => .explode hx hy hz) h
  | .array size, stack, hstack, h =>
    by_cases hsize : size ≤ stack.length
    · rw [reduce, if_pos hsize] at h
      have hitems : ∀ x ∈ (stack.take size).reverse, x.Built := fun x hx =>
        hstack x (List.mem_of_mem_take (List.mem_reverse.mp hx))
      refine built_of_call (fun x hx => hstack x (List.mem_of_mem_drop hx)) ?_ h
      intro x hx
      obtain ⟨rfl, -⟩ := pure_eq_ok_iff.mp hx
      exact .array hitems
    · rw [reduce, if_neg hsize] at h
      cases h
  | .index, y :: x :: stack, hstack, h =>
    obtain ⟨hy, hx, hstack⟩ := by simpa only [List.forall_mem_cons] using hstack
    exact built_of_call hstack (fun _ hz => .index hx hy hz) h

/-- **Whatever calls are made, what they leave on the stack has been built.** -/
theorem Actions.built_of_perform {steps : List Reduction} (hstack : ∀ x ∈ stack, x.Built)
    (h : (Actions.evaluation.perform steps stack).run s = .ok (some stack') s') :
    ∀ x ∈ stack', x.Built := by
  induction steps generalizing stack s with
  | nil =>
    obtain ⟨hsame, -⟩ := pure_eq_ok_iff.mp h
    cases hsame
    exact hstack
  | cons r steps ih =>
    have hbind := run_bind_eq (Actions.evaluation.reduce r stack)
      (Actions.evaluation.perform steps) s
    have hrun := hbind.symm.trans h
    cases hr : (Actions.evaluation.reduce r stack).run s with
    | error e s₁ =>
      simp only [hr] at hrun
      cases hrun
    | ok result s₁ =>
      cases result with
      | none =>
        simp only [hr] at hrun
        cases hrun
      | some stack₁ =>
        simp only [hr] at hrun
        exact ih (built_of_reduce hstack hr) hrun

theorem built_of_fold {t : Tree} {x : Operand} (h : Actions.evaluation.fold t s = .ok x s') :
    x.Built := by
  have hlift := run_lift_eq_some_iff.mpr h
  have hrun : (Actions.evaluation.perform t.reductions []).run s = .ok (some [x]) s' := by
    rw [Actions.perform_reductions]
    change (OptionT.lift (Actions.evaluation.fold t) >>= _).run s = _
    rw [run_bind_eq]
    simp only [hlift]
    rfl
  exact Actions.built_of_perform (fun _ hmem => absurd hmem List.not_mem_nil) hrun x
    List.mem_cons_self

/-- What a text comes to has been built. -/
theorem built_of_evaluateLazily {depth : Nat} {text : String} {x : Operand}
    (h : evaluateLazily depth text s = .ok x s') : x.Built := by
  rcases evaluateLazily_outcome depth text with ⟨t, hfold⟩ | ⟨done, e, hfails⟩
  · exact built_of_fold (hfold ▸ h)
  · rw [hfails] at h
    obtain ⟨_, s₁, -, h⟩ := bind_eq_ok_iff.mp h
    exact absurd h fail_ne_ok

end Runs

/-! ## 4. Chains of keeps and explosions -/

/-- The operand `y` comes of `x` by keeps and explosions, one after the other and each of them in
any session, that make the changes `cs`. -/
inductive Operand.ChangedBy (x : Operand) : List Pool.Change → Operand → Prop
  | refl : ChangedBy x [] x
  | keep {cs : List Pool.Change} {y z howMany : Operand} {k : Keep} {amount : Nat}
      {s s₁ s' : Session} (hy : ChangedBy x cs y)
      (hamount : Meaning.amount k howMany s = .ok amount s₁)
      (h : Meaning.keep k y howMany s = .ok z s') : ChangedBy x (cs ++ [.keep k amount]) z
  | bang {cs : List Pool.Change} {y z : Operand} {s s' : Session} (hy : ChangedBy x cs y)
      (h : Meaning.suffix y .bang s = .ok z s') : ChangedBy x (cs ++ [.explodeOnGreatest]) z
  | explode {cs : List Pool.Change} {y z faces : Operand} {v : Value} {s s₁ s' : Session}
      (hy : ChangedBy x cs y) (hfaces : faces.forceAll s = .ok v s₁)
      (h : Meaning.explode y faces s = .ok z s') :
      ChangedBy x (cs ++ [.explodeOn (Meaning.triggersOf v)]) z

namespace Meaning

theorem suffix_bang_pool (p : Pool) (s : Session) :
    suffix (.pool p) .bang s = .ok (.pool p.explodeOnGreatest) s := rfl

theorem amount_int (k : Keep) (n : Nat) (s : Session) :
    amount k (.scalar (.int n)) s = .ok n s := by
  have hn : ¬ (n : Int) < 0 := by omega
  change (if (n : Int) < 0 then fail (.negativeAmount k n) else return n : Evaluating Int) s = _
  rw [if_neg hn]
  rfl

theorem keep_int (k : Keep) (p : Pool) (n : Nat) (s : Session) :
    keep k (.pool p) (.scalar (.int n)) s = .ok (.pool (p.keep k n)) s :=
  bind_eq_ok_iff.mpr ⟨n, s, amount_int k n s, rfl⟩

theorem forceAll_faces (faces : List Value) (s : Session) :
    (Operand.ofValue (.array faces)).forceAll s = .ok (.array faces) s := by
  rw [Value.forceAll_ofValue]
  rfl

theorem explode_faces (p : Pool) (faces : List Value) (s : Session) :
    explode (.pool p) (.ofValue (.array faces)) s = .ok (.pool (p.explodeOn faces)) s :=
  bind_eq_ok_iff.mpr ⟨.array faces, s, forceAll_faces faces s, rfl⟩

end Meaning

/-- A chain of actions on a pool makes the changes of the pool, and every chain of changes can come
about. -/
theorem Operand.changedBy_pool_iff {p : Pool} {cs : List Pool.Change} {y : Operand} :
    (pool p).ChangedBy cs y ↔ y = pool (p.afterAll cs) := by
  constructor
  · intro h
    induction h with
    | refl => rfl
    | keep _ hamount h hy =>
      subst hy
      obtain ⟨n, hn, rfl⟩ := Meaning.keep_pool_eq_ok h
      have hsame := EStateM.Result.ok.inj (hamount.symm.trans hn)
      rw [Pool.afterAll_append, ← Int.ofNat.inj hsame.1]
      rfl
    | bang _ h hy =>
      subst hy
      obtain ⟨rfl, -⟩ := EStateM.Result.ok.inj ((Meaning.suffix_bang_pool _ _).symm.trans h)
      rw [Pool.afterAll_append]
      rfl
    | explode _ hfaces h hy =>
      subst hy
      obtain ⟨q, v, hq, hv, rfl⟩ := Meaning.explode_eq_ok h
      cases hq
      obtain ⟨rfl, -⟩ := EStateM.Result.ok.inj (hfaces.symm.trans hv)
      rw [Pool.afterAll_append]
      rfl
  · rintro rfl
    have s : Session := Session.start (.script [])
    induction cs using List.reverseRecOn with
    | nil => exact .refl
    | append_singleton cs c ih =>
      rw [Pool.afterAll_append]
      cases c with
      | keep k amount =>
        exact .keep ih (Meaning.amount_int k amount s) (Meaning.keep_int k _ amount s)
      | explodeOnGreatest => exact .bang ih (Meaning.suffix_bang_pool _ s)
      | explodeOn faces =>
        exact .explode ih (Meaning.forceAll_faces faces s) (Meaning.explode_faces _ faces s)

/-- A keep and an explosion that are neighbours in a chain can change places. -/
theorem Operand.changedBy_exchange {p : Pool} {c : Pool.Change} (hc : c.keep? = none)
    (before behind : List Pool.Change) (k : Keep) (amount : Nat) (y : Operand) :
    (pool p).ChangedBy (before ++ .keep k amount :: c :: behind) y ↔
      (pool p).ChangedBy (before ++ c :: .keep k amount :: behind) y := by
  rw [changedBy_pool_iff, changedBy_pool_iff, Pool.afterAll_append, Pool.afterAll_append,
    Pool.afterAll_cons, Pool.afterAll_cons, Pool.afterAll_cons, Pool.afterAll_cons,
    Pool.after_keep_comm hc]

/-- **Kept ranges are valid, and chained keeps take from what the others left.**  Everything on the
stack of a run has been built by the actions, and all pools in what has been built are sound.  The
pool of a dice term, after any chain of keeps and explosions, keeps as many dice as the smallest
amount says, and of any rolls those that are left when the keeps are applied to the list of rolls,
in their order; keeps leave the dice and the triggers alone, and explosions the dice and the range,
so that a keep and an explosion can change places. -/
theorem Pool.kept_ranges :
    (∀ (depth : Nat) (text : String), ∃ o : Outline,
      OptionT.lift (Actions.evaluation.readText depth text).run = Actions.evaluation.follow o) ∧
    (∀ (steps : List Reduction) (s : Session) (stack : List Operand) (s' : Session),
      (Actions.evaluation.perform steps []).run s = .ok (some stack) s' → ∀ x ∈ stack, x.Built) ∧
    (∀ (depth : Nat) (text : String) (s : Session) (x : Operand) (s' : Session),
      evaluateLazily depth text s = .ok x s' → x.Built) ∧
    (∀ x : Operand, x.Built → ∀ p ∈ x.pools, p.Sound) ∧
    ∀ (num : Option Operand) (sides : Operand) (s : Session) (x : Operand) (s' : Session),
      Meaning.dice num sides s = .ok x s' → ∃ p, x = .pool p ∧ ∀ cs : List Change,
        (∀ y, x.ChangedBy cs y ↔ y = .pool (p.afterAll cs)) ∧
        (p.afterAll cs).kept =
          (Change.keeps cs).foldl (fun least kept => min least (kept.2 : Int)) p.num ∧
        (∀ (α : Type) (rolls : List α), (rolls.length : Int) = p.num →
          slice rolls (p.afterAll cs).lowest ((p.afterAll cs).highest + 1) =
            keepAll (Change.keeps cs) rolls) ∧
        ∀ (k : Keep) (amount : Nat) (c : Change), c.keep? = none →
          (((p.afterAll cs).after (.keep k amount)).num = p.num ∧
            ((p.afterAll cs).after (.keep k amount)).sides = p.sides ∧
            ((p.afterAll cs).after (.keep k amount)).triggers = (p.afterAll cs).triggers) ∧
          (((p.afterAll cs).after c).num = p.num ∧ ((p.afterAll cs).after c).sides = p.sides ∧
            ((p.afterAll cs).after c).lowest = (p.afterAll cs).lowest ∧
            ((p.afterAll cs).after c).highest = (p.afterAll cs).highest) ∧
          ∀ (behind : List Change) (y : Operand),
            x.ChangedBy (cs ++ .keep k amount :: c :: behind) y ↔
              x.ChangedBy (cs ++ c :: .keep k amount :: behind) y := by
  refine ⟨?_, ?_, ?_, fun x hx => hx.sound, ?_⟩
  · intro depth text
    rcases readText_outcome depth text with ⟨t, hread⟩ | ⟨done, e, hread⟩
    · exact ⟨.accepted t, by rw [hread, Actions.follow_accepted]⟩
    · exact ⟨.broken done e, by rw [hread, Actions.follow_broken]⟩
  · intro steps s stack s' h
    exact Actions.built_of_perform (fun _ hmem => absurd hmem List.not_mem_nil) h
  · intro depth text s x s' h
    exact built_of_evaluateLazily h
  · intro num sides s x s' h
    obtain ⟨n, faces, rfl, hn, hfaces⟩ := Meaning.dice_eq_ok h
    have hsound : (ofSides n faces).Sound := sound_ofSides hn hfaces
    refine ⟨ofSides n faces, rfl, fun cs => ⟨fun y => Operand.changedBy_pool_iff, ?_, ?_, ?_⟩⟩
    · have hall : (ofSides n faces).kept = (ofSides n faces).num := by simp [kept, ofSides]
      rw [hsound.kept_afterAll, hall]
    · intro α rolls hrolls
      have hall : (ofSides n faces).inRange rolls = rolls := inRange_ofSides (Int.ofNat.inj hrolls)
      exact (hsound.inRange_afterAll hrolls cs).trans (congrArg _ hall)
    · intro k amount c hc
      obtain ⟨hnum, hsides⟩ := (ofSides n faces).dice_afterAll cs
      obtain ⟨hnum', hsides'⟩ := ((ofSides n faces).afterAll cs).dice_after c
      obtain ⟨hlow, hhigh⟩ := range_after hc ((ofSides n faces).afterAll cs)
      refine ⟨⟨?_, ?_, ?_⟩, ⟨hnum'.trans hnum, hsides'.trans hsides, hlow, hhigh⟩, ?_⟩
      · exact (num_keep _ k amount).trans hnum
      · exact (sides_keep _ k amount).trans hsides
      · exact triggers_keep _ k amount
      · exact fun behind y => Operand.changedBy_exchange hc cs behind k amount y

/-- Of four dice first the three lowest are kept, and of these the two highest: the dice in the
middle. -/
theorem Pool.kept_ranges_middle_of_four :
    let s := Session.start (.script [])
    let p := ofSides 4 (Meaning.numbered 6)
    let q := p.afterAll [.keep .lowest 3, .explodeOnGreatest, .keep .highest 2]
    (Actions.evaluation.perform [.literal (.number 4), .literal (.number 6), .dice true] []).run s =
        .ok (some [.pool p]) s ∧
      p.Sound ∧
      (Operand.pool p).ChangedBy [.keep .lowest 3, .explodeOnGreatest, .keep .highest 2]
        (.pool q) ∧
      q.kept = 2 ∧ slice [1, 2, 4, 6] q.lowest (q.highest + 1) = [2, 4] := by
  intro s p q
  obtain ⟨-, hbuilt, -, hsound, hchains⟩ := Pool.kept_ranges
  have hrun : (Actions.evaluation.perform [.literal (.number 4), .literal (.number 6), .dice true]
      []).run s = .ok (some [.pool p]) s := rfl
  have hp : (Operand.pool p).Built := hbuilt _ s _ s hrun _ List.mem_cons_self
  obtain ⟨_, hpool, hchain⟩ :=
    hchains (some (.scalar (.int 4))) (.scalar (.int 6)) s (.pool p) s rfl
  cases hpool
  obtain ⟨hchanged, hkept, hslice, -⟩ :=
    hchain [.keep .lowest 3, .explodeOnGreatest, .keep .highest 2]
  exact ⟨hrun, hsound _ hp p List.mem_cons_self, (hchanged _).mpr rfl, hkept,
    hslice Nat [1, 2, 4, 6] rfl⟩

end DiceNotation
