/-
# Pending dice

The dice in an operand that are not rolled yet are **pending** (`Operand.pending`).  They are handed
on by most actions, forced by some and dropped by others, but never doubled: as long as there are no
explosions, what an action draws and what is pending in its result was pending in its operands, or
is the number of dice of a new dice term (`Actions.RollsOnce`, with one lemma for each action).  A
value holds no dice, so that reading a variable draws nothing.
-/
import DiceNotation.Proofs.Evaluation.SoundPools
import DiceNotation.Proofs.Rolling.Thrift

namespace DiceNotation

/-! ## 1. What is pending -/

/-- How many dice some pools have. -/
def pendingIn (pools : List Pool) : Nat := (pools.map fun p => p.num.toNat).sum

@[simp] theorem pendingIn_nil : pendingIn [] = 0 := rfl

@[simp] theorem pendingIn_singleton (p : Pool) : pendingIn [p] = p.num.toNat := by
  simp [pendingIn]

@[simp] theorem pendingIn_append (ps qs : List Pool) :
    pendingIn (ps ++ qs) = pendingIn ps + pendingIn qs := by
  simp [pendingIn]

/-- Pools of which none explodes. -/
def Calm (pools : List Pool) : Prop := ∀ p ∈ pools, p.triggers = []

theorem Calm.of_subset {ps qs : List Pool} (h : Calm ps) (hsub : ∀ q ∈ qs, q ∈ ps) : Calm qs :=
  fun q hq => h q (hsub q hq)

theorem calm_nil : Calm [] := fun _ h => absurd h List.not_mem_nil

theorem calm_append {ps qs : List Pool} : Calm (ps ++ qs) ↔ Calm ps ∧ Calm qs := by
  simp only [Calm, List.mem_append]
  exact ⟨fun h => ⟨fun p hp => h p (.inl hp), fun p hp => h p (.inr hp)⟩,
    fun h p hp => hp.elim (h.1 p) (h.2 p)⟩

namespace Operand

/-- How many dice in an operand are not rolled yet, at any depth. -/
def pending (x : Operand) : Nat := pendingIn x.pools

/-- The pending dice of some operands. -/
def pendingOf (xs : List Operand) : Nat := pendingIn (poolsOf xs)

@[simp] theorem pending_scalar (c : Scalar) : (scalar c).pending = 0 := rfl

@[simp] theorem pending_place (p : Place) : (place p).pending = 0 := rfl

@[simp] theorem pending_pool (p : Pool) : (pool p).pending = p.num.toNat := pendingIn_singleton p

@[simp] theorem pending_array (items : List Operand) :
    (array items).pending = pendingOf items := rfl

@[simp] theorem pending_ofValue (v : Value) : (ofValue v).pending = 0 := by
  rw [pending, pools_ofValue, pendingIn_nil]

@[simp] theorem pendingOf_nil : pendingOf [] = 0 := rfl

@[simp] theorem pendingOf_cons (x : Operand) (xs : List Operand) :
    pendingOf (x :: xs) = x.pending + pendingOf xs := by
  simp [pendingOf, pending]

@[simp] theorem pendingOf_append (xs ys : List Operand) :
    pendingOf (xs ++ ys) = pendingOf xs + pendingOf ys := by
  simp [pendingOf]

@[simp] theorem pendingOf_reverse (xs : List Operand) : pendingOf xs.reverse = pendingOf xs := by
  induction xs with
  | nil => rfl
  | cons x xs ih => simp [ih, Nat.add_comm]

@[simp] theorem pendingOf_scalars (cs : List Scalar) : pendingOf (cs.map scalar) = 0 := by
  rw [pendingOf, poolsOf_scalars, pendingIn_nil]

theorem pending_le_of_mem {x : Operand} {xs : List Operand} (h : x ∈ xs) :
    x.pending ≤ pendingOf xs := by
  induction xs with
  | nil => exact absurd h List.not_mem_nil
  | cons y xs ih =>
    rw [pendingOf_cons]
    rcases List.mem_cons.mp h with rfl | h
    · exact Nat.le_add_right _ _
    · exact Nat.le_trans (ih h) (Nat.le_add_left _ _)

/-- An operand in which no dice explode. -/
def Calm (x : Operand) : Prop := DiceNotation.Calm x.pools

theorem calm_poolsOf {xs : List Operand} :
    DiceNotation.Calm (poolsOf xs) ↔ ∀ x ∈ xs, x.Calm := by
  simp only [DiceNotation.Calm, Calm, mem_poolsOf]
  exact ⟨fun h x hx p hp => h p ⟨x, hx, hp⟩, fun h p ⟨x, hx, hp⟩ => h x hx p hp⟩

/-- Of sound pools the dice that are pending are counted by their numbers. -/
theorem pending_eq_sum {x : Operand} (h : x.Sound) :
    (x.pending : Int) = (x.pools.map Pool.num).sum := by
  have hpools : ∀ ps : List Pool, (∀ p ∈ ps, p.Sound) →
      (pendingIn ps : Int) = (ps.map Pool.num).sum := by
    intro ps hps
    induction ps with
    | nil => rfl
    | cons p ps ih =>
      obtain ⟨hp, hps⟩ := List.forall_mem_cons.mp hps
      have hnum := hp.num_nonneg
      rw [List.map_cons, List.sum_cons, ← ih hps]
      simp only [pendingIn, List.map_cons, List.sum_cons]
      omega
  exact hpools x.pools h

end Operand

/-! ## 2. Forcing -/

/-- The draws of a session. -/
def Session.drawn (s : Session) : Nat := s.tray.drawn

/-- Work on a session that gets by on some draws, and leaves none of them over. -/
abbrev Evaluating.Within {α : Type} (work : Evaluating α) (allowed : Nat) (s : Session) : Prop :=
  Thrifty Session.drawn allowed (fun _ => 0) work s

section Forcing

variable {α : Type} {s : Session}

theorem Rolling.Within.inSession {work : Rolling α} {allowed : Nat}
    (h : work.Within allowed s.tray) : work.inSession.Within allowed s := by
  constructor
  · intro a s' hok
    obtain ⟨t, hwork, rfl⟩ := Rolling.inSession_eq_ok_iff.mp hok
    exact h.of_ok hwork
  · intro f s' herror
    obtain ⟨t, hwork, rfl⟩ := Rolling.inSession_eq_error_iff.mp herror
    exact h.of_error hwork

/-- Arithmetic draws nothing. -/
theorem within_metered (work : Metered α) : (liftM work : Evaluating α).Within 0 s :=
  Rolling.Within.inSession (within_onTray work s.tray)

theorem within_inVariables (work : EStateM Fault Variables α) : (inVariables work).Within 0 s := by
  refine .of_same (fun a s' h => ?_) fun f s' h => ?_
  · obtain ⟨vars, -, rfl⟩ := inVariables_eq_ok_iff.mp h
    rfl
  · obtain ⟨vars, -, rfl⟩ := inVariables_eq_error_iff.mp h
    rfl

/-- **Reading a variable leaves the session as it is**, whether there is a value or not. -/
theorem readPlace_same (p : Place) (s : Session) :
    (∃ v, readPlace p s = .ok v s) ∨ ∃ f, readPlace p s = .error f s := by
  rw [readPlace_apply]
  cases s.vars.get p with
  | ok v => exact .inl ⟨v, rfl⟩
  | error e => exact .inr ⟨e.fault, rfl⟩

theorem within_readPlace (p : Place) (s : Session) : (readPlace p).Within 0 s := by
  refine .of_same (fun v s' h => ?_) fun f s' h => ?_
  · rcases readPlace_same p s with ⟨w, hread⟩ | ⟨e, hread⟩
    · cases hread.symm.trans h
      rfl
    · cases hread.symm.trans h
  · rcases readPlace_same p s with ⟨w, hread⟩ | ⟨e, hread⟩
    · cases hread.symm.trans h
    · cases hread.symm.trans h
      rfl

namespace Operand

/-- Forcing an operand draws its dice, unless it is an array: then they stay pending. -/
theorem thrifty_force {x : Operand} (hx : x.Calm) (s : Session) :
    Thrifty Session.drawn x.pending pending x.force s := by
  cases x with
  | scalar c => exact .pure (Nat.le_refl _)
  | array items => exact .pure (Nat.le_refl _)
  | place p => exact (within_readPlace p s).bind fun v s₁ _ => .pure (by simp)
  | pool p =>
    have hcalm : p.triggers = [] := hx p List.mem_cons_self
    rw [pending_pool]
    exact (Rolling.Within.inSession (Pool.within_roll hcalm s.tray)).bind fun v s₁ _ =>
      .pure (by simp)

mutual

/-- Forcing everything in an operand draws its dice. -/
theorem within_forceAll : (x : Operand) → x.Calm → (s : Session) →
    x.forceAll.Within x.pending s
  | .scalar c, _, _ => .pure (Nat.le_refl _)
  | .place p, _, s => within_readPlace p s
  | .pool p, hx, s => by
    rw [pending_pool]
    exact Rolling.Within.inSession (Pool.within_roll (hx p List.mem_cons_self) s.tray)
  | .array items, hx, s => by
    rw [forceAll]
    exact (within_forceAllOnto items hx [] s).bind fun vs s₁ _ => .pure (Nat.le_refl _)

theorem within_forceAllOnto : (items : List Operand) → DiceNotation.Calm (poolsOf items) →
    (done : List Value) → (s : Session) →
    (forceAllOnto done items).Within (pendingOf items) s
  | [], _, _, _ => .pure (Nat.le_refl _)
  | x :: items, h, done, s => by
    obtain ⟨hx, hitems⟩ := calm_append.mp h
    rw [forceAllOnto, pendingOf_cons, Nat.add_comm]
    exact ((within_forceAll x hx s).frame _).bind fun v s₁ _ =>
      within_forceAllOnto items hitems (v :: done) s₁

end

end Operand

theorem within_forceScalars {operation : String} {items : List Operand}
    (h : Calm (Operand.poolsOf items)) (done : List Scalar) (s : Session) :
    (forceScalars operation done items).Within (Operand.pendingOf items) s := by
  induction items generalizing done s with
  | nil => exact .pure (Nat.le_refl _)
  | cons x items ih =>
    obtain ⟨hx, hitems⟩ := calm_append.mp h
    rw [forceScalars, Operand.pendingOf_cons, Nat.add_comm]
    refine ((Operand.thrifty_force hx s).frame _).bind fun y s₁ _ => ?_
    cases y with
    | scalar c => exact ih hitems _ s₁
    | _ => exact .throw _

theorem within_keepItems {items : List Operand} {amount : Int} {k : Keep} {operation : String}
    (h : Calm (Operand.poolsOf items)) :
    (keepItems items amount k operation).Within (Operand.pendingOf items) s :=
  (within_forceScalars h [] s).bind fun _ _ _ => .pure (Nat.le_refl _)

end Forcing

/-! ## 3. Actions -/

namespace Meaning

variable {s : Session} {left right inner target faces position howMany sides x : Operand}

theorem thrifty_literal (t : Token) : Thrifty Session.drawn 0 Operand.pending (literal t) s := by
  cases t with
  | string content =>
    have hchars : content.toList.map (fun c => Operand.scalar (.char c)) =
        (content.toList.map Scalar.char).map .scalar := List.map_map.symm
    refine .pure ?_
    rw [hchars, Operand.pending_array, Operand.pendingOf_scalars]
  | number n => exact .pure (Nat.le_refl _)
  | word name => exact .pure (Nat.le_refl _)
  | char c => exact .pure (Nat.le_refl _)
  | op o => exact .throw _
  | malformed piece => exact .throw _
  | stray c => exact .throw _
  | endOfInput => exact .throw _

theorem thrifty_assign (hright : right.Calm) :
    Thrifty Session.drawn (left.pending + right.pending) Operand.pending (assign left right) s := by
  cases left with
  | place p =>
    refine ((right.within_forceAll hright s).frame _).bind fun v s₁ _ => ?_
    refine (within_inVariables _).bind fun _ s₂ _ => ?_
    exact .pure (Nat.le_refl _)
  | _ => exact .throw _

theorem thrifty_binary (hleft : left.Calm) (hright : right.Calm) (o : Op) :
    Thrifty Session.drawn (left.pending + right.pending) Operand.pending (binary left right o)
      s := by
  rw [Nat.add_comm]
  cases ho : o.arithmetic? with
  | some operation =>
    simp only [binary, ho]
    refine ((left.within_forceAll hleft s).frame _).bind fun v s₁ _ => ?_
    refine (right.within_forceAll hright s₁).bind fun w s₂ _ => ?_
    refine (within_metered (operation v w)).bind fun u s₃ _ => .pure ?_
    simp
  | none =>
    cases o with
    | comma =>
      refine ((Operand.thrifty_force hleft s).frame _).bind fun y s₁ _ => ?_
      rw [Nat.add_comm]
      refine ((Operand.thrifty_force hright s₁).frame _).bind fun z s₂ _ => .pure ?_
      simp [poolsOf_elements, Operand.pending]
    | semicolon => exact .pure (Nat.le_add_right _ _)
    | assign =>
      rw [Nat.add_comm]
      exact thrifty_assign hright
    | _ => first | exact .throw _ | cases ho

theorem thrifty_unary (hinner : inner.Calm) (o : Op) :
    Thrifty Session.drawn inner.pending Operand.pending (unary inner o) s := by
  cases o with
  | plus => exact .pure (Nat.le_refl _)
  | minus =>
    refine (inner.within_forceAll hinner s).bind fun v s₁ _ => ?_
    exact (within_metered v.neg).bind fun w s₂ _ => .pure (by simp)
  | comma => exact .pure (by simp)
  | hash =>
    refine (Operand.thrifty_force hinner s).bind fun y s₁ _ => ?_
    cases y with
    | array items => exact .pure (Nat.zero_le _)
    | _ => exact .throw _
  | _ => exact .throw _

theorem num_explodeOnGreatest (p : Pool) : p.explodeOnGreatest.num = p.num :=
  (p.dice_after .explodeOnGreatest).1

theorem thrifty_suffix (hinner : inner.Calm) (o : Op) :
    Thrifty Session.drawn inner.pending Operand.pending (suffix inner o) s := by
  cases o with
  | percent =>
    refine (inner.within_forceAll hinner s).bind fun v s₁ _ => ?_
    exact (within_metered (v.div (.int 100))).bind fun w s₂ _ => .pure (by simp)
  | bang =>
    by_cases hpool : ∃ p, inner = .pool p
    · obtain ⟨p, rfl⟩ := hpool
      exact .pure (by simp [num_explodeOnGreatest])
    · rw [suffix_bang_of_ne_pool fun p hp => hpool ⟨p, hp⟩]
      refine (Operand.thrifty_force hinner s).bind fun y s₁ _ => ?_
      obtain ⟨e, -, -, hfactorial⟩ := exists_factorialOf_eq y
      rw [hfactorial]
      exact .throw _
  | _ => exact .throw _

theorem within_count (x : Operand) (what : Counted) : (count x what).Within 0 s := by
  cases hx : x.toInt with
  | error cause =>
    simp only [count, hx]
    exact .throw _
  | ok n =>
    simp only [count, hx]
    split
    · exact .throw _
    · split
      · exact .throw _
      · exact .pure (Nat.le_refl _)

theorem within_sidesOf (hx : x.Calm) : (sidesOf x).Within x.pending s := by
  have hcounted (y : Operand) : Evaluating.Within (do return numbered (← count y .sides)) 0 s :=
    (within_count y .sides).bind fun _ _ _ => .pure (Nat.le_refl _)
  cases x with
  | array items =>
    simp only [sidesOf]
    split
    · exact .throw _
    · exact (Operand.within_forceAllOnto items hx [] s).bind fun _ _ _ => .pure (Nat.le_refl _)
  | scalar c => exact hcounted _
  | place p => exact hcounted _
  | pool p => exact (hcounted _).mono (Nat.zero_le _) fun _ => Nat.le_refl _

/-- The operands of a dice term are forced. -/
theorem within_dice {num : Option Operand} (hnum : ∀ y ∈ num, y.Calm) (hsides : sides.Calm) :
    (dice num sides).Within (Operand.pendingOf num.toList + sides.pending) s := by
  have hrest (n : Nat) (s₁ : Session) :
      Evaluating.Within (do return Operand.pool (.ofSides n (← sidesOf (← sides.force))))
        sides.pending s₁ := by
    refine (Operand.thrifty_force hsides s₁).bind fun y s₂ hy => ?_
    have hcalm : y.Calm := Calm.of_subset hsides fun _ hp => mem_pools_of_force hy hp
    exact (within_sidesOf hcalm).bind fun faces s₃ _ => .pure (Nat.le_refl _)
  cases num with
  | none => exact (hrest 1 s).mono (by simp) fun _ => Nat.le_refl _
  | some z =>
    simp only [Option.toList_some, Operand.pendingOf_cons, Operand.pendingOf_nil, Nat.add_zero]
    rw [Nat.add_comm]
    refine ((Operand.thrifty_force (hnum z rfl) s).frame _).bind fun w s₁ _ => ?_
    -- what is left over of the number is dropped
    refine Thrifty.mono ?_ (Nat.le_add_right _ _) fun _ => Nat.le_refl _
    exact ((within_count w .dice).frame _).bind fun n s₂ _ => hrest n s₂

/-- The number of dice of the pool that some work makes; 0 if it makes none. -/
def diceMade (work : Evaluating Operand) (s : Session) : Nat :=
  match work s with
  | .ok (.pool p) _ => p.num.toNat
  | _ => 0

/-- A dice term adds its own dice. -/
theorem thrifty_dice {num : Option Operand} (hnum : ∀ y ∈ num, y.Calm) (hsides : sides.Calm) :
    Thrifty Session.drawn
      (Operand.pendingOf num.toList + sides.pending + diceMade (dice num sides) s) Operand.pending
      (dice num sides) s where
  of_ok h := by
    obtain ⟨n, faces, rfl, -, -⟩ := dice_eq_ok h
    have hdrawn := (within_dice hnum hsides).of_ok h
    simp only [diceMade, h, Operand.pending_pool]
    omega
  of_error h := by
    have hdrawn := (within_dice hnum hsides).of_error h
    omega

theorem within_amount (hx : x.Calm) (k : Keep) : (amount k x).Within x.pending s := by
  refine (Operand.thrifty_force hx s).bind fun y s₁ _ => ?_
  cases y.toInt with
  | error cause => exact .throw _
  | ok n =>
    simp only
    split
    · exact .throw _
    · exact .pure (Nat.zero_le _)

theorem thrifty_keepOf (hx : x.Calm) (k : Keep) (n : Int) :
    Thrifty Session.drawn x.pending Operand.pending (keepOf k n x) s := by
  cases x with
  | array items =>
    refine (within_keepItems hx).bind fun kept s₁ hkept => .pure ?_
    rw [Operand.pending, Operand.pools_array, pools_of_keepItems hkept]
    exact Nat.le_refl _
  | _ => exact .throw _

theorem thrifty_keep (htarget : target.Calm) (hhowMany : howMany.Calm) (k : Keep) :
    Thrifty Session.drawn (target.pending + howMany.pending) Operand.pending
      (keep k target howMany) s := by
  by_cases hpool : ∃ p, target = .pool p
  · obtain ⟨p, rfl⟩ := hpool
    exact ((within_amount hhowMany k).frame _).bind fun n s₁ _ => .pure (by simp [p.num_keep])
  · rw [keep_of_ne_pool fun p hp => hpool ⟨p, hp⟩]
    refine ((within_amount hhowMany k).frame _).bind fun n s₁ _ => ?_
    refine (Operand.thrifty_force htarget s₁).bind fun y s₂ hy => ?_
    exact thrifty_keepOf (Calm.of_subset htarget fun _ hp => mem_pools_of_force hy hp) k n

theorem thrifty_explode (htarget : target.Calm) (hfaces : faces.Calm) :
    Thrifty Session.drawn (target.pending + faces.pending) Operand.pending
      (explode target faces) s := by
  by_cases hpool : ∃ p, target = .pool p
  · obtain ⟨p, rfl⟩ := hpool
    exact ((faces.within_forceAll hfaces s).frame _).bind fun v s₁ _ => .pure (by
      simp [Pool.explodeOn])
  · rw [explode_of_ne_pool fun p hp => hpool ⟨p, hp⟩]
    rw [Nat.add_comm]
    exact ((Operand.thrifty_force htarget s).frame _).bind fun _ _ _ => .throw _

/-- What stands at an index was pending in the array. -/
theorem thrifty_elementOf (i : Int) :
    Thrifty Session.drawn x.pending Operand.pending (elementOf i x) s := by
  cases x with
  | array items =>
    cases hi : elementAt? items i with
    | some z =>
      simp only [elementOf, hi]
      exact .pure (Operand.pending_le_of_mem (mem_of_elementAt? hi))
    | none =>
      simp only [elementOf, hi]
      exact .throw _
  | _ => exact .throw _

theorem thrifty_index (htarget : target.Calm) (hposition : position.Calm) :
    Thrifty Session.drawn (target.pending + position.pending) Operand.pending
      (index target position) s := by
  rw [index_eq]
  refine ((Operand.thrifty_force hposition s).frame _).bind fun y s₁ _ => ?_
  refine Thrifty.mono ?_ (Nat.le_add_right _ _) fun _ => Nat.le_refl _
  cases y.toInt with
  | error cause => exact .throw _
  | ok i =>
    by_cases hplace : ∃ p, target = .place p
    · obtain ⟨p, rfl⟩ := hplace
      exact .pure (Nat.le_refl _)
    · rw [indexBy_of_ne_place fun p hp => hplace ⟨p, hp⟩]
      exact (Operand.thrifty_force htarget s₁).bind fun z s₂ _ => thrifty_elementOf i

end Meaning

/-- Actions that double no dice.  Of operands without explosions, each of them draws no more than
was pending in the operands, together with what stays pending in its result; a dice term has its own
dice in addition.  When an action fails, nothing is left pending, and what it has drawn keeps within
the same bound. -/
structure Actions.RollsOnce (acts : Actions Evaluating Operand) : Prop where
  literal (t : Token) (s : Session) : Thrifty Session.drawn 0 Operand.pending (acts.literal t) s
  binary {left right : Operand} (hleft : left.Calm) (hright : right.Calm) (o : Op) (s : Session) :
    Thrifty Session.drawn (left.pending + right.pending) Operand.pending
      (acts.binary left right o) s
  unary {inner : Operand} (hinner : inner.Calm) (o : Op) (s : Session) :
    Thrifty Session.drawn inner.pending Operand.pending (acts.unary inner o) s
  suffix {inner : Operand} (hinner : inner.Calm) (o : Op) (s : Session) :
    Thrifty Session.drawn inner.pending Operand.pending (acts.suffix inner o) s
  dice {num : Option Operand} {sides : Operand} (hnum : ∀ y ∈ num, y.Calm) (hsides : sides.Calm)
    (s : Session) :
    Thrifty Session.drawn
      (Operand.pendingOf num.toList + sides.pending + Meaning.diceMade (acts.dice num sides) s)
      Operand.pending (acts.dice num sides) s
  keep {target howMany : Operand} (htarget : target.Calm) (hhowMany : howMany.Calm) (k : Keep)
    (s : Session) :
    Thrifty Session.drawn (target.pending + howMany.pending) Operand.pending
      (acts.keep k target howMany) s
  explode {target faces : Operand} (htarget : target.Calm) (hfaces : faces.Calm) (s : Session) :
    Thrifty Session.drawn (target.pending + faces.pending) Operand.pending
      (acts.explode target faces) s
  array (items : List Operand) (s : Session) :
    Thrifty Session.drawn (Operand.pendingOf items) Operand.pending (acts.array items) s
  index {target position : Operand} (htarget : target.Calm) (hposition : position.Calm)
    (s : Session) :
    Thrifty Session.drawn (target.pending + position.pending) Operand.pending
      (acts.index target position) s

theorem Actions.rollsOnce_evaluation : Actions.evaluation.RollsOnce where
  literal t _ := Meaning.thrifty_literal t
  binary hleft hright o _ := Meaning.thrifty_binary hleft hright o
  unary hinner o _ := Meaning.thrifty_unary hinner o
  suffix hinner o _ := Meaning.thrifty_suffix hinner o
  dice hnum hsides _ := Meaning.thrifty_dice hnum hsides
  keep htarget hhowMany k _ := Meaning.thrifty_keep htarget hhowMany k
  explode htarget hfaces _ := Meaning.thrifty_explode htarget hfaces
  array _ _ := .pure (Nat.le_refl _)
  index htarget hposition _ := Meaning.thrifty_index htarget hposition

end DiceNotation
