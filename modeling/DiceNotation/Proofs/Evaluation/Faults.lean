/-
# What can end an evaluation

An evaluation gives a value that can be written, or it ends with an error of the text.  Three faults
are left, and each has its reason: a step was late, the rolls are used up, or an integer with too
many digits has to be written (`evaluate_outcome`).  Whatever the clock does, the step that was late
is the first one, and the evaluation goes no further.

Which integers have to be written is said without the faults of an evaluation.  A call may have to
write the integers of the paths that it reads, the number of dice or sides that it is asked for, the
amount of a keep, an index and the length of the array that it does not fit, and whatever is
assigned (`Reduction.Writes`); the end of the evaluation writes the result (`ComesUp`).  All other
integers may have any number of digits.

The last fault is the only one that blames neither the text nor what it is run with: it comes up
where everything is defined (`evaluate_numeralTooLong`).

The proof goes along the runs of the stack machine.  Each action ends in order, given what it has to
write (`Meaning.orderly_*`), so each call does (`Actions.orderly_reduce`), and by induction on the
calls every run (`Actions.orderly_perform`).
-/
import Mathlib
import DiceNotation.Proofs.Evaluation.Forcing
import DiceNotation.Proofs.Evaluation.Numerals
import DiceNotation.Proofs.Grammar.Outline

namespace DiceNotation

/-! ## 1. What a call has to write -/

/-- How many operands from the top of the stack a call may force. -/
def Reduction.forces : Reduction → Nat
  | literal _ => 0
  | binary _ => 2
  | unary _ => 1
  | suffix _ => 1
  | dice false => 1
  | dice true => 2
  | keep _ => 2
  | explode => 2
  | array _ => 0
  | index => 2

/-- The number of sides that a forced operand asks for: an integer, or the length of an array. -/
def Operand.sideCount? : Operand → Option Int
  | .array items => some items.length
  | x => x.toInt.toOption

/-- The integers that a call on a stack can have to write when it is made in the session `s`. -/
inductive Reduction.Writes (s : Session) : Reduction → List Operand → Int → Prop
  /-- In the path of a place that it reads. -/
  | path {r : Reduction} {stack : List Operand} {x : Operand} {n : Int}
      (hx : x ∈ stack.take r.forces) (hn : x.Written s.vars n) : Writes s r stack n
  /-- In the value that it assigns. -/
  | assigned {left right : Operand} {stack : List Operand} {v : Value} {s' : Session} {n : Int}
      (hv : right.forceAll s = .ok v s') (hn : v.Holds n) :
      Writes s (.binary .assign) (right :: left :: stack) n
  /-- The number of dice. -/
  | dice {num sides y : Operand} {stack : List Operand} {s' : Session} {n : Int}
      (hy : num.force s = .ok y s') (hn : y.toInt = .ok n) :
      Writes s (.dice true) (sides :: num :: stack) n
  /-- The number of sides of a single die. -/
  | sides {sides y : Operand} {stack : List Operand} {s' : Session} {n : Int}
      (hy : sides.force s = .ok y s') (hn : y.sideCount? = some n) :
      Writes s (.dice false) (sides :: stack) n
  /-- The number of sides, behind the number of dice. -/
  | sidesOf {num sides x y : Operand} {stack : List Operand} {s₁ s₂ : Session} {n : Int}
      (hx : num.force s = .ok x s₁) (hy : sides.force s₁ = .ok y s₂)
      (hn : y.sideCount? = some n) : Writes s (.dice true) (sides :: num :: stack) n
  /-- The amount of a keep. -/
  | amount {k : Keep} {target howMany y : Operand} {stack : List Operand} {s' : Session} {n : Int}
      (hy : howMany.force s = .ok y s') (hn : y.toInt = .ok n) :
      Writes s (.keep k) (howMany :: target :: stack) n
  /-- An index. -/
  | position {target position y : Operand} {stack : List Operand} {s' : Session} {n : Int}
      (hy : position.force s = .ok y s') (hn : y.toInt = .ok n) :
      Writes s .index (position :: target :: stack) n
  /-- The length of an array. -/
  | length {target position x : Operand} {items stack : List Operand} {s₁ s₂ : Session}
      (hx : position.force s = .ok x s₁) (hitems : target.force s₁ = .ok (.array items) s₂) :
      Writes s .index (position :: target :: stack) items.length

/-! ## 2. The actions end in order -/

theorem Op.paced_arithmetic {o : Op} {operation : Value → Value → Metered Value}
    (ho : o.arithmetic? = some operation) (v w : Value) : (operation v w).Paced := by
  cases o <;> first | (cases ho; exact Value.paced_elementwise _ v w) | cases ho

namespace Meaning

variable {s : Session} {written : Int → Prop} {x target : Operand}

/-- An error that spells out no integer. -/
theorem orderly_fail_of_nil {α : Type} {e : EvalError} (he : e ≠ .notSortable)
    (h : e.numerals = []) : (fail e : Evaluating α).OrderlyAt written s := by
  refine orderly_fail he fun n hn => ?_
  rw [h] at hn
  exact absurd hn List.not_mem_nil

theorem orderly_literal (t : Token) : (literal t).OrderlyAt written s := by
  cases t with
  | number n => exact .pure _
  | word name => exact .pure _
  | char c => exact .pure _
  | string content => exact .pure _
  | _ => exact orderly_fail_of_nil nofun rfl

/-- Recording an assignment writes the assigned value; what cannot be assigned writes the path. -/
theorem orderly_inVariables {p : Place} {v : Value}
    (hpath : ∀ n, (Operand.place p).Written s.vars n → written n)
    (hvalue : ∀ n, v.Holds n → written n) :
    (inVariables (Variables.assign p v)).OrderlyAt written s := by
  cases hset : s.vars.set p v with
  | error e =>
    have hrun : inVariables (Variables.assign p v) s = (fail e : Evaluating Unit) s := by
      simp only [inVariables, Variables.assign, hset]
      rfl
    obtain ⟨he, hnumerals⟩ := Variables.get_error (Variables.get_of_set_error hset)
    have hfail : (fail e : Evaluating Unit).OrderlyAt written s :=
      orderly_fail he fun n hn => hpath n (hnumerals n hn)
    constructor
    · intro a s' h
      exact hfail.in_time (hrun.symm.trans h)
    · intro f s' h
      exact hfail.explained (hrun.symm.trans h)
  | ok vars =>
    constructor
    · intro a s' h
      simp only [inVariables, Variables.assign, hset] at h
      split at h
      · cases h
        exact .refl _
      · cases h
    · intro f s' h
      cases hv : v.isWritable with
      | true =>
        simp only [inVariables, Variables.assign, hset, hv, if_true] at h
        cases h
      | false =>
        simp only [inVariables, Variables.assign, hset, hv, Bool.false_eq_true, if_false] at h
        cases h
        obtain ⟨n, hn, hlong⟩ := v.exists_holds_of_not_isWritable hv
        exact ⟨.refl _, n, hvalue n hn, hlong⟩

theorem orderly_assign {left right : Operand} (hleft : ∀ n, left.Written s.vars n → written n)
    (hright : ∀ n, right.Written s.vars n → written n)
    (hvalue : ∀ v s' n, right.forceAll s = .ok v s' → v.Holds n → written n) :
    (assign left right).OrderlyAt written s := by
  cases left with
  | place p =>
    refine ((right.orderly_forceAll s).mono hright).bind fun v s₁ hv => ?_
    have hpath : ∀ n, (Operand.place p).Written s₁.vars n → written n := by
      rwa [Operand.vars_forceAll right hv]
    exact (orderly_inVariables hpath fun n => hvalue v s₁ n hv).bind fun _ _ _ => .pure _
  | _ => exact orderly_fail_of_nil nofun rfl

theorem orderly_binary {left right : Operand} {o : Op}
    (hleft : ∀ n, left.Written s.vars n → written n)
    (hright : ∀ n, right.Written s.vars n → written n)
    (hvalue : ∀ v s' n, o = .assign → right.forceAll s = .ok v s' → v.Holds n → written n) :
    (binary left right o).OrderlyAt written s := by
  cases ho : o.arithmetic? with
  | some operation =>
    simp only [binary, ho]
    refine ((left.orderly_forceAll s).mono hleft).bind fun v s₁ hv => ?_
    have hvars : ∀ n, right.Written s₁.vars n → written n := by
      rwa [Operand.vars_forceAll left hv]
    refine ((right.orderly_forceAll s₁).mono hvars).bind fun w s₂ _ => ?_
    exact (Rolling.Fair.inSession (Op.paced_arithmetic ho v w).fair).bind fun _ _ _ => .pure _
  | none =>
    cases o with
    | comma =>
      refine ((left.orderly_force s).mono hleft).bind fun y s₁ hy => ?_
      have hvars : ∀ n, right.Written s₁.vars n → written n := by
        rwa [Operand.vars_force hy]
      exact ((right.orderly_force s₁).mono hvars).bind fun _ _ _ => .pure _
    | semicolon => exact .pure _
    | assign => exact orderly_assign hleft hright fun v s' n => hvalue v s' n rfl
    | _ => first | exact orderly_fail_of_nil nofun rfl | cases ho

theorem orderly_unary {inner : Operand} {o : Op}
    (hinner : ∀ n, inner.Written s.vars n → written n) :
    (unary inner o).OrderlyAt written s := by
  cases o with
  | plus => exact .pure _
  | minus =>
    refine ((inner.orderly_forceAll s).mono hinner).bind fun v s₁ _ => ?_
    exact (Rolling.Fair.inSession (Value.paced_neg v).fair).bind fun _ _ _ => .pure _
  | comma => exact .pure _
  | hash =>
    refine ((inner.orderly_force s).mono hinner).bind fun y s₁ _ => ?_
    cases y with
    | array items => exact .pure _
    | _ => exact orderly_fail_of_nil nofun rfl
  | _ => exact orderly_fail_of_nil nofun rfl

theorem orderly_suffix {inner : Operand} {o : Op}
    (hinner : ∀ n, inner.Written s.vars n → written n) :
    (suffix inner o).OrderlyAt written s := by
  cases o with
  | percent =>
    refine ((inner.orderly_forceAll s).mono hinner).bind fun v s₁ _ => ?_
    have hdiv := Value.paced_elementwise Scalar.div v (.int 100)
    exact (Rolling.Fair.inSession hdiv.fair).bind fun _ _ _ => .pure _
  | bang =>
    by_cases hpool : ∃ p, inner = .pool p
    · obtain ⟨p, rfl⟩ := hpool
      exact .pure _
    · rw [suffix_bang_of_ne_pool fun p hp => hpool ⟨p, hp⟩]
      refine ((inner.orderly_force s).mono hinner).bind fun y s₁ _ => ?_
      obtain ⟨e, he, hnumerals, hfactorial⟩ := exists_factorialOf_eq y
      rw [hfactorial]
      exact orderly_fail_of_nil he hnumerals
  | _ => exact orderly_fail_of_nil nofun rfl

theorem orderly_count {what : Counted} (h : ∀ n, x.toInt = .ok n → written n) :
    (count x what).OrderlyAt written s := by
  cases hx : x.toInt with
  | error cause =>
    simp only [count, hx]
    exact orderly_fail_of_nil nofun rfl
  | ok n =>
    simp only [count, hx]
    split
    · exact orderly_fail_of_nil nofun rfl
    · split
      · refine orderly_fail nofun fun m hm => ?_
        rw [List.mem_singleton.mp hm]
        exact h n hx
      · exact .pure _

theorem state_count {what : Counted} {n : Nat} {s' : Session} (h : count x what s = .ok n s') :
    s' = s := by
  cases hx : x.toInt with
  | error cause =>
    simp only [count, hx] at h
    cases h
  | ok m =>
    simp only [count, hx] at h
    split at h
    · cases h
    · split at h
      · cases h
      · cases h
        rfl

theorem orderly_sidesOf (hx : ∀ n, x.Written s.vars n → written n)
    (hcount : ∀ n, x.sideCount? = some n → written n) : (sidesOf x).OrderlyAt written s := by
  have hcounted : ∀ {y : Operand}, (∀ n, y.toInt = .ok n → written n) →
      Evaluating.OrderlyAt (do return numbered (← count y .sides)) written s :=
    fun h => (orderly_count h).bind fun _ _ _ => .pure _
  have hasked : ∀ {y : Operand} {n : Int}, y.toInt = .ok n → y.toInt.toOption = some n := by
    intro y n hn
    rw [hn]
    rfl
  cases x with
  | array items =>
    simp only [sidesOf]
    split
    · refine orderly_fail nofun fun m hm => ?_
      rw [List.mem_singleton.mp hm]
      exact hcount _ rfl
    · exact (Operand.orderly_forceAllOnto items [] s fun y hy n hn => hx n (.item hy hn)).bind
        fun _ _ _ => .pure _
  | scalar c => exact hcounted fun n hn => hcount n (hasked hn)
  | place p => exact hcounted fun n hn => hcount n (hasked hn)
  | pool p => exact hcounted fun n hn => hcount n (hasked hn)

/-- The sides of a die, when the number of dice is known. -/
theorem orderly_sides {sides : Operand} (hsides : ∀ n, sides.Written s.vars n → written n)
    (hcount : ∀ y s' n, sides.force s = .ok y s' → y.sideCount? = some n → written n) (n : Nat) :
    Evaluating.OrderlyAt (do return Operand.pool (.ofSides n (← sidesOf (← sides.force))) :
      Evaluating Operand) written s := by
  refine ((sides.orderly_force s).mono hsides).bind fun y s₁ hy => ?_
  have hfaces : ∀ m, y.Written s₁.vars m → written m := by
    intro m hm
    rw [Operand.vars_force hy] at hm
    exact hsides m (hm.of_force hy)
  exact (orderly_sidesOf hfaces fun m => hcount y s₁ m hy).bind fun _ _ _ => .pure _

theorem orderly_die {sides : Operand} (hsides : ∀ n, sides.Written s.vars n → written n)
    (hcount : ∀ y s' n, sides.force s = .ok y s' → y.sideCount? = some n → written n) :
    (dice none sides).OrderlyAt written s :=
  orderly_sides hsides hcount 1

theorem orderly_dice {num sides : Operand} (hnum : ∀ n, num.Written s.vars n → written n)
    (hsides : ∀ n, sides.Written s.vars n → written n)
    (hdice : ∀ y s' n, num.force s = .ok y s' → y.toInt = .ok n → written n)
    (hcount : ∀ x s₁ y s₂ n, num.force s = .ok x s₁ → sides.force s₁ = .ok y s₂ →
      y.sideCount? = some n → written n) : (dice (some num) sides).OrderlyAt written s := by
  refine ((num.orderly_force s).mono hnum).bind fun y s₁ hy => ?_
  refine (orderly_count fun n => hdice y s₁ n hy).bind fun m s₂ hm => ?_
  obtain rfl := state_count hm
  refine orderly_sides ?_ (fun z s₃ n => hcount y s₂ z s₃ n hy) m
  rwa [Operand.vars_force hy]

theorem orderly_amount {k : Keep} (hx : ∀ n, x.Written s.vars n → written n)
    (hamount : ∀ y s' n, x.force s = .ok y s' → y.toInt = .ok n → written n) :
    (amount k x).OrderlyAt written s := by
  refine ((x.orderly_force s).mono hx).bind fun y s₁ hy => ?_
  cases hn : y.toInt with
  | error cause => exact orderly_fail_of_nil nofun rfl
  | ok n =>
    simp only
    split
    · refine orderly_fail nofun fun m hm => ?_
      rw [List.mem_singleton.mp hm]
      exact hamount y s₁ n hy hn
    · exact .pure _

theorem vars_amount {k : Keep} {n : Int} {s' : Session} (h : amount k x s = .ok n s') :
    s'.vars = s.vars := by
  obtain ⟨y, s₁, hy, h⟩ := bind_eq_ok_iff.mp h
  cases hn : y.toInt with
  | error cause =>
    simp only [hn] at h
    cases h
  | ok m =>
    simp only [hn] at h
    split at h
    · cases h
    · cases h
      exact Operand.vars_force hy

theorem orderly_keepOf {k : Keep} {n : Int} (hx : ∀ m, x.Written s.vars m → written m) :
    (keepOf k n x).OrderlyAt written s := by
  cases x with
  | array items => exact (Orderly.mono orderly_keepItems hx).bind fun _ _ _ => .pure _
  | _ => exact orderly_fail_of_nil nofun rfl

theorem orderly_keep {k : Keep} {howMany : Operand}
    (htarget : ∀ n, target.Written s.vars n → written n)
    (hhowMany : ∀ n, howMany.Written s.vars n → written n)
    (hamount : ∀ y s' n, howMany.force s = .ok y s' → y.toInt = .ok n → written n) :
    (keep k target howMany).OrderlyAt written s := by
  by_cases hpool : ∃ p, target = .pool p
  · obtain ⟨p, rfl⟩ := hpool
    exact (orderly_amount hhowMany hamount).bind fun _ _ _ => .pure _
  · rw [keep_of_ne_pool fun p hp => hpool ⟨p, hp⟩]
    refine (orderly_amount hhowMany hamount).bind fun n s₁ hn => ?_
    rw [← vars_amount hn] at htarget
    refine ((target.orderly_force s₁).mono htarget).bind fun y s₂ hy => orderly_keepOf ?_
    intro m hm
    rw [Operand.vars_force hy] at hm
    exact htarget m (hm.of_force hy)

theorem orderly_explode {faces : Operand} (htarget : ∀ n, target.Written s.vars n → written n)
    (hfaces : ∀ n, faces.Written s.vars n → written n) :
    (explode target faces).OrderlyAt written s := by
  by_cases hpool : ∃ p, target = .pool p
  · obtain ⟨p, rfl⟩ := hpool
    exact ((faces.orderly_forceAll s).mono hfaces).bind fun _ _ _ => .pure _
  · rw [explode_of_ne_pool fun p hp => hpool ⟨p, hp⟩]
    exact ((target.orderly_force s).mono htarget).bind fun _ _ _ => orderly_fail_of_nil nofun rfl

/-- An index that does not fit is written together with the length of the array. -/
theorem orderly_elementOf {i : Int} (hindex : written i)
    (hlength : ∀ items, x = .array items → written items.length) :
    (elementOf i x).OrderlyAt written s := by
  cases x with
  | array items =>
    simp only [elementOf]
    split
    · exact .pure _
    · refine orderly_fail nofun fun m hm => ?_
      rcases List.mem_cons.mp hm with rfl | hm
      · exact hlength items rfl
      · rw [List.mem_singleton.mp hm]
        exact hindex
  | _ =>
    refine orderly_fail nofun fun m hm => ?_
    rw [List.mem_singleton.mp hm]
    exact hindex

theorem orderly_index {position : Operand} (htarget : ∀ n, target.Written s.vars n → written n)
    (hposition : ∀ n, position.Written s.vars n → written n)
    (hindex : ∀ y s' n, position.force s = .ok y s' → y.toInt = .ok n → written n)
    (hlength : ∀ x s₁ items s₂, position.force s = .ok x s₁ →
      target.force s₁ = .ok (.array items) s₂ → written items.length) :
    (index target position).OrderlyAt written s := by
  rw [index_eq]
  refine ((position.orderly_force s).mono hposition).bind fun y s₁ hy => ?_
  rw [← Operand.vars_force hy] at htarget
  cases hi : y.toInt with
  | error cause => exact orderly_fail_of_nil nofun rfl
  | ok i =>
    by_cases hplace : ∃ p, target = .place p
    · obtain ⟨p, rfl⟩ := hplace
      exact .pure _
    · rw [indexBy_of_ne_place fun p hp => hplace ⟨p, hp⟩]
      refine ((target.orderly_force s₁).mono htarget).bind fun z s₂ hz => ?_
      refine orderly_elementOf (hindex y s₁ i hy hi) fun items hitems => ?_
      exact hlength y s₁ items s₂ hy (hitems ▸ hz)

end Meaning

/-! ## 3. Runs end in order -/

/-- Orderly work that may be stuck, and is not, goes on with orderly work. -/
theorem Orderly.run_bind {σ α β : Type} {budget : σ → Budget} {spent : σ → Prop}
    {written : Int → Prop} {s : σ} {x : OptionT (EStateM Fault σ) α}
    {f : α → OptionT (EStateM Fault σ) β} (hx : Orderly budget spent written x.run s)
    (hf : ∀ a s', x.run s = .ok (some a) s' → Orderly budget spent written (f a).run s') :
    Orderly budget spent written (x >>= f).run s := by
  rw [OptionT.run_bind]
  refine hx.bind fun result s' hresult => ?_
  cases result with
  | none => exact .pure _
  | some a => exact hf a s' hresult

section Runs

variable {s : Session} {written : Int → Prop} {stack : List Operand}

theorem orderly_call {work : Evaluating Operand} (h : work.OrderlyAt written s) :
    Evaluating.OrderlyAt (do return (← work) :: stack : OptionT Evaluating (List Operand)).run
      written s := by
  refine Orderly.run_bind (x := OptionT.lift work) ?_ fun _ _ _ => .pure _
  exact h.bind fun _ _ _ => .pure _

/-- **What one call has to write is what `Reduction.Writes` says.** -/
theorem Actions.orderly_reduce (r : Reduction) (stack : List Operand) (s : Session) :
    Evaluating.OrderlyAt (Actions.evaluation.reduce r stack).run (r.Writes s stack) s := by
  have hpath : ∀ {x : Operand}, x ∈ stack.take r.forces → ∀ n, x.Written s.vars n →
      r.Writes s stack n := fun hx n hn => .path hx hn
  unfold Actions.reduce
  split
  · -- a literal forces nothing
    exact orderly_call (Meaning.orderly_literal _)
  · -- between two operands, and the only operator that assigns
    refine orderly_call (Meaning.orderly_binary (hpath (by simp [Reduction.forces]))
      (hpath (by simp [Reduction.forces])) ?_)
    rintro v s' n rfl hv hn
    exact .assigned hv hn
  · -- in front of its operand
    exact orderly_call (Meaning.orderly_unary (hpath (by simp [Reduction.forces])))
  · -- behind its operand
    exact orderly_call (Meaning.orderly_suffix (hpath (by simp [Reduction.forces])))
  · -- a single die
    refine orderly_call (Meaning.orderly_die (hpath (by simp [Reduction.forces])) ?_)
    intro y s' n hy hn
    exact .sides hy hn
  · -- dice with a number in front of them
    refine orderly_call (Meaning.orderly_dice (hpath (by simp [Reduction.forces]))
      (hpath (by simp [Reduction.forces])) ?_ ?_)
    · intro y s' n hy hn
      exact .dice hy hn
    · intro x s₁ y s₂ n hx hy hn
      exact .sidesOf hx hy hn
  · -- a keep
    refine orderly_call (Meaning.orderly_keep (hpath (by simp [Reduction.forces]))
      (hpath (by simp [Reduction.forces])) ?_)
    intro y s' n hy hn
    exact .amount hy hn
  · -- an explosion
    exact orderly_call (Meaning.orderly_explode (hpath (by simp [Reduction.forces]))
      (hpath (by simp [Reduction.forces])))
  · -- an array, which the machine makes if there are enough operands
    split
    · exact orderly_call (.pure _)
    · exact .pure _
  · -- an index
    refine orderly_call (Meaning.orderly_index (hpath (by simp [Reduction.forces]))
      (hpath (by simp [Reduction.forces])) ?_ ?_)
    · intro y s' n hy hn
      exact .position hy hn
    · intro x s₁ items s₂ hx hitems
      exact .length hx hitems
  · -- too few operands: the machine is stuck
    exact .pure _

/-- The integers that some calls can have to write, made one after the other on a stack. -/
inductive Reduction.WriteAlong : List Reduction → List Operand → Session → Int → Prop
  | now {r : Reduction} {steps : List Reduction} {stack : List Operand} {s : Session} {n : Int}
      (h : r.Writes s stack n) : WriteAlong (r :: steps) stack s n
  | later {r : Reduction} {steps : List Reduction} {stack stack₁ : List Operand} {s s₁ : Session}
      {n : Int} (hr : (Actions.evaluation.reduce r stack).run s = .ok (some stack₁) s₁)
      (h : WriteAlong steps stack₁ s₁ n) : WriteAlong (r :: steps) stack s n

/-- **What a run has to write is what its calls have to write.** -/
theorem Actions.orderly_perform (steps : List Reduction) (stack : List Operand) (s : Session) :
    Evaluating.OrderlyAt (Actions.evaluation.perform steps stack).run
      (Reduction.WriteAlong steps stack s) s := by
  induction steps generalizing stack s with
  | nil => exact .pure _
  | cons r steps ih =>
    rw [Actions.perform]
    refine ((Actions.orderly_reduce r stack s).mono fun n hn => .now hn).run_bind ?_
    intro stack₁ s₁ hr
    exact (ih stack₁ s₁).mono fun n hn => .later hr hn

end Runs

/-! ## 4. Texts -/

/-- Reading the text is performing the outline, whatever the actions are. -/
def Outline.IsOf (o : Outline) (depth : Nat) (text : String) : Prop :=
  ∀ (m : Type → Type) [Monad m] [LawfulMonad m] (α : Type) (acts : Actions m α),
    OptionT.lift (acts.readText depth text).run = acts.follow o

theorem exists_isOf (depth : Nat) (text : String) : ∃ o : Outline, o.IsOf depth text := by
  rcases readText_outcome depth text with ⟨t, hread⟩ | ⟨done, e, hread⟩
  · exact ⟨.accepted t, fun m _ _ α acts => by rw [hread m α acts, acts.follow_accepted]⟩
  · exact ⟨.broken done e, fun m _ _ α acts => by rw [hread m α acts, acts.follow_broken]⟩

/-- The integers that evaluating a text can have to write, when it begins in the session `s`. -/
inductive ComesUp (depth : Nat) (text : String) (s : Session) (n : Int) : Prop
  /-- In a call. -/
  | call {o : Outline} (ho : o.IsOf depth text) (h : Reduction.WriteAlong o.steps [] s n)
  /-- In the path of a place that is read at the end. -/
  | path {x : Operand} {s₁ : Session} (hx : evaluateLazily depth text s = .ok x s₁)
      (h : x.Written s₁.vars n)
  /-- In the result. -/
  | result {x : Operand} {v : Value} {s₁ s₂ : Session} (hx : evaluateLazily depth text s = .ok x s₁)
      (hv : x.forceAll s₁ = .ok v s₂) (h : v.Holds n)

theorem Orderly.of_lift {σ α : Type} {budget : σ → Budget} {spent : σ → Prop}
    {written : Int → Prop} {s : σ} {x : EStateM Fault σ α}
    (h : Orderly budget spent written (OptionT.lift x).run s) :
    Orderly budget spent written x s where
  in_time hok := h.in_time (run_lift_eq_some_iff.mpr hok)
  explained herror := h.explained (run_lift_eq_error_iff.mpr herror)

theorem orderly_readText (depth : Nat) (text : String) (s : Session) :
    Evaluating.OrderlyAt (Actions.evaluation.readText depth text).run (ComesUp depth text s) s := by
  obtain ⟨o, ho⟩ := exists_isOf depth text
  refine Orderly.of_lift ?_
  rw [ho Evaluating Operand Actions.evaluation, Actions.follow]
  refine ((Actions.orderly_perform o.steps [] s).mono fun n hn => .call ho hn).run_bind ?_
  intro stack s₁ _
  unfold Outline.conclude
  split <;> exact .pure _

theorem orderly_evaluateLazily (depth : Nat) (text : String) (s : Session) :
    (evaluateLazily depth text).OrderlyAt (ComesUp depth text s) s := by
  refine (orderly_readText depth text s).bind fun result s₁ _ => ?_
  cases result with
  | ok x => exact .pure x
  | error e => exact Meaning.orderly_fail_of_nil nofun rfl

/-- The work at the end: the result is written. -/
theorem orderly_result {v : Value} {s : Session} {written : Int → Prop}
    (h : ∀ n, v.Holds n → written n) :
    Evaluating.OrderlyAt (if v.isWritable then return v else throw .numeralTooLong) written s := by
  cases hv : v.isWritable with
  | true => exact .pure v
  | false =>
    obtain ⟨n, hn, hlong⟩ := v.exists_holds_of_not_isWritable hv
    exact .throw ⟨.refl _, n, h n hn, hlong⟩

theorem orderly_evaluate (depth : Nat) (text : String) (s : Session) :
    (evaluate depth text).OrderlyAt (ComesUp depth text s) s := by
  refine (orderly_evaluateLazily depth text s).bind fun x s₁ hx => ?_
  refine ((x.orderly_forceAll s₁).mono fun n hn => .path hx hn).bind fun v s₂ hv => ?_
  exact orderly_result fun n hn => .result hx hv hn

theorem isWritable_of_evaluate {depth : Nat} {text : String} {v : Value} {s s' : Session}
    (h : evaluate depth text s = .ok v s') : v.isWritable = true := by
  obtain ⟨x, s₁, -, h⟩ := bind_eq_ok_iff.mp h
  obtain ⟨w, s₂, -, h⟩ := bind_eq_ok_iff.mp h
  cases hw : w.isWritable with
  | true =>
    rw [hw, if_pos rfl] at h
    cases h
    exact hw
  | false =>
    rw [hw, if_neg Bool.false_ne_true] at h
    cases h

/-- Reading an accepted text is a fold of its tree, whatever the actions are. -/
theorem readText_of_tree {depth : Nat} {text : String} {t : Tree}
    (h : Tree.ofText depth text = .ok t) (m : Type → Type) [Monad m] [LawfulMonad m] (α : Type)
    (acts : Actions m α) :
    (acts.readText depth text).run = .ok <$> acts.fold t := by
  rcases readText_outcome depth text with ⟨t', hread⟩ | ⟨done, e, hread⟩
  · have ht' : Tree.ofText depth text = .ok t' :=
      (hread Id Tree Actions.tree).trans (congrArg Except.ok (Actions.fold_tree t'))
    obtain rfl : t' = t := Except.ok.inj (ht'.symm.trans h)
    exact hread m α acts
  · have hbroken : Tree.ofText depth text = .error e := hread Id Tree Actions.tree
    cases hbroken.symm.trans h

theorem isOf_of_tree {depth : Nat} {text : String} {t : Tree} (h : Tree.ofText depth text = .ok t) :
    (Outline.accepted t).IsOf depth text :=
  fun m _ _ α acts => by rw [readText_of_tree h m α acts, acts.follow_accepted]

/-- The value of an accepted text is a fold of its tree. -/
theorem evaluateLazily_of_tree {depth : Nat} {text : String} {t : Tree}
    (h : Tree.ofText depth text = .ok t) :
    evaluateLazily depth text = Actions.evaluation.fold t := by
  simp [evaluateLazily, readText_of_tree h Evaluating Operand Actions.evaluation]

/-- The fault that has ended some work. -/
def faultOf? {σ α : Type} : EStateM.Result Fault σ α → Option Fault
  | .ok _ _ => none
  | .error f _ => some f

theorem faultOf?_eq_some_iff {σ α : Type} {result : EStateM.Result Fault σ α} {f : Fault} :
    faultOf? result = some f ↔ ∃ s', result = .error f s' := by
  cases result <;> simp [faultOf?]

/-- The value that some work has given. -/
def valueOf? {ε σ α : Type} : EStateM.Result ε σ α → Option α
  | .ok a _ => some a
  | .error _ _ => none

theorem valueOf?_eq_some_iff {ε σ α : Type} {result : EStateM.Result ε σ α} {a : α} :
    valueOf? result = some a ↔ ∃ s', result = .ok a s' := by
  cases result <;> simp [valueOf?]

/-- **What an evaluation comes to**, whatever the text, the rolls, the time limit and the clock are:
a value that can be written, or a fault that has its reason.  An error is one of the text, and its
message can be written; the evaluation is halted by the first step that is late, and by no other; it
is out of rolls only when the source is; and an integer has too many digits only if it has come up
where it is to be written.  Unless it is halted, all its steps are in time. -/
theorem evaluate_outcome (depth : Nat) (text : String) (s : Session) :
    (∃ v s', evaluate depth text s = .ok v s' ∧ v.isWritable = true ∧
      s.tray.budget.InTime s'.tray.budget) ∨
    ∃ f s', evaluate depth text s = .error f s' ∧
      f.Explained s.tray.budget s'.tray.budget s'.tray.Spent (ComesUp depth text s) := by
  have horderly := orderly_evaluate depth text s
  cases h : evaluate depth text s with
  | ok v s' => exact .inl ⟨v, s', rfl, isWritable_of_evaluate h, horderly.in_time h⟩
  | error f s' => exact .inr ⟨f, s', rfl, horderly.explained h⟩

/-- The clock strikes behind the first of two dice: the second one is rolled, and then halted. -/
example : faultOf? (evaluate 100 "2d6" (.start (.script [3, 4]) (some 0.5) (.striking 2))) =
    some (.halted (some 0.5)) := by
  have ht : Tree.ofText 100 "2d6" =
      .ok (.dice (some (.literal (.number 2))) (.literal (.number 6))) := by cbv
  rw [evaluate, evaluateLazily_of_tree ht]
  decide +kernel

/-! ## 5. Too many digits -/

/-- The tree of a text that sets `x` to 2 ^ 63 and squares it `n` times. -/
def powerOfTwo : (n : Nat) → Tree
  | 0 => .binary (.literal (.word "x")) (.literal (.number 9223372036854775808)) .assign
  | n + 1 =>
    let square : Tree := .binary (.literal (.word "x")) (.literal (.word "x")) .star
    .binary (powerOfTwo n) (.binary (.literal (.word "x")) square .assign) .semicolon

/-- **An integer with too many digits ends an evaluation in which everything is defined.**  The
value of the text is 2 ^ 16128, and every assigned value can be written. -/
theorem evaluate_numeralTooLong :
    ∃ s', evaluate 100 "x=9223372036854775808;x=x*x;x=x*x;x=x*x;x=x*x;x=x*x;x=x*x;x=x*x;x*x"
      (.start (.script [])) = .error .numeralTooLong s' := by
  have ht : Tree.ofText 100 "x=9223372036854775808;x=x*x;x=x*x;x=x*x;x=x*x;x=x*x;x=x*x;x=x*x;x*x" =
      .ok (.binary (powerOfTwo 7)
        (.binary (.literal (.word "x")) (.literal (.word "x")) .star) .semicolon) := by cbv
  rw [← faultOf?_eq_some_iff, evaluate, evaluateLazily_of_tree ht]
  decide +kernel

end DiceNotation
