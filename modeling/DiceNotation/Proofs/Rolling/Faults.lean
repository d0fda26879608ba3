/-
# What can end the rolling of dice

Work ends in order if every fault that ends it has a reason that can be told from outside
(`Fault.Explained`): a halt comes with the first step that is late, the end of the rolls when the
source has no answer any more, and an integer is too long only if it is one of those that the work
has to write.  Until then all steps are in time.  Work that is put together from orderly work is
orderly (`Orderly.bind`), because a step that is late behind others in time is the first that is
late.

Arithmetic can only be halted (`Metered.Timed`), and rolling dice can only be halted or run out of
rolls (`Rolling.Fair`); neither writes a number, and neither blames the text.
-/
import DiceNotation.Rolling
import DiceNotation.Proofs.Effects
import DiceNotation.Proofs.Value.Broadcasting

namespace DiceNotation

/-! ## 1. Orderly work -/

/-- Why a fault has ended some work, given the budget before and behind it, whether the source has
come to its end, and the integers that the work has to write. -/
def Fault.Explained (b b' : Budget) (spent : Prop) (written : Int → Prop) : Fault → Prop
  | .error e => b.InTime b' ∧ e ≠ .notSortable ∧ e.numerals.all isWritable = true
  | .halted given => b.Halted b' ∧ given = b.timeout
  | .rollsExhausted => b.InTime b' ∧ spent
  | .numeralTooLong => b.InTime b' ∧ ∃ n, written n ∧ isWritable n = false

namespace Fault.Explained

variable {b b₁ b₂ : Budget} {spent spent' : Prop} {written written' : Int → Prop} {f : Fault}

/-- Steps in time before the work leave the reason as it is. -/
theorem of_inTime (hb : b.InTime b₁) (h : f.Explained b₁ b₂ spent written) :
    f.Explained b b₂ spent written := by
  cases f with
  | error e => exact ⟨hb.trans h.1, h.2⟩
  | halted given => exact ⟨h.1.of_inTime hb, h.2.trans hb.timeout_eq⟩
  | rollsExhausted => exact ⟨hb.trans h.1, h.2⟩
  | numeralTooLong => exact ⟨hb.trans h.1, h.2⟩

/-- A source that comes to its end more often, and more integers to be written, explain more. -/
theorem mono (h : f.Explained b b₁ spent written) (hs : spent → spent')
    (hw : ∀ n, written n → written' n) : f.Explained b b₁ spent' written' := by
  cases f with
  | numeralTooLong =>
    obtain ⟨htime, n, hn, hlong⟩ := h
    exact ⟨htime, n, hw n hn, hlong⟩
  | error e => exact h
  | halted given => exact h
  | rollsExhausted => exact ⟨h.1, hs h.2⟩

end Fault.Explained

/-- Work that, begun in the state `s`, pays in time if it ends well, and otherwise ends with a fault
that is explained. -/
structure Orderly {σ α : Type} (budget : σ → Budget) (spent : σ → Prop) (written : Int → Prop)
    (work : EStateM Fault σ α) (s : σ) : Prop where
  in_time : ∀ {a : α} {s' : σ}, work s = .ok a s' → (budget s).InTime (budget s')
  explained : ∀ {f : Fault} {s' : σ}, work s = .error f s' →
    f.Explained (budget s) (budget s') (spent s') written

namespace Orderly

variable {σ α β : Type} {budget : σ → Budget} {spent : σ → Prop} {written : Int → Prop} {s : σ}

theorem pure (a : α) : Orderly budget spent written (Pure.pure a) s where
  in_time h := by
    cases h
    exact .refl _
  explained h := by cases h

theorem throw {f : Fault} (h : f.Explained (budget s) (budget s) (spent s) written) :
    Orderly budget spent written (throw f : EStateM Fault σ α) s where
  in_time hok := by cases hok
  explained herror := by
    cases herror
    exact h

theorem get : Orderly budget spent written (get : EStateM Fault σ σ) s where
  in_time h := by
    cases h
    exact .refl _
  explained h := by cases h

theorem bind {x : EStateM Fault σ α} {f : α → EStateM Fault σ β}
    (hx : Orderly budget spent written x s)
    (hf : ∀ a s', x s = .ok a s' → Orderly budget spent written (f a) s') :
    Orderly budget spent written (x >>= f) s := by
  cases hrun : x s with
  | ok a s₁ =>
    have hrest := hf a s₁ hrun
    have hbind : (x >>= f) s = f a s₁ := bind_of_eq_ok hrun
    constructor
    · intro b s' h
      exact (hx.in_time hrun).trans (hrest.in_time (hbind.symm.trans h))
    · intro f' s' h
      exact (hrest.explained (hbind.symm.trans h)).of_inTime (hx.in_time hrun)
  | error e s₁ =>
    have hbind : (x >>= f) s = .error e s₁ := bind_of_eq_error hrun
    constructor
    · intro b s' h
      cases hbind.symm.trans h
    · intro f' s' h
      cases hbind.symm.trans h
      exact hx.explained hrun

theorem mono {written' : Int → Prop} {x : EStateM Fault σ α} (hx : Orderly budget spent written x s)
    (h : ∀ n, written n → written' n) : Orderly budget spent written' x s where
  in_time hok := hx.in_time hok
  explained herror := (hx.explained herror).mono id h

end Orderly

/-! ## 2. Arithmetic -/

/-- Work that is ended by the time only. -/
def Metered.Timed {α : Type} (work : Metered α) : Prop :=
  ∀ b, Orderly id (fun _ => False) (fun _ => False) work b

namespace Metered.Timed

variable {α β : Type}

theorem pure (a : α) : Metered.Timed (Pure.pure a) := fun _ => .pure a

theorem bind {x : Metered α} {f : α → Metered β} (hx : Metered.Timed x)
    (hf : ∀ a, Metered.Timed (f a)) : Metered.Timed (x >>= f) :=
  fun b => (hx b).bind fun a b' _ => hf a b'

theorem payStep : Metered.Timed payStep := by
  intro b
  cases hlate : b.isLate (b.steps + 1) with
  | false =>
    have hrun : DiceNotation.payStep b = .ok () (b.paying 1) := by simp [payStep_apply, hlate]
    constructor
    · intro a b' h
      cases hrun.symm.trans h
      exact ⟨1, Budget.lasts_one_iff.mpr hlate, rfl⟩
    · intro f b' h
      cases hrun.symm.trans h
  | true =>
    have hrun : DiceNotation.payStep b = .error (.halted b.timeout) (b.paying 1) := by
      simp [payStep_apply, hlate]
    constructor
    · intro a b' h
      cases hrun.symm.trans h
    · intro f b' h
      cases hrun.symm.trans h
      exact ⟨⟨0, ⟨b.lasts_zero, hlate⟩, rfl⟩, rfl⟩

end Metered.Timed

/-- Work that only pays for steps can only be halted. -/
theorem Metered.Paced.timed {α : Type} {work : Metered α} (h : work.Paced) : work.Timed := by
  obtain ⟨steps, a, rfl⟩ := h
  induction steps with
  | zero => exact .pure a
  | succ steps ih => exact Metered.Timed.payStep.bind fun _ => ih

theorem paced_addTo (total : Option Value) (v : Value) : (addTo total v).Paced := by
  cases total with
  | none => exact .pure v
  | some total => exact Value.paced_elementwise Scalar.add total v

/-! ## 3. Dice -/

/-- The source of a tray has come to its end: it has no answer for some die. -/
def Tray.Spent (t : Tray) : Prop := ∃ (n : Nat) (pos : 0 < n), t.source.draw? n pos = none

theorem Tray.spent_of_remaining {t : Tray} (h : t.source.remaining = 0) : t.Spent := by
  refine ⟨1, Nat.one_pos, ?_⟩
  cases hdraw : t.source.draw? 1 Nat.one_pos with
  | none => rfl
  | some drawn =>
    have hless := Source.draw?_remaining_lt hdraw
    omega

/-- Work on a tray that is ended by the time or by the end of the rolls only. -/
abbrev Rolling.OrderlyAt {α : Type} (work : Rolling α) (t : Tray) : Prop :=
  Orderly Tray.budget Tray.Spent (fun _ => False) work t

/-- Work that is orderly on whatever tray it is done. -/
def Rolling.Fair {α : Type} (work : Rolling α) : Prop := ∀ t, work.OrderlyAt t

namespace Rolling.Fair

variable {α β : Type}

theorem pure (a : α) : Rolling.Fair (Pure.pure a) := fun _ => .pure a

theorem bind {x : Rolling α} {f : α → Rolling β} (hx : Rolling.Fair x)
    (hf : ∀ a, Rolling.Fair (f a)) : Rolling.Fair (x >>= f) :=
  fun t => (hx t).bind fun a t' _ => hf a t'

end Rolling.Fair

/-- Work that is paid for leaves the source alone. -/
theorem source_onTray {α : Type} {work : Metered α} {t t' : Tray} {a : α}
    (h : work.onTray t = .ok a t') : t'.source = t.source := by
  obtain ⟨budget, -, rfl⟩ := Metered.onTray_eq_ok_iff.mp h
  rfl

theorem Metered.Timed.fair {α : Type} {work : Metered α} (h : work.Timed) : work.onTray.Fair := by
  intro t
  have hbudget := h t.budget
  constructor
  · intro a t' hok
    obtain ⟨budget, hwork, rfl⟩ := Metered.onTray_eq_ok_iff.mp hok
    exact hbudget.in_time hwork
  · intro f t' herror
    obtain ⟨budget, hwork, rfl⟩ := Metered.onTray_eq_error_iff.mp herror
    exact (hbudget.explained hwork).mono False.elim fun _ hn => hn

theorem Metered.Paced.fair {α : Type} {work : Metered α} (h : work.Paced) : work.onTray.Fair :=
  h.timed.fair

theorem fair_draw (n : Nat) (pos : 0 < n) : (draw n pos).Fair := by
  intro t
  constructor
  · intro i t' h
    obtain ⟨source, -, rfl⟩ := draw_eq_ok_iff.mp h
    exact .refl _
  · intro f t' h
    obtain ⟨hspent, rfl, rfl⟩ := draw_eq_error_iff.mp h
    exact ⟨.refl _, n, pos, hspent⟩

theorem remaining_of_draw {n : Nat} {pos : 0 < n} {t t' : Tray} {i : Fin n}
    (h : draw n pos t = .ok i t') : t'.source.remaining < t.source.remaining := by
  obtain ⟨source, hdraw, rfl⟩ := draw_eq_ok_iff.mp h
  exact Source.draw?_remaining_lt hdraw

/-- A die that has as much fuel as the source has rolls left runs out of fuel only at the end of the
source. -/
theorem orderly_rollOn {sides : Array Value} {pos : 0 < sides.size} {triggers : List Value}
    {fuel : Nat} {total : Option Value} {t : Tray} (h : t.source.remaining ≤ fuel) :
    (rollOn sides pos triggers fuel total).OrderlyAt t := by
  induction fuel generalizing total t with
  | zero => exact .throw ⟨.refl _, Tray.spent_of_remaining (Nat.le_zero.mp h)⟩
  | succ fuel ih =>
    rw [rollOn]
    refine (fair_draw _ pos t).bind fun i t₁ hdraw => ?_
    refine ((paced_addTo total sides[i]).fair t₁).bind fun v t₂ hadd => ?_
    have hless := remaining_of_draw hdraw
    have hsource := source_onTray hadd
    split
    · refine (Metered.Timed.payStep.fair t₂).bind fun _ t₃ hpay => ih ?_
      rw [source_onTray hpay, hsource]
      omega
    · exact .pure v

namespace Pool

theorem fair_rollDie {p : Pool} (hsides : 0 < p.sides.size) : p.rollDie.Fair := by
  intro t
  rw [rollDie, dif_pos hsides]
  refine Orderly.get.bind ?_
  intro t' t₁ hget
  cases hget
  exact orderly_rollOn (Nat.le_refl _)

theorem fair_rollSum {p : Pool} (hsides : 0 < p.sides.size) (n : Nat) (total : Option Value) :
    (p.rollSum n total).Fair := by
  induction n generalizing total with
  | zero => exact .pure _
  | succ n ih =>
    rw [rollSum]
    exact (fair_rollDie hsides).bind fun v => (paced_addTo total v).fair.bind fun w =>
      Metered.Timed.payStep.fair.bind fun _ => ih (some w)

theorem fair_rollEach {p : Pool} (hsides : 0 < p.sides.size) (n : Nat) (done : List Value) :
    (p.rollEach n done).Fair := by
  induction n generalizing done with
  | zero => exact .pure _
  | succ n ih =>
    rw [rollEach]
    exact (fair_rollDie hsides).bind fun v =>
      Metered.Timed.payStep.fair.bind fun _ => ih (v :: done)

/-- **Rolling a pool is ended by a step that is late or by the end of the rolls only.**  A pool
without faces is not rolled. -/
theorem fair_roll (p : Pool) : p.roll.Fair := by
  rw [roll]
  split
  · exact .pure _
  · next hempty =>
    have hsides : 0 < p.sides.size := by
      refine Nat.pos_of_ne_zero fun hzero => hempty ?_
      simp [isEmpty, Array.isEmpty, hzero]
    split
    · exact fair_rollSum hsides _ none
    · exact (fair_rollEach hsides _ []).bind fun rolls => (Value.paced_sum _).fair

end Pool

end DiceNotation
