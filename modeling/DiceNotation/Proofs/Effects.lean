/-
# Working backwards through effects

Work that ends well has ended well in each of its parts: from the outcome of the whole one gets the
values and the states in between.  `EStateM` is the effect of rolling and of evaluating; looking
something up gives an `Except`, whose error is told again from further out.  The stack machine puts
`OptionT` on top of `EStateM`, for being stuck, and work that is lifted into it is never stuck.  The
reader puts `ExceptT` on top of it, for syntax errors.

Work on a part of a state ends as it does on that part, and leaves the rest of the state alone; what
is put together on the part is put together on the whole.  A step ends well unless it is late, and a
draw unless the source is spent.
-/
import DiceNotation.Session

namespace DiceNotation

variable {ε σ α β : Type}

/-! ## 1. States and errors -/

theorem pure_eq_ok_iff {a b : α} {s s' : σ} :
    (pure a : EStateM ε σ α) s = .ok b s' ↔ a = b ∧ s = s' := by
  constructor
  · intro h
    cases h
    exact ⟨rfl, rfl⟩
  · rintro ⟨rfl, rfl⟩
    rfl

theorem bind_of_eq_ok {x : EStateM ε σ α} {f : α → EStateM ε σ β} {s s' : σ} {a : α}
    (h : x s = .ok a s') : (x >>= f) s = f a s' := by
  change EStateM.bind x f s = _
  rw [EStateM.bind, h]

theorem bind_of_eq_error {x : EStateM ε σ α} {f : α → EStateM ε σ β} {s s' : σ} {e : ε}
    (h : x s = .error e s') : (x >>= f) s = .error e s' := by
  change EStateM.bind x f s = _
  rw [EStateM.bind, h]

theorem bind_eq_ok_iff {x : EStateM ε σ α} {f : α → EStateM ε σ β} {s s' : σ} {b : β} :
    (x >>= f) s = .ok b s' ↔ ∃ a s₁, x s = .ok a s₁ ∧ f a s₁ = .ok b s' := by
  change EStateM.bind x f s = _ ↔ _
  rw [EStateM.bind]
  cases x s with
  | ok a s₁ => simp [and_assoc]
  | error e s₁ => simp

theorem map_eq_ok_iff {x : EStateM ε σ α} {f : α → β} {s s' : σ} {b : β} :
    (f <$> x) s = .ok b s' ↔ ∃ a, x s = .ok a s' ∧ f a = b := by
  change EStateM.map f x s = _ ↔ _
  rw [EStateM.map]
  cases x s with
  | ok a s₁ =>
    constructor
    · intro h
      cases h
      exact ⟨a, rfl, rfl⟩
    · rintro ⟨a, h, rfl⟩
      cases h
      rfl
  | error e s₁ => simp

/-! ## 2. Errors seen from further out -/

theorem mapError_eq_ok_iff {ε' : Type} {x : Except ε α} {f : ε → ε'} {a : α} :
    x.mapError f = .ok a ↔ x = .ok a := by
  cases x with
  | ok b =>
    constructor
    · intro h
      cases h
      rfl
    · intro h
      cases h
      rfl
  | error e =>
    constructor
    · intro h
      cases h
    · intro h
      cases h

theorem mapError_eq_error_iff {ε' : Type} {x : Except ε α} {f : ε → ε'} {e' : ε'} :
    x.mapError f = .error e' ↔ ∃ e, x = .error e ∧ f e = e' := by
  cases x with
  | ok b =>
    constructor
    · intro h
      cases h
    · rintro ⟨e, h, -⟩
      cases h
  | error e =>
    constructor
    · intro h
      cases h
      exact ⟨e, rfl, rfl⟩
    · rintro ⟨e₁, h, rfl⟩
      cases h
      rfl

/-! ## 3. Being stuck -/

theorem run_bind_eq (x : OptionT (EStateM ε σ) α) (f : α → OptionT (EStateM ε σ) β) (s : σ) :
    (x >>= f).run s =
      match x.run s with
      | .ok (some a) s' => (f a).run s'
      | .ok none s' => .ok none s'
      | .error e s' => .error e s' := by
  rw [OptionT.run_bind]
  change EStateM.bind x.run _ s = _
  rw [EStateM.bind]
  cases x.run s with
  | ok result s' => cases result <;> rfl
  | error e s' => rfl

theorem run_lift_eq (x : EStateM ε σ α) (s : σ) :
    (OptionT.lift x).run s =
      match x s with
      | .ok a s' => .ok (some a) s'
      | .error e s' => .error e s' := by
  change EStateM.bind x _ s = _
  rw [EStateM.bind]
  cases x s <;> rfl

/-- Work that is lifted is never stuck. -/
theorem run_lift_ne_none (x : EStateM ε σ α) (s s' : σ) : (OptionT.lift x).run s ≠ .ok none s' := by
  rw [run_lift_eq]
  cases x s <;> simp

theorem run_lift_eq_some_iff {x : EStateM ε σ α} {s s' : σ} {a : α} :
    (OptionT.lift x).run s = .ok (some a) s' ↔ x s = .ok a s' := by
  rw [run_lift_eq]
  cases x s <;> simp

theorem run_lift_eq_error_iff {x : EStateM ε σ α} {s s' : σ} {e : ε} :
    (OptionT.lift x).run s = .error e s' ↔ x s = .error e s' := by
  rw [run_lift_eq]
  cases x s <;> simp

/-! ## 4. A second kind of error -/

section Reading

variable {ε' : Type} {s s' : σ}

theorem exceptT_bind_eq_ok_iff {x : ExceptT ε' (EStateM ε σ) α}
    {f : α → ExceptT ε' (EStateM ε σ) β} {b : β} :
    (x >>= f).run s = .ok (.ok b) s' ↔
      ∃ a s₁, x.run s = .ok (.ok a) s₁ ∧ (f a).run s₁ = .ok (.ok b) s' := by
  rw [ExceptT.run_bind, bind_eq_ok_iff]
  constructor
  · rintro ⟨a | a, s₁, hx, h⟩
    · cases h
    · exact ⟨a, s₁, hx, h⟩
  · rintro ⟨a, s₁, hx, h⟩
    exact ⟨.ok a, s₁, hx, h⟩

theorem exceptT_pure_eq_ok_iff {a b : α} :
    (pure a : ExceptT ε' (EStateM ε σ) α).run s = .ok (.ok b) s' ↔ a = b ∧ s = s' := by
  rw [ExceptT.run_pure, pure_eq_ok_iff, Except.ok.injEq]

theorem exceptT_liftM_eq_ok_iff {x : Except ε' α} {a : α} :
    (liftM x : ExceptT ε' (EStateM ε σ) α).run s = .ok (.ok a) s' ↔ x = .ok a ∧ s = s' :=
  pure_eq_ok_iff

end Reading

/-! ## 5. Work on a part of the state -/

namespace Metered

theorem onTray_eq_ok_iff {work : Metered α} {t t' : Tray} {a : α} :
    work.onTray t = .ok a t' ↔
      ∃ budget, work t.budget = .ok a budget ∧ { t with budget := budget } = t' := by
  simp only [onTray]
  cases work t.budget <;> simp [and_assoc]

theorem onTray_eq_error_iff {work : Metered α} {t t' : Tray} {f : Fault} :
    work.onTray t = .error f t' ↔
      ∃ budget, work t.budget = .error f budget ∧ { t with budget := budget } = t' := by
  simp only [onTray]
  cases work t.budget <;> simp [and_assoc]

@[simp] theorem onTray_pure (a : α) : (pure a : Metered α).onTray = pure a := rfl

@[simp] theorem onTray_bind (work : Metered α) (next : α → Metered β) :
    (work >>= next).onTray = work.onTray >>= fun a => (next a).onTray := by
  funext t
  have hpart : (work >>= next) t.budget = EStateM.bind work next t.budget := rfl
  change _ = EStateM.bind work.onTray _ t
  rw [EStateM.bind] at hpart ⊢
  simp only [onTray, hpart]
  cases work t.budget <;> rfl

end Metered

namespace Rolling

theorem inSession_eq_ok_iff {work : Rolling α} {s s' : Session} {a : α} :
    work.inSession s = .ok a s' ↔
      ∃ tray, work s.tray = .ok a tray ∧ { s with tray := tray } = s' := by
  simp only [inSession]
  cases work s.tray <;> simp [and_assoc]

theorem inSession_eq_error_iff {work : Rolling α} {s s' : Session} {f : Fault} :
    work.inSession s = .error f s' ↔
      ∃ tray, work s.tray = .error f tray ∧ { s with tray := tray } = s' := by
  simp only [inSession]
  cases work s.tray <;> simp [and_assoc]

@[simp] theorem inSession_pure (a : α) : (pure a : Rolling α).inSession = pure a := rfl

@[simp] theorem inSession_bind (work : Rolling α) (next : α → Rolling β) :
    (work >>= next).inSession = work.inSession >>= fun a => (next a).inSession := by
  funext s
  have hpart : (work >>= next) s.tray = EStateM.bind work next s.tray := rfl
  change _ = EStateM.bind work.inSession _ s
  rw [EStateM.bind] at hpart ⊢
  simp only [inSession, hpart]
  cases work s.tray <;> rfl

@[simp] theorem inSession_map (work : Rolling α) (f : α → β) :
    (f <$> work).inSession = f <$> work.inSession := by
  rw [map_eq_pure_bind, map_eq_pure_bind, inSession_bind]
  rfl

end Rolling

theorem inVariables_eq_ok_iff {work : EStateM Fault Variables α} {s s' : Session} {a : α} :
    inVariables work s = .ok a s' ↔
      ∃ vars, work s.vars = .ok a vars ∧ { s with vars := vars } = s' := by
  simp only [inVariables]
  cases work s.vars <;> simp [and_assoc]

theorem inVariables_eq_error_iff {work : EStateM Fault Variables α} {s s' : Session} {f : Fault} :
    inVariables work s = .error f s' ↔
      ∃ vars, work s.vars = .error f vars ∧ { s with vars := vars } = s' := by
  simp only [inVariables]
  cases work s.vars <;> simp [and_assoc]

/-! ## 6. Paying -/

/-- The tray with `k` more steps paid for. -/
def Tray.paying (t : Tray) (k : Nat) : Tray := { t with budget := t.budget.paying k }

theorem Tray.paying_paying (t : Tray) (j k : Nat) : (t.paying j).paying k = t.paying (j + k) := by
  simp [paying]

@[simp] theorem Tray.drawn_paying (t : Tray) (k : Nat) : (t.paying k).drawn = t.drawn := rfl

/-- Paying for a step on a tray. -/
theorem payStep_onTray (t : Tray) : (liftM payStep : Rolling Unit) t =
    if t.budget.isLate (t.budget.steps + 1) then .error (.halted t.budget.timeout) (t.paying 1)
    else .ok () (t.paying 1) := by
  change Metered.onTray payStep t = _
  rw [Metered.onTray, payStep_apply]
  cases t.budget.isLate (t.budget.steps + 1) <;> rfl

/-- A step that is paid for in time. -/
theorem payStep_eq_ok_iff {t t' : Tray} {u : Unit} :
    (liftM payStep : Rolling Unit) t = .ok u t' ↔ t.budget.Lasts 1 ∧ t.paying 1 = t' := by
  rw [payStep_onTray, Budget.lasts_one_iff]
  cases t.budget.isLate (t.budget.steps + 1) <;> simp

/-! ## 7. Drawing -/

section Drawing

variable {n : Nat} {pos : 0 < n} {t t' : Tray}

theorem draw_eq_ok_iff {i : Fin n} : draw n pos t = .ok i t' ↔
    ∃ source, t.source.draw? n pos = some (i, source) ∧
      { t with source := source, drawn := t.drawn + 1 } = t' := by
  simp only [draw]
  cases t.source.draw? n pos <;> simp [Prod.ext_iff, and_assoc]

theorem draw_eq_error_iff {f : Fault} : draw n pos t = .error f t' ↔
    t.source.draw? n pos = none ∧ .rollsExhausted = f ∧ t = t' := by
  simp only [draw]
  cases t.source.draw? n pos <;> simp

end Drawing

end DiceNotation
