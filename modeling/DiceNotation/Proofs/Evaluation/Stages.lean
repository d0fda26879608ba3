/-
# Forcing in stages

An operand comes to its value in two stages.  `Operand.force` rolls the pool or reads the place that
the operand is, and leaves an array as it is, with elements that still wait; `Operand.forceAll`
forces everything that there is.  On the way back, `Operand.ofValue` makes an operand of a value.

`stages_compose` says that the stages fit together, whatever lies in the arrays, on the faces of the
dice and in the variables: no effect is lost on the longer way and none is repeated, and no value
changes when it is made an operand again, is assigned or is read.  It rests on one equation.  What
the first stage makes of anything but an array is the value that both stages make, as an operand
(`Operand.force_eq`), and in that there is nothing left to force.
-/
import DiceNotation.Proofs.Evaluation.Forcing
import DiceNotation.Proofs.Variables.Failure

namespace DiceNotation

/-! ## 1. The elements of an array -/

namespace Operand

theorem forceAllOnto_eq_mapM (items : List Operand) (done : List Value) :
    forceAllOnto done items = (done.reverse ++ ·) <$> items.mapM forceAll := by
  induction items generalizing done with
  | nil => simp [forceAllOnto]
  | cons x items ih => simp [forceAllOnto, ih, List.mapM_cons]

/-- The elements of an array are forced one after the other, from left to right. -/
theorem forceAll_array (items : List Operand) :
    (array items).forceAll = Value.array <$> items.mapM forceAll := by
  simp [forceAll, forceAllOnto_eq_mapM]

theorem mapM_forceAll_ofValues (vs : List Value) : (ofValues vs).mapM forceAll = pure vs := by
  have hvalues := Value.forceAllOnto_ofValues vs []
  simpa [forceAllOnto_eq_mapM] using hvalues

/-! ## 2. One stage and then the rest -/

theorem force_ofValue (v : Value) : (ofValue v).force = pure (ofValue v) := by
  cases v <;> rfl

theorem force_bind_forceAll (x : Operand) : x.force >>= forceAll = x.forceAll := by
  rw [force_eq]
  cases x.isArray with
  | true => simp
  | false => simp [Value.forceAll_ofValue]

/-- In an array whose front has been forced, the next element can be forced in two stages too. -/
theorem forceAll_array_at (front rest : List Operand) (x : Operand) :
    (array (front ++ x :: rest)).forceAll = (do
      let vs ← front.mapM forceAll
      let y ← x.force
      (array (ofValues vs ++ y :: rest)).forceAll) := by
  -- on the left, `x` is forced at once; what it is forced to first stays an operand on the right
  rw [forceAll_array, List.mapM_append, List.mapM_cons, ← force_bind_forceAll x]
  simp [forceAll_array, mapM_forceAll_ofValues]

/-! ## 3. Reading a place -/

section Reading

variable {p : Place} {s : Session} {v : Value}

theorem forceAll_place_of_get (h : s.vars.get p = .ok v) : (place p).forceAll s = .ok v s := by
  rw [forceAll, readPlace_apply, h]
  rfl

theorem force_place_of_get (h : s.vars.get p = .ok v) :
    (place p).force s = .ok (ofValue v) s :=
  map_eq_ok_iff.mpr ⟨v, forceAll_place_of_get h, rfl⟩

end Reading

end Operand

/-! ## 4. Results of arithmetic -/

namespace Meaning

/-- An action that computes something of the values of its operands, and what it computes. -/
inductive Computes : Evaluating Operand → Evaluating Value → Prop
  | between {o : Op} {operation : Value → Value → Metered Value}
      (h : o.arithmetic? = some operation) (left right : Operand) :
      Computes (binary left right o) (do
        let v ← left.forceAll
        let w ← right.forceAll
        operation v w)
  | negative (inner : Operand) :
      Computes (unary inner .minus) (do
        let v ← inner.forceAll
        v.neg)
  | percent (inner : Operand) :
      Computes (suffix inner .percent) (do
        let v ← inner.forceAll
        v.div (.int 100))

section Computing

variable {action : Evaluating Operand} {work : Evaluating Value}

theorem Computes.eq_ofValue (h : Computes action work) : action = Operand.ofValue <$> work := by
  cases h with
  | between h left right => simp [binary, h]
  | negative inner => simp [unary]
  | percent inner => simp [suffix]

theorem Computes.bind_forceAll (h : Computes action work) :
    action >>= Operand.forceAll = work := by
  simp [h.eq_ofValue, Value.forceAll_ofValue]

end Computing

end Meaning

/-! ## 5. Assigning -/

/-- The session behind an assignment, whether it succeeds or not. -/
def Session.assigned (s : Session) (p : Place) (v : Value) : Session :=
  { s with vars := s.vars.assigned p v }

theorem inVariables_assign_eq (p : Place) (v : Value) (s : Session) :
    inVariables (Variables.assign p v) s =
      match s.vars.set p v with
      | .error e => .error e.fault s
      | .ok _ =>
        if v.isWritable then .ok () (s.assigned p v)
        else .error .numeralTooLong (s.assigned p v) := by
  simp only [inVariables, Variables.assign, Session.assigned, Variables.assigned_eq]
  cases s.vars.set p v with
  | error e => rfl
  | ok vars' => cases v.isWritable <;> rfl

theorem get_assigned {p : Place} {v : Value} {s : Session} {vars' : Variables}
    (h : s.vars.set p v = .ok vars') : (s.assigned p v).vars.get p = .ok v := by
  have hself := Variables.get_set_inside h []
  rw [List.append_nil] at hself
  rw [Session.assigned, Variables.assigned_eq, h]
  exact hself

/-- An assignment to an element that is not there is refused.  Any other one is made, and then the
place has the value; the record of it fails if the value has an integer with too many digits. -/
theorem assign_cases {x : Operand} {s s₁ : Session} {w : Value} (h : x.forceAll s = .ok w s₁)
    (p : Place) :
    (p.indices ≠ [] ∧ ∃ e, s₁.vars.get p = .error e ∧
      Meaning.binary (.place p) x .assign s = .error e.fault s₁) ∨
    (Meaning.binary (.place p) x .assign s =
        if w.isWritable then .ok (.place p) (s₁.assigned p w)
        else .error .numeralTooLong (s₁.assigned p w)) ∧
      (s₁.assigned p w).vars.get p = .ok w := by
  have hrun : Meaning.binary (.place p) x .assign s =
      (inVariables (Variables.assign p w) >>= fun _ => pure (.place p)) s₁ :=
    bind_of_eq_ok h
  have hassign := inVariables_assign_eq p w s₁
  cases hset : s₁.vars.set p w with
  | error e =>
    rw [hset] at hassign
    have hindices : p.indices ≠ [] := by
      intro hnil
      simp [Variables.set, hnil] at hset
    have hget := Variables.get_of_set_error hset
    exact .inl ⟨hindices, e, hget, hrun.trans (bind_of_eq_error hassign)⟩
  | ok vars' =>
    rw [hset] at hassign
    refine .inr ⟨hrun.trans ?_, get_assigned hset⟩
    -- the value is there before it is recorded, so only the outcome depends on its digits
    cases hw : w.isWritable with
    | true =>
      rw [hw] at hassign
      exact bind_of_eq_ok hassign
    | false =>
      rw [hw] at hassign
      exact bind_of_eq_error hassign

/-! ## 6. All stages -/

/-- **The stages of forcing compose.**  The first stage and then all of them come to the same
outcome as all of them at once, in every session: the same value or fault, with the same rolls drawn
and steps paid for, and with the same variables.  That holds of an operand and of each element of an
array, the ones before it being forced.  A value that is made an operand again is forced to itself,
and its session is left as it was; what arithmetic gives is such an operand, and a place that has
been given a value is forced to that value. -/
theorem stages_compose :
    (∀ (x : Operand) (s : Session), (x.force >>= Operand.forceAll) s = x.forceAll s) ∧
    (∀ x : Operand, x.force = if x.isArray then pure x else Operand.ofValue <$> x.forceAll) ∧
    (∀ (front rest : List Operand) (x : Operand) (s : Session),
      (Operand.array (front ++ x :: rest)).forceAll s = (do
        let vs ← front.mapM Operand.forceAll
        let y ← x.force
        (Operand.array (Operand.ofValues vs ++ y :: rest)).forceAll) s) ∧
    (∀ (w : Value) (s : Session), (Operand.ofValue w).force s = .ok (.ofValue w) s ∧
      (Operand.ofValue w).forceAll s = .ok w s) ∧
    (∀ (action : Evaluating Operand) (work : Evaluating Value), Meaning.Computes action work →
      action = Operand.ofValue <$> work ∧ action >>= Operand.forceAll = work) ∧
    ∀ (x : Operand) (s s₁ : Session) (w : Value), x.forceAll s = .ok w s₁ → ∀ p : Place,
      (p.indices ≠ [] ∧ ∃ e, s₁.vars.get p = .error e ∧
        Meaning.binary (.place p) x .assign s = .error e.fault s₁) ∨
      (Meaning.binary (.place p) x .assign s =
          if w.isWritable then .ok (.place p) (s₁.assigned p w)
          else .error .numeralTooLong (s₁.assigned p w)) ∧
        (Operand.place p).force (s₁.assigned p w) = .ok (.ofValue w) (s₁.assigned p w) ∧
        (Operand.place p).forceAll (s₁.assigned p w) = .ok w (s₁.assigned p w) := by
  refine ⟨?_, Operand.force_eq, ?_, ?_, ?_, ?_⟩
  · intro x s
    rw [Operand.force_bind_forceAll]
  · intro front rest x s
    rw [Operand.forceAll_array_at]
  · intro w s
    rw [Operand.force_ofValue, Value.forceAll_ofValue]
    exact ⟨rfl, rfl⟩
  · intro action work h
    exact ⟨h.eq_ofValue, h.bind_forceAll⟩
  · intro x s s₁ w h p
    rcases assign_cases h p with hrefused | ⟨hassign, hget⟩
    · exact .inl hrefused
    · exact .inr ⟨hassign, Operand.force_place_of_get hget, Operand.forceAll_place_of_get hget⟩

/-- `x[0] = [x[1], 2d[[1, 2], 3]] + 1` where `x` is `[7, [8]]`: the dice are rolled once, one of
them shows an array, and the sum is read at `x[0]` as it was computed. -/
theorem stages_compose_nested :
    let s : Session :=
      { tray := { source := .script [0, 1] },
        vars := ⟨[("x", .array [.int 7, .array [.int 8]])], by decide⟩ }
    let left : Operand :=
      .array [.place ⟨"x", [1]⟩, .pool (.ofSides 2 #[.array [.int 1, .int 2], .int 3])]
    let sum : Evaluating Operand := Meaning.binary left (.scalar (.int 1)) .plus
    let work : Evaluating Value := do
      let v ← left.forceAll
      let w ← (Operand.scalar (.int 1)).forceAll
      v.add w
    let w : Value := .array [.array [.int 9], .array [.int 5, .int 6]]
    let p : Place := ⟨"x", [0]⟩
    ∃ s₁ s₂ : Session, Meaning.Computes sum work ∧ work s = .ok w s₁ ∧ s₁.tray.drawn = 2 ∧
      sum s = .ok (.ofValue w) s₁ ∧ (sum >>= Operand.forceAll) s = .ok w s₁ ∧
      (Operand.ofValue w).forceAll s₁ = .ok w s₁ ∧
      Meaning.binary (.place p) (.ofValue w) .assign s₁ = .ok (.place p) s₂ ∧
      (Operand.place p).force s₂ = .ok (.ofValue w) s₂ ∧
      (Operand.place p).forceAll s₂ = .ok w s₂ := by
  intro s left sum work w p
  obtain ⟨-, -, -, hvalue, harithmetic, hassign⟩ := stages_compose
  have hcomputes : Meaning.Computes sum work := .between (o := .plus) rfl left (.scalar (.int 1))
  obtain ⟨hsum, hforced⟩ := harithmetic sum work hcomputes
  let s₁ : Session := { s with
    tray := { source := .script [], drawn := 2, budget := { steps := 9 } } }
  have hwork : work s = .ok w s₁ := rfl
  have hrun : sum s = .ok (.ofValue w) s₁ :=
    (congrFun hsum s).trans (map_eq_ok_iff.mpr ⟨w, hwork, rfl⟩)
  have hforce : (Operand.ofValue w).forceAll s₁ = .ok w s₁ := (hvalue w s₁).2
  have hwritable : w.isWritable = true := by decide +kernel
  have hget : s₁.vars.get p = .ok (.int 7) := rfl
  rcases hassign _ s₁ s₁ w hforce p with ⟨-, e, he, -⟩ | ⟨hset, hread⟩
  · -- there is an element `x[0]`
    exact absurd (hget.symm.trans he) nofun
  · rw [if_pos hwritable] at hset
    exact ⟨s₁, s₁.assigned p w, hcomputes, hwork, rfl, hrun, (congrFun hforced s).trans hwork,
      hforce, hset, hread⟩

end DiceNotation
