/-
# What becomes of an assignment that fails

An element can be set exactly when it can be read.  Both operations walk down the index path of the
place and stop at the first index that the value before it does not have (`Value.follow_cases`); the
error names the indices up to that one, so that its path is the shortest front of the place that
cannot be read (`Variables.StopsAt`).

`Variables.assign_fails_as_read` says so for every store: the errors are the same, and behind an
assignment that fails the session is as it was.
-/
import DiceNotation.Proofs.Variables.Update

namespace DiceNotation

/-! ## 1. Where a path fails -/

namespace Value

/-- A path is followed to its end, or up to an index that the value before it does not have. -/
theorem follow_cases (v : Value) (path : List Int) :
    (∃ w, v.follow path = .ok w) ∨
    ∃ front i rest u e, path = front ++ i :: rest ∧ v.follow front = .ok u ∧
      u.child i = .error e ∧ v.follow path = .error (front.foldr .below e) := by
  induction path generalizing v with
  | nil => exact .inl ⟨v, rfl⟩
  | cons i path ih =>
    cases hi : v.child i with
    | error e => exact .inr ⟨[], i, path, v, e, rfl, rfl, hi, by rw [follow, hi]; rfl⟩
    | ok u =>
      rcases ih u with ⟨w, hw⟩ | ⟨front, j, rest, u', e, rfl, hfront, hj, hpath⟩
      · exact .inl ⟨w, by rw [follow_cons_of_child hi, hw]; rfl⟩
      · refine .inr ⟨i :: front, j, rest, u', e, rfl, ?_, hj, ?_⟩
        · rw [follow_cons_of_child hi, hfront]
          rfl
        · rw [follow_cons_of_child hi, hpath]
          rfl

/-- Why a value has no element at an index: it is no array, or the array is too short. -/
theorem child_eq_error {v : Value} {i : Int} {e : PathError} (h : v.child i = .error e) :
    (∃ items, v = array items ∧ e = .outOfBounds [i] items.length) ∨
      (∃ x, v = scalar x) ∧ e = .notIndexable [i] := by
  cases v with
  | scalar x => exact .inr ⟨⟨x, rfl⟩, (Except.error.inj h).symm⟩
  | array items =>
    rw [child] at h
    split at h
    · cases h
    · exact .inl ⟨items, rfl, (Except.error.inj h).symm⟩

/-- What is behind an index that does not fit makes no difference to the error. -/
theorem follow_append_of_child_error {v u : Value} {front : List Int} {i : Int} {e : PathError}
    (hfront : v.follow front = .ok u) (hi : u.child i = .error e) (rest : List Int) :
    v.follow (front ++ i :: rest) = .error (front.foldr .below e) := by
  rw [follow_append hfront, follow, hi]
  rfl

/-- Every front of a path that can be followed can be followed. -/
theorem exists_follow_of_prefix {v u : Value} {path front : List Int}
    (hpath : v.follow path = .ok u)
    (h : front <+: path) : ∃ w, v.follow front = .ok w := by
  obtain ⟨rest, rfl⟩ := h
  rcases v.follow_cases front with hfront | ⟨first, i, rest', w, e, rfl, hfirst, hi, -⟩
  · exact hfront
  · rw [List.append_assoc, List.cons_append, follow_append_of_child_error hfirst hi] at hpath
    cases hpath

/-- What cannot be replaced cannot be read either, for the same reason. -/
theorem follow_of_replace_error {v new : Value} {path : List Int} {e : PathError}
    (h : v.replace path new = .error e) : v.follow path = .error e := by
  induction path generalizing v e with
  | nil => cases h
  | cons i path ih =>
    cases hi : v.child i with
    | error e' =>
      simp only [replace, hi, Except.error.injEq] at h
      simp only [follow, hi, h]
    | ok w =>
      cases hw : w.replace path new with
      | ok u => simp [replace, hi, hw] at h
      | error e' =>
        simp only [replace, hi, hw, Except.error.injEq] at h
        rw [follow_cons_of_child hi, ih hw, ← h]
        rfl

end Value

namespace PathError

theorem foldr_below_outOfBounds (front : List Int) (i : Int) (length : Nat) :
    front.foldr below (outOfBounds [i] length) = outOfBounds (front ++ [i]) length := by
  induction front with
  | nil => rfl
  | cons j front ih => rw [List.foldr_cons, ih]; rfl

theorem foldr_below_notIndexable (front : List Int) (i : Int) :
    front.foldr below (notIndexable [i]) = notIndexable (front ++ [i]) := by
  induction front with
  | nil => rfl
  | cons j front ih => rw [List.foldr_cons, ih]; rfl

end PathError

/-- The error about an index path of the variable `name`. -/
inductive EvalError.IsAbout (name : String) (path : List Int) : EvalError → Prop
  | outOfBounds (length : Nat) : IsAbout name path (.outOfBounds (some name) path length)
  | notIndexable : IsAbout name path (.notIndexable (some name) path)

/-- An index that does not fit makes an error about the indices up to it. -/
theorem isAbout_of_child_error {v : Value} {i : Int} {e : PathError} (h : v.child i = .error e)
    (name : String) (front : List Int) :
    ((front.foldr .below e).inVariable name).IsAbout name (front ++ [i]) := by
  rcases Value.child_eq_error h with ⟨items, -, rfl⟩ | ⟨-, rfl⟩
  · rw [PathError.foldr_below_outOfBounds]
    exact .outOfBounds items.length
  · rw [PathError.foldr_below_notIndexable]
    exact .notIndexable

namespace Variables

/-! ## 2. Reading and setting -/

/-- A place that cannot be set cannot be read either, for the same reason. -/
theorem get_of_set_error {vars : Variables} {p : Place} {v : Value} {e : EvalError}
    (h : vars.set p v = .error e) : vars.get p = .error e := by
  unfold set at h
  cases hindices : p.indices with
  | nil => simp [hindices] at h
  | cons i path =>
    cases hlookup : vars.entries.lookup p.name with
    | none =>
      simp only [hindices, hlookup, Except.error.injEq] at h
      simp only [get, hlookup, h]
    | some whole =>
      cases hwhole : whole.replace (i :: path) v with
      | ok whole' => simp [hindices, hlookup, hwhole] at h
      | error e' =>
        simp only [hindices, hlookup, hwhole, Except.error.injEq] at h
        simp only [get, hindices, hlookup]
        exact mapError_eq_error_iff.mpr ⟨e', Value.follow_of_replace_error hwhole, h⟩

/-- An element that has been set was there before. -/
theorem exists_get_of_set {vars vars' : Variables} {p : Place} {v : Value} (hp : p.indices ≠ [])
    (h : vars.set p v = .ok vars') : ∃ w, vars.get p = .ok w := by
  obtain ⟨whole, -, ⟨hnil, -⟩ | ⟨old, hold, hreplace⟩⟩ := set_eq_ok h
  · exact absurd hnil hp
  · rw [← List.append_nil p.indices] at hreplace
    obtain ⟨w, -, hw, -⟩ := Value.replace_append hreplace
    exact ⟨w, by rw [get_eq_of_value? hold, hw]; rfl⟩

/-- **Setting an element fails exactly when reading it fails**, with the same error. -/
theorem set_eq_error_iff {vars : Variables} {p : Place} {v : Value} {e : EvalError}
    (hp : p.indices ≠ []) : vars.set p v = .error e ↔ vars.get p = .error e := by
  refine ⟨get_of_set_error, fun h => ?_⟩
  cases hset : vars.set p v with
  | error e' => rw [Except.error.inj ((get_of_set_error hset).symm.trans h)]
  | ok vars' =>
    obtain ⟨w, hw⟩ := exists_get_of_set hp hset
    rw [h] at hw
    cases hw

theorem readPlace_eq_error_iff {p : Place} {s s' : Session} {f : Fault} :
    readPlace p s = .error f s' ↔ ∃ e, s.vars.get p = .error e ∧ e.fault = f ∧ s = s' := by
  have hstate : (MonadState.get : Evaluating Session) s = .ok s s := rfl
  rw [readPlace, bind_of_eq_ok hstate]
  cases s.vars.get p with
  | ok v =>
    constructor
    · intro h
      cases h
    · rintro ⟨e, h, -⟩
      cases h
  | error e =>
    change EStateM.Result.error e.fault s = .error f s' ↔ _
    simp

theorem assign_eq_error_iff {p : Place} {v : Value} (hp : p.indices ≠ [])
    (hv : v.isWritable = true) {s s' : Session} {f : Fault} :
    inVariables (assign p v) s = .error f s' ↔
      ∃ e, s.vars.get p = .error e ∧ e.fault = f ∧ s = s' := by
  rw [inVariables_eq_error_iff, assign]
  simp only [← set_eq_error_iff (v := v) hp]
  cases s.vars.set p v with
  | ok vars' => simp [hv]
  | error e =>
    simp only [EStateM.Result.error.injEq, Except.error.injEq]
    constructor
    · rintro ⟨vars, ⟨hf, rfl⟩, hs⟩
      exact ⟨e, rfl, hf, hs⟩
    · rintro ⟨_, rfl, hf, rfl⟩
      exact ⟨s.vars, ⟨hf, rfl⟩, rfl⟩

/-! ## 3. The place of the failure -/

/-- `path` is the shortest front of the indices of a place that cannot be read, and nothing that
goes on from it can be read. -/
structure StopsAt (vars : Variables) (p : Place) (path : List Int) : Prop where
  front : path <+: p.indices
  readable : ∀ shorter, shorter <+: path → shorter ≠ path →
    ∃ w, vars.get ⟨p.name, shorter⟩ = .ok w
  unreadable : ∀ more, ∃ e, vars.get ⟨p.name, path ++ more⟩ = .error e

/-- A front of some indices and one more is the whole or a front of the indices before. -/
theorem prefix_of_prefix_concat {shorter front : List Int} {i : Int}
    (h : shorter <+: front ++ [i]) (hne : shorter ≠ front ++ [i]) : shorter <+: front := by
  rcases List.prefix_concat_iff.mp h with rfl | h
  · exact absurd rfl hne
  · exact h

/-- A place cannot be read for one of two reasons: there is no such variable, or the walk stops at
an index, and the error is about the path up to that index. -/
theorem get_error_cases {vars : Variables} {p : Place} {e : EvalError}
    (h : vars.get p = .error e) :
    vars.value? p.name = none ∧ e = .undefinedVariable p.name ∨
      ∃ path, e.IsAbout p.name path ∧ vars.StopsAt p path := by
  cases hvalue : vars.value? p.name with
  | none =>
    have hlookup : vars.entries.lookup p.name = none := hvalue
    simp only [get, hlookup, Except.error.injEq] at h
    exact .inl ⟨rfl, h.symm⟩
  | some whole =>
    have hget : ∀ path, vars.get ⟨p.name, path⟩ =
        (whole.follow path).mapError fun e => e.inVariable p.name := fun path =>
      get_eq_of_value? (q := ⟨p.name, path⟩) hvalue
    rw [hget p.indices] at h
    rcases whole.follow_cases p.indices with
      ⟨w, hw⟩ | ⟨front, i, rest, u, e', hpath, hfront, hi, hw⟩
    · rw [hw] at h
      cases h
    · rw [hw] at h
      obtain rfl := Except.error.inj h
      refine .inr ⟨front ++ [i], isAbout_of_child_error hi p.name front, ?_, ?_, ?_⟩
      · exact ⟨rest, by rw [hpath, List.append_assoc]; rfl⟩
      · intro shorter hshorter hne
        obtain ⟨w, hw⟩ :=
          Value.exists_follow_of_prefix hfront (prefix_of_prefix_concat hshorter hne)
        exact ⟨w, by rw [hget, hw]; rfl⟩
      · intro more
        refine ⟨(front.foldr .below e').inVariable p.name, ?_⟩
        rw [hget, List.append_assoc, List.singleton_append,
          Value.follow_append_of_child_error hfront hi more]
        rfl

/-! ## 4. Assignments that fail -/

/-- **An assignment to an element fails as reading the element does, and changes nothing.**  Its
error is that of the read, and so is the fault that ends the evaluation, also if the message would
spell out an integer with too many digits; the session behind it is the one before it.  An error
about an index has the shortest path at which the walk fails. -/
theorem assign_fails_as_read {p : Place} (hp : p.indices ≠ []) {v : Value}
    (hv : v.isWritable = true) :
    (∀ (vars : Variables) (e : EvalError), vars.set p v = .error e ↔ vars.get p = .error e) ∧
    (∀ (s s' : Session) (f : Fault),
      inVariables (assign p v) s = .error f s' ↔ readPlace p s = .error f s') ∧
    (∀ (s s' : Session) (f : Fault), inVariables (assign p v) s = .error f s' → s' = s) ∧
    ∀ (vars : Variables) (e : EvalError), vars.get p = .error e →
      vars.value? p.name = none ∧ e = .undefinedVariable p.name ∨
        ∃ path, e.IsAbout p.name path ∧ vars.StopsAt p path := by
  refine ⟨fun vars e => set_eq_error_iff hp, fun s s' f => ?_, fun s s' f h => ?_,
    fun vars e => get_error_cases⟩
  · rw [assign_eq_error_iff hp hv, readPlace_eq_error_iff]
  · obtain ⟨e, -, -, hs⟩ := (assign_eq_error_iff hp hv).mp h
    exact hs.symm

/-- Setting `x[0][5][1]` where `x` is `[[1, 2], 3]`: the walk stops at `x[0][5]`. -/
theorem assign_fails_as_read_short :
    let p : Place := ⟨"x", [0, 5, 1]⟩
    let vars : Variables := ⟨[("x", .array [.array [.int 1, .int 2], .int 3])], by decide⟩
    let s : Session := ⟨{ source := .script [] }, vars⟩
    let e : EvalError := .outOfBounds (some "x") [0, 5] 2
    p.indices ≠ [] ∧ (Value.char 'a').isWritable = true ∧ vars.get p = .error e ∧
      vars.set p (.char 'a') = .error e ∧
      inVariables (assign p (.char 'a')) s = .error e.fault s ∧
      ∃ path, e.IsAbout "x" path ∧ vars.StopsAt p path := by
  intro p vars s e
  have hp : p.indices ≠ [] := by decide
  have hv : (Value.char 'a').isWritable = true := rfl
  have hget : vars.get p = .error e := rfl
  obtain ⟨herror, hfault, -, hpath⟩ := assign_fails_as_read hp hv
  refine ⟨hp, hv, hget, (herror vars e).mpr hget, (hfault s s _).mpr rfl, ?_⟩
  rcases hpath vars e hget with ⟨hundefined, -⟩ | hstops
  · exact absurd hundefined (by decide)
  · exact hstops

end Variables

end DiceNotation
