/-
# Indexing a variable and indexing its value

An index path is walked in two ways.  Indices of a variable are gathered in its place, and the walk
is made when the place is read, through the value that is stored (`Value.follow`).  Indices of
anything else are applied one at a time, each to what the one before has left (`Meaning.index`).

Of one value, both walks come to the same end.  They agree step by step: an index of an operand that
is a value is one step of `Value.follow`, and the error of a step names the same index, told once
from the variable and once from the array that it is an index of.
-/
import DiceNotation.Proofs.Evaluation.Forcing
import DiceNotation.Proofs.Value.Display
import DiceNotation.Proofs.Variables.Failure

namespace DiceNotation

/-! ## 1. Indices one at a time -/

namespace Meaning

/-- Indices applied one after the other. -/
def indexAll (target : Operand) (path : List Int) : Evaluating Operand :=
  path.foldlM (fun x i => index x (.scalar (.int i))) target

theorem indexAll_cons (target : Operand) (i : Int) (path : List Int) :
    indexAll target (i :: path) = index target (.scalar (.int i)) >>= fun x => indexAll x path :=
  List.foldlM_cons

theorem indexAll_append (target : Operand) (front rest : List Int) :
    indexAll target (front ++ rest) = indexAll target front >>= fun x => indexAll x rest :=
  List.foldlM_append

/-- The indices of a place are gathered. -/
theorem indexAll_place (p : Place) (path : List Int) :
    indexAll (.place p) path = pure (.place { p with indices := p.indices ++ path }) := by
  induction path generalizing p with
  | nil =>
    rw [List.append_nil]
    rfl
  | cons i path ih =>
    have hone : index (.place p) (.scalar (.int i)) =
        pure (.place { p with indices := p.indices ++ [i] }) := rfl
    rw [indexAll_cons, hone, pure_bind, ih]
    simp

theorem elementAt?_map {α β : Type} (f : α → β) (xs : List α) (i : Int) :
    elementAt? (xs.map f) i = (elementAt? xs i).map f := by
  unfold elementAt?
  split
  · rfl
  · exact List.getElem?_map

theorem index_ofValue (v : Value) (i : Int) :
    index (.ofValue v) (.scalar (.int i)) = elementOf i (.ofValue v) := by
  cases v <;> rfl

/-- An element of a value that is there is found. -/
theorem index_ofValue_of_child {v w : Value} {i : Int} (h : v.child i = .ok w) :
    index (.ofValue v) (.scalar (.int i)) = pure (.ofValue w) := by
  obtain ⟨items, rfl, hi⟩ := Value.child_eq_ok_iff.mp h
  rw [index_ofValue, Operand.ofValue, elementOf, Operand.ofValues_eq_map, elementAt?_map, hi]
  rfl

/-- Following a path through a value is applying its indices one after the other. -/
theorem indexAll_of_follow {v w : Value} {path : List Int} (h : v.follow path = .ok w) :
    indexAll (.ofValue v) path = pure (.ofValue w) := by
  induction path generalizing v with
  | nil =>
    obtain rfl := Except.ok.inj h
    rfl
  | cons i path ih =>
    cases hi : v.child i with
    | error e => simp [Value.follow, hi] at h
    | ok u =>
      rw [Value.follow_cons_of_child hi] at h
      rw [indexAll_cons, index_ofValue_of_child hi, pure_bind, ih (mapError_eq_ok_iff.mp h)]

/-! ## 2. Both walks -/

/-- One failure at the index `i` behind the indices `front`, told of the variable `name` and told
of the array alone. -/
inductive SameFailure (name : String) (front : List Int) (i : Int) : EvalError → EvalError → Prop
  | outOfBounds (length : Nat) : SameFailure name front i
      (.outOfBounds (some name) (front ++ [i]) length) (.outOfBounds none [i] length)
  | notIndexable : SameFailure name front i
      (.notIndexable (some name) (front ++ [i])) (.notIndexable none [i])

/-- An index that a value does not have fails in the same way in both walks. -/
theorem exists_sameFailure {u : Value} {i : Int} {e : PathError} (h : u.child i = .error e)
    (name : String) (front : List Int) :
    ∃ e', SameFailure name front i ((front.foldr .below e).inVariable name) e' ∧
      index (.ofValue u) (.scalar (.int i)) = fail e' := by
  rw [index_ofValue]
  rcases Value.child_eq_error h with ⟨items, rfl, rfl⟩ | ⟨⟨x, rfl⟩, rfl⟩
  · refine ⟨.outOfBounds none [i] items.length, ?_, ?_⟩
    · rw [PathError.foldr_below_outOfBounds]
      exact .outOfBounds items.length
    · have hnone : elementAt? items i = none := by
        cases hi : elementAt? items i with
        | none => rfl
        | some w => simp [Value.child, hi] at h
      rw [Operand.ofValue, elementOf, Operand.ofValues_eq_map, elementAt?_map, hnone,
        List.length_map]
      rfl
  · refine ⟨.notIndexable none [i], ?_, rfl⟩
    rw [PathError.foldr_below_notIndexable]
    exact .notIndexable

/-- The faults of one failure are the errors themselves, unless both of them would spell out a
length that is too long to be written. -/
theorem SameFailure.fault_cases {name : String} {front : List Int} {i : Int} {e e' : EvalError}
    (h : SameFailure name front i e e') (hwritable : ∀ j ∈ front ++ [i], isWritable j = true) :
    e.fault = .error e ∧ e'.fault = .error e' ∨
      (∃ length : Nat, e' = .outOfBounds none [i] length ∧ isWritable length = false) ∧
        e.fault = .numeralTooLong ∧ e'.fault = .numeralTooLong := by
  have hi : isWritable i = true := hwritable i (by simp)
  have hall : (front ++ [i]).all isWritable = true := List.all_eq_true.mpr hwritable
  cases h with
  | notIndexable => exact .inl ⟨if_pos hall, if_pos (by simp [EvalError.numerals, hi])⟩
  | outOfBounds length =>
    cases hlength : isWritable length with
    | true =>
      refine .inl ⟨if_pos ?_, if_pos ?_⟩
      · rw [EvalError.numerals, List.all_cons, hlength, hall]
        rfl
      · simp [EvalError.numerals, hlength, hi]
    | false =>
      refine .inr ⟨⟨length, rfl, hlength⟩, if_neg ?_, if_neg ?_⟩
      · simp [EvalError.numerals, hlength]
      · simp [EvalError.numerals, hlength]

/-- What is read at a place that is a variable with indices. -/
theorem forceAll_place_eq {s : Session} {name : String} {v : Value}
    (hv : s.vars.value? name = some v) (path : List Int) :
    (Operand.place ⟨name, path⟩).forceAll s =
      match v.follow path with
      | .ok w => .ok w s
      | .error e => .error (e.inVariable name).fault s := by
  have hget : s.vars.get ⟨name, path⟩ = (v.follow path).mapError fun e => e.inVariable name :=
    Variables.get_eq_of_value? (q := ⟨name, path⟩) hv
  rw [Operand.forceAll, readPlace_apply, hget]
  cases v.follow path <;> rfl

/-- **Indexing a variable agrees with indexing its value.**  The indices of the variable make a
place.  Reading it gives the value that the indices come to when they are applied to the value of
the variable one after the other; or both fail at the same index, for the same reason and with the
same length. -/
theorem index_variable_agrees {s : Session} {name : String} {v : Value}
    (hv : s.vars.value? name = some v) {path : List Int} (hpath : ∀ i ∈ path, isWritable i = true) :
    indexAll (.place ⟨name, []⟩) path s = .ok (.place ⟨name, path⟩) s ∧
    ((∃ w x, (Operand.place ⟨name, path⟩).forceAll s = .ok w s ∧
        indexAll (.ofValue v) path s = .ok x s ∧ x.forceAll s = .ok w s) ∨
      ∃ front i rest x e e', path = front ++ i :: rest ∧ SameFailure name front i e e' ∧
        (Operand.place ⟨name, path⟩).forceAll s = .error e.fault s ∧
        indexAll (.ofValue v) front s = .ok x s ∧
        index x (.scalar (.int i)) s = .error e'.fault s ∧
        indexAll (.ofValue v) path s = .error e'.fault s ∧
        (e.fault = .error e ∧ e'.fault = .error e' ∨
          -- a length that is itself too long to be written
          (∃ length : Nat, e' = .outOfBounds none [i] length ∧ isWritable length = false) ∧
            e.fault = .numeralTooLong ∧ e'.fault = .numeralTooLong)) := by
  refine ⟨?_, ?_⟩
  · rw [indexAll_place, List.nil_append]
    rfl
  rcases v.follow_cases path with ⟨w, hw⟩ | ⟨front, i, rest, u, e, rfl, hfront, hi, hfollow⟩
  · refine .inl ⟨w, .ofValue w, ?_, ?_, ?_⟩
    · rw [forceAll_place_eq hv, hw]
    · rw [indexAll_of_follow hw]
      rfl
    · rw [Value.forceAll_ofValue]
      rfl
  · obtain ⟨e', hsame, hindex⟩ := exists_sameFailure hi name front
    have hbefore : indexAll (.ofValue v) front = pure (.ofValue u) := indexAll_of_follow hfront
    refine .inr ⟨front, i, rest, .ofValue u, _, e', rfl, hsame, ?_, ?_, ?_, ?_,
      hsame.fault_cases fun j hj => hpath j ?_⟩
    · rw [forceAll_place_eq hv, hfollow]
    · rw [hbefore]
      rfl
    · rw [hindex]
      rfl
    · rw [indexAll_append, hbefore, pure_bind, indexAll_cons, hindex]
      rfl
    · rw [List.append_cons]
      exact List.mem_append_left rest hj

/-- `x[0][5][1]` where `x` is `[[1, 2], 3]`: both walks fail at an index, the one that reads the
variable with the error for the path `x[0][5]`. -/
theorem index_variable_agrees_short :
    let v : Value := .array [.array [.int 1, .int 2], .int 3]
    let s : Session := { Session.start (.script []) with vars := ⟨[("x", v)], by decide⟩ }
    s.vars.value? "x" = some v ∧ (∀ i ∈ [(0 : Int), 5, 1], isWritable i = true) ∧
      indexAll (.place ⟨"x", []⟩) [0, 5, 1] s = .ok (.place ⟨"x", [0, 5, 1]⟩) s ∧
      ∃ front i rest e e', [0, 5, 1] = front ++ i :: rest ∧ SameFailure "x" front i e e' ∧
        e.fault = (EvalError.outOfBounds (some "x") [0, 5] 2).fault ∧
        indexAll (.ofValue v) [0, 5, 1] s = .error e'.fault s := by
  intro v s
  have hv : s.vars.value? "x" = some v := rfl
  have hpath : ∀ i ∈ [(0 : Int), 5, 1], isWritable i = true := by
    have hsmall : ∀ i ∈ [(0 : Int), 5, 1], i.natAbs ≤ Token.maxNumber := by decide
    exact fun i hi => Value.isWritable_of_natAbs_le (hsmall i hi)
  have hread : (Operand.place ⟨"x", [0, 5, 1]⟩).forceAll s =
      .error (EvalError.outOfBounds (some "x") [0, 5] 2).fault s := rfl
  obtain ⟨hplace, ⟨w, x, hw, -⟩ | ⟨front, i, rest, x, e, e', hsplit, hsame, he, -, -, he', -⟩⟩ :=
    index_variable_agrees hv hpath
  · exact absurd (hread.symm.trans hw) nofun
  · have hfault := (EStateM.Result.error.inj (he.symm.trans hread)).1
    exact ⟨hv, hpath, hplace, front, i, rest, e, e', hsplit, hsame, hfault, he'⟩

end Meaning

end DiceNotation
