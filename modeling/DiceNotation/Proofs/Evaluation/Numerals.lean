/-
# The integers that reading an operand can have to write

When a place cannot be read, the error spells out the indices up to the one that does not fit, and
the length of the array there: `Operand.Written` collects these integers, for all places in an
operand.  They are the only ones that forcing the operand can have to write, and so the only reason
for which forcing it can fail on an integer with too many digits (`Operand.orderly_force`,
`Operand.orderly_forceAll`).
-/
import DiceNotation.Proofs.Effects
import DiceNotation.Proofs.Rolling.Faults
import DiceNotation.Proofs.Variables.Failure
import DiceNotation.Selection

namespace DiceNotation

/-! ## 1. Paths that cannot be followed -/

/-- The indices that an error about a path names are indices of the path, and the length is that of
the array in front of the last of them. -/
def PathError.Names (v : Value) (path : List Int) : PathError → Prop
  | outOfBounds named length => named <+: path ∧ ∃ front items, front <+: path ∧
      v.follow front = .ok (.array items) ∧ length = items.length
  | notIndexable named => named <+: path

namespace Value

theorem child_error {v : Value} {i : Int} {e : PathError} (h : v.child i = .error e)
    (path : List Int) : e.Names v (i :: path) := by
  cases v with
  | scalar s =>
    cases h
    exact ⟨path, rfl⟩
  | array items =>
    cases hi : elementAt? items i with
    | some w => simp [child, hi] at h
    | none =>
      simp only [child, hi, Except.error.injEq] at h
      subst h
      exact ⟨⟨path, rfl⟩, [], items, List.nil_prefix, rfl, rfl⟩

/-- An error from one level further down is about the same array. -/
theorem names_below {v w : Value} {i : Int} {path : List Int} {e : PathError}
    (hi : v.child i = .ok w) (h : e.Names w path) : (e.below i).Names v (i :: path) := by
  cases e with
  | outOfBounds named length =>
    obtain ⟨hnamed, front, items, hfront, hitems, hlength⟩ := h
    refine ⟨(List.cons_prefix_cons).mpr ⟨rfl, hnamed⟩, i :: front, items,
      (List.cons_prefix_cons).mpr ⟨rfl, hfront⟩, ?_, hlength⟩
    rw [follow_cons_of_child hi, hitems]
    rfl
  | notIndexable named => exact (List.cons_prefix_cons).mpr ⟨rfl, h⟩

theorem follow_error {v : Value} {path : List Int} {e : PathError}
    (h : v.follow path = .error e) : e.Names v path := by
  induction path generalizing v e with
  | nil => cases h
  | cons i path ih =>
    cases hi : v.child i with
    | error e' =>
      simp only [follow, hi, Except.error.injEq] at h
      subst h
      exact child_error hi path
    | ok w =>
      rw [follow_cons_of_child hi] at h
      obtain ⟨e', hw, rfl⟩ := mapError_eq_error_iff.mp h
      exact names_below hi (ih hw)

end Value

/-! ## 2. The integers in operands and values -/

/-- The integers that an error about a place in an operand can spell out. -/
inductive Operand.Written (vars : Variables) : Operand → Int → Prop
  | index {p : Place} {n : Int} (h : n ∈ p.indices) : Written vars (.place p) n
  | length {p : Place} {front : List Int} {items : List Value} (hfront : front <+: p.indices)
      (h : vars.get ⟨p.name, front⟩ = .ok (.array items)) : Written vars (.place p) items.length
  | item {items : List Operand} {x : Operand} {n : Int} (hx : x ∈ items) (h : Written vars x n) :
      Written vars (.array items) n

/-- The integers in a value, at any depth. -/
inductive Value.Holds : Value → Int → Prop
  | int (n : Int) : Holds (.scalar (.int n)) n
  | item {items : List Value} {v : Value} {n : Int} (hv : v ∈ items) (h : Holds v n) :
      Holds (.array items) n

mutual

/-- There is no place in a value. -/
theorem Operand.not_written_ofValue {vars : Variables} {n : Int} :
    (v : Value) → ¬ (ofValue v).Written vars n
  | .scalar _ => by
    intro h
    cases h
  | .array items => by
    intro h
    cases h with
    | item hx h => exact not_written_ofValues items _ hx h

theorem Operand.not_written_ofValues {vars : Variables} {n : Int} :
    (vs : List Value) → ∀ x ∈ ofValues vs, ¬ x.Written vars n
  | [], _, hx => absurd hx List.not_mem_nil
  | v :: vs, x, hx => by
    rcases List.mem_cons.mp hx with rfl | hx
    · exact not_written_ofValue v
    · exact not_written_ofValues vs x hx

end

mutual

/-- A value that cannot be written holds an integer that cannot be written. -/
theorem Value.exists_holds_of_not_isWritable : (v : Value) → v.isWritable = false →
    ∃ n, v.Holds n ∧ DiceNotation.isWritable n = false
  | .scalar (.int n) => by
    intro h
    rw [Value.isWritable] at h
    exact ⟨n, .int n, h⟩
  | .scalar (.real _) => nofun
  | .scalar (.char _) => nofun
  | .array items => by
    intro h
    rw [Value.isWritable] at h
    obtain ⟨v, n, hv, hn, hlong⟩ := exists_holds_of_not_areWritable items h
    exact ⟨n, .item hv hn, hlong⟩

theorem Value.exists_holds_of_not_areWritable : (vs : List Value) → areWritable vs = false →
    ∃ v n, v ∈ vs ∧ v.Holds n ∧ DiceNotation.isWritable n = false
  | [] => nofun
  | v :: vs => by
    intro h
    rw [areWritable, Bool.and_eq_false_iff] at h
    rcases h with h | h
    · obtain ⟨n, hn, hlong⟩ := exists_holds_of_not_isWritable v h
      exact ⟨v, n, List.mem_cons_self, hn, hlong⟩
    · obtain ⟨w, n, hw, hn, hlong⟩ := exists_holds_of_not_areWritable vs h
      exact ⟨w, n, List.mem_cons_of_mem _ hw, hn, hlong⟩

end

/-! ## 3. Places -/

namespace Variables

/-- An error about a place spells out nothing but what is written for that place. -/
theorem get_error {vars : Variables} {p : Place} {e : EvalError} (h : vars.get p = .error e) :
    e ≠ .notSortable ∧ ∀ n ∈ e.numerals, (Operand.place p).Written vars n := by
  unfold get at h
  cases hlookup : vars.entries.lookup p.name with
  | none =>
    simp only [hlookup, Except.error.injEq] at h
    subst h
    exact ⟨nofun, fun n hn => absurd hn List.not_mem_nil⟩
  | some v =>
    simp only [hlookup] at h
    obtain ⟨e', hv, rfl⟩ := mapError_eq_error_iff.mp h
    have hnames := Value.follow_error hv
    cases e' with
    | notIndexable named =>
      refine ⟨nofun, fun n hn => ?_⟩
      exact .index (hnames.subset hn)
    | outOfBounds named length =>
      obtain ⟨hnamed, front, items, hfront, hitems, rfl⟩ := hnames
      refine ⟨nofun, fun n hn => ?_⟩
      rcases List.mem_cons.mp hn with rfl | hn
      · refine .length hfront ?_
        simp only [get, hlookup]
        exact mapError_eq_ok_iff.mpr hitems
      · exact .index (hnamed.subset hn)

end Variables

/-! ## 4. Forcing -/

/-- Work on a session that ends in order, `written` being what it has to write. -/
abbrev Evaluating.OrderlyAt {α : Type} (work : Evaluating α) (written : Int → Prop) (s : Session) :
    Prop :=
  Orderly (fun s => s.tray.budget) (fun s => s.tray.Spent) written work s

section Forcing

variable {s s' : Session} {written : Int → Prop}

theorem Rolling.Fair.inSession {α : Type} {work : Rolling α} (h : work.Fair) :
    work.inSession.OrderlyAt written s := by
  have htray : Orderly Tray.budget Tray.Spent written work s.tray :=
    (h s.tray).mono fun n hn => hn.elim
  constructor
  · intro a s' hok
    obtain ⟨t, hwork, rfl⟩ := Rolling.inSession_eq_ok_iff.mp hok
    exact htray.in_time hwork
  · intro f s' herror
    obtain ⟨t, hwork, rfl⟩ := Rolling.inSession_eq_error_iff.mp herror
    exact htray.explained hwork

theorem vars_inSession {α : Type} {work : Rolling α} {a : α}
    (h : work.inSession s = .ok a s') : s'.vars = s.vars := by
  obtain ⟨t, -, rfl⟩ := Rolling.inSession_eq_ok_iff.mp h
  rfl

/-- An error is orderly if what it spells out is among what is to be written. -/
theorem orderly_fail {α : Type} {e : EvalError} (he : e ≠ .notSortable)
    (h : ∀ n ∈ e.numerals, written n) : (fail e : Evaluating α).OrderlyAt written s := by
  refine .throw ?_
  unfold EvalError.fault
  split
  · next hall => exact ⟨.refl _, he, hall⟩
  · next hall =>
    obtain ⟨n, hn, hlong⟩ := List.all_eq_false.mp (Bool.eq_false_iff.mpr hall)
    exact ⟨.refl _, n, h n hn, by simpa using hlong⟩

theorem orderly_readPlace (p : Place) (s : Session) :
    (readPlace p).OrderlyAt ((Operand.place p).Written s.vars) s := by
  refine Orderly.get.bind ?_
  intro s₁ s₂ hget
  cases hget
  cases hp : s.vars.get p with
  | ok v => exact .pure v
  | error e =>
    obtain ⟨he, hnumerals⟩ := Variables.get_error hp
    exact orderly_fail he hnumerals

theorem state_readPlace {p : Place} {v : Value} (h : readPlace p s = .ok v s') : s' = s := by
  obtain ⟨s₁, s₂, hget, h⟩ := bind_eq_ok_iff.mp h
  cases hget
  cases hp : s.vars.get p with
  | ok w =>
    simp only [hp] at h
    cases h
    rfl
  | error e =>
    simp only [hp] at h
    cases h

namespace Operand

/-- **What forcing an operand has to write is written for its places.** -/
theorem orderly_force (x : Operand) (s : Session) : x.force.OrderlyAt (x.Written s.vars) s := by
  cases x with
  | scalar c => exact .pure _
  | array items => exact .pure _
  | place p => exact (orderly_readPlace p s).bind fun v s₁ _ => .pure _
  | pool p => exact (Rolling.Fair.inSession p.fair_roll).bind fun v s₁ _ => .pure _

/-- Forcing leaves the variables alone. -/
theorem vars_force {x y : Operand} (h : x.force s = .ok y s') : s'.vars = s.vars := by
  cases x with
  | scalar c =>
    cases h
    rfl
  | array items =>
    cases h
    rfl
  | place p =>
    obtain ⟨v, s₁, hv, h⟩ := bind_eq_ok_iff.mp h
    cases h
    rw [state_readPlace hv]
  | pool p =>
    obtain ⟨v, s₁, hv, h⟩ := bind_eq_ok_iff.mp h
    cases h
    exact vars_inSession hv

/-- What is written for a forced operand has been written for the operand. -/
theorem Written.of_force {x y : Operand} (h : x.force s = .ok y s') {vars : Variables} {n : Int}
    (hn : y.Written vars n) : x.Written vars n := by
  cases x with
  | scalar c =>
    cases h
    exact hn
  | array items =>
    cases h
    exact hn
  | place p =>
    obtain ⟨v, s₁, -, h⟩ := bind_eq_ok_iff.mp h
    cases h
    exact absurd hn (not_written_ofValue v)
  | pool p =>
    obtain ⟨v, s₁, -, h⟩ := bind_eq_ok_iff.mp h
    cases h
    exact absurd hn (not_written_ofValue v)

mutual

theorem vars_forceAll : (x : Operand) → ∀ {s s' : Session} {v : Value},
    x.forceAll s = .ok v s' → s'.vars = s.vars
  | .scalar c, s, s', v, h => by
    cases h
    rfl
  | .place p, s, s', v, h => by rw [state_readPlace h]
  | .pool p, s, s', v, h => vars_inSession h
  | .array items, s, s', v, h => by
    rw [forceAll] at h
    obtain ⟨vs, s₁, hvs, h⟩ := bind_eq_ok_iff.mp h
    cases h
    exact vars_forceAllOnto items hvs

theorem vars_forceAllOnto : (items : List Operand) → ∀ {done vs : List Value} {s s' : Session},
    forceAllOnto done items s = .ok vs s' → s'.vars = s.vars
  | [], done, vs, s, s', h => by
    cases h
    rfl
  | x :: items, done, vs, s, s', h => by
    rw [forceAllOnto] at h
    obtain ⟨v, s₁, hv, h⟩ := bind_eq_ok_iff.mp h
    rw [vars_forceAllOnto items h, vars_forceAll x hv]

end

mutual

/-- **What forcing everything in an operand has to write is written for its places.** -/
theorem orderly_forceAll : (x : Operand) → (s : Session) →
    x.forceAll.OrderlyAt (x.Written s.vars) s
  | .scalar c, _ => .pure _
  | .place p, s => orderly_readPlace p s
  | .pool p, _ => Rolling.Fair.inSession p.fair_roll
  | .array items, s => by
    rw [forceAll]
    exact (orderly_forceAllOnto items [] s fun x hx n hn => .item hx hn).bind fun vs s₁ _ => .pure _

theorem orderly_forceAllOnto {written : Int → Prop} : (items : List Operand) →
    (done : List Value) → (s : Session) → (∀ x ∈ items, ∀ n, x.Written s.vars n → written n) →
    (forceAllOnto done items).OrderlyAt written s
  | [], _, _, _ => .pure _
  | x :: items, done, s, h => by
    obtain ⟨hx, hitems⟩ := List.forall_mem_cons.mp h
    rw [forceAllOnto]
    refine ((orderly_forceAll x s).mono hx).bind fun v s₁ hv => ?_
    refine orderly_forceAllOnto items (v :: done) s₁ ?_
    rwa [vars_forceAll x hv]

end

end Operand

theorem orderly_forceScalars {operation : String} {items : List Operand} (done : List Scalar)
    (h : ∀ x ∈ items, ∀ n, x.Written s.vars n → written n) :
    (forceScalars operation done items).OrderlyAt written s := by
  induction items generalizing done s with
  | nil => exact .pure _
  | cons x items ih =>
    obtain ⟨hx, hitems⟩ := List.forall_mem_cons.mp h
    rw [forceScalars]
    refine ((x.orderly_force s).mono hx).bind fun y s₁ hy => ?_
    cases y with
    | scalar c =>
      refine ih _ ?_
      rwa [Operand.vars_force hy]
    | _ => exact orderly_fail nofun fun n hn => absurd hn List.not_mem_nil

theorem orderly_keepItems {items : List Operand} {amount : Int} {k : Keep} {operation : String} :
    (keepItems items amount k operation).OrderlyAt ((Operand.array items).Written s.vars) s :=
  (orderly_forceScalars [] fun _ hx _ hn => .item hx hn).bind fun _ _ _ => .pure _

end Forcing

end DiceNotation
