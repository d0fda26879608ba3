/-
# Setting a place changes that place and nothing else

Places of one variable lie in each other or apart: of two index paths one goes on from the other, or
they **diverge** at some position.  When the value at a place is set, a place inside it is inside
the new value, a place that diverges from it or belongs to another variable is as it was, and an
array around it differs at that place only (`Value.DiffersOnlyAt`): its lengths stay, and so do all
other elements.

`Value.replace_spec` says so for the value of one variable, by induction on the path.
`Variables.assign_in_place` says it for the store, together with what becomes of the names: they
keep their order in every run of assignments, whether these succeed or fail.
-/
import DiceNotation.Proofs.Effects
import DiceNotation.Variables

namespace DiceNotation

/-! ## 1. Paths -/

/-- Two index paths go on differently from some position, which both of them have. -/
def Diverge (path other : List Int) : Prop :=
  ∃ front i j rest rest', i ≠ j ∧ path = front ++ i :: rest ∧ other = front ++ j :: rest'

theorem not_diverge_nil (other : List Int) : ¬ Diverge [] other := by
  rintro ⟨front, i, j, rest, rest', -, hpath, -⟩
  simp at hpath

/-- Paths that diverge do so at their first index or behind it. -/
theorem Diverge.cases_cons {i : Int} {path other : List Int} (h : Diverge (i :: path) other) :
    ∃ j rest, other = j :: rest ∧ (i ≠ j ∨ i = j ∧ Diverge path rest) := by
  obtain ⟨front, k, l, back, back', hne, hpath, rfl⟩ := h
  cases front with
  | nil =>
    obtain ⟨rfl, rfl⟩ := List.cons.inj hpath
    exact ⟨l, back', rfl, .inl hne⟩
  | cons first front =>
    obtain ⟨rfl, rfl⟩ := List.cons.inj hpath
    exact ⟨i, front ++ l :: back', rfl, .inr ⟨rfl, front, k, l, back, back', hne, rfl, rfl⟩⟩

/-! ## 2. One step down -/

theorem elementAt?_set_self {α : Type} {xs : List α} {i : Int} {x : α}
    (h : elementAt? xs i = some x) (new : α) : elementAt? (xs.set i.toNat new) i = some new := by
  unfold elementAt? at h ⊢
  split at h
  · cases h
  · next hi =>
    obtain ⟨hlt, -⟩ := List.getElem?_eq_some_iff.mp h
    rw [if_neg hi, List.getElem?_set_self hlt]

theorem elementAt?_set_ne {α : Type} {xs : List α} {i j : Int} {x : α}
    (h : elementAt? xs i = some x) (hne : i ≠ j) (new : α) :
    elementAt? (xs.set i.toNat new) j = elementAt? xs j := by
  unfold elementAt? at h ⊢
  split at h
  · cases h
  · next hi =>
    by_cases hj : j < 0
    · rw [if_pos hj, if_pos hj]
    · have hindex : i.toNat ≠ j.toNat := by omega
      rw [if_neg hj, if_neg hj, List.getElem?_set_ne hindex]

namespace Value

theorem child_eq_ok_iff {v w : Value} {i : Int} :
    v.child i = .ok w ↔ ∃ items, v = array items ∧ elementAt? items i = some w := by
  constructor
  · intro h
    cases v with
    | scalar s => simp [child] at h
    | array items =>
      cases hi : elementAt? items i with
      | none => simp [child, hi] at h
      | some u =>
        simp only [child, hi, Except.ok.injEq] at h
        exact ⟨items, rfl, h ▸ hi⟩
  · rintro ⟨items, rfl, hi⟩
    simp [child, hi]

theorem child_setChild_self {v w : Value} {i : Int} (h : v.child i = .ok w) (new : Value) :
    (v.setChild i new).child i = .ok new := by
  obtain ⟨items, rfl, hi⟩ := child_eq_ok_iff.mp h
  simp [setChild, child, elementAt?_set_self hi]

theorem child_setChild_ne {v w : Value} {i j : Int} (h : v.child i = .ok w) (hne : i ≠ j)
    (new : Value) : (v.setChild i new).child j = v.child j := by
  obtain ⟨items, rfl, hi⟩ := child_eq_ok_iff.mp h
  simp [setChild, child, elementAt?_set_ne hi hne]

/-! ## 3. Following a path -/

theorem follow_cons_of_child {v w : Value} {i : Int} (h : v.child i = .ok w) (path : List Int) :
    v.follow (i :: path) = (w.follow path).mapError (.below i) := by
  rw [follow, h]

theorem follow_cons_congr {v v' : Value} {i : Int} (h : v'.child i = v.child i)
    (path : List Int) : v'.follow (i :: path) = v.follow (i :: path) := by
  rw [follow, follow, h]

/-- A path is followed in two stages; a failure in the second one is seen from the top. -/
theorem follow_append {v w : Value} {front : List Int} (h : v.follow front = .ok w)
    (rest : List Int) :
    v.follow (front ++ rest) = (w.follow rest).mapError fun e => front.foldr .below e := by
  induction front generalizing v with
  | nil =>
    obtain rfl := Except.ok.inj h
    rw [List.nil_append]
    cases v.follow rest <;> rfl
  | cons i front ih =>
    cases hi : v.child i with
    | error e => simp [follow, hi] at h
    | ok u =>
      rw [follow_cons_of_child hi] at h
      have hfront : u.follow front = .ok w := mapError_eq_ok_iff.mp h
      rw [List.cons_append, follow_cons_of_child hi, ih hfront]
      cases w.follow rest <;> rfl

/-! ## 4. Replacing the end of a path -/

theorem replace_cons_eq_ok_iff {v v' new : Value} {i : Int} {path : List Int} :
    v.replace (i :: path) new = .ok v' ↔
      ∃ w w', v.child i = .ok w ∧ w.replace path new = .ok w' ∧ v' = v.setChild i w' := by
  constructor
  · intro h
    rw [replace] at h
    cases hi : v.child i with
    | error e => simp [hi] at h
    | ok w =>
      cases hw : w.replace path new with
      | error e => simp [hi, hw] at h
      | ok w' =>
        simp only [hi, hw, Except.ok.injEq] at h
        exact ⟨w, w', rfl, hw, h.symm⟩
  · rintro ⟨w, w', hi, hw, rfl⟩
    simp [replace, hi, hw]

/-- Two values are the same but for the end of a path, where the second one has `v`: no other
element differs, and no array on the way has another length. -/
structure DiffersOnlyAt (path : List Int) (v old new : Value) : Prop where
  at_path : new.follow path = .ok v
  elsewhere : ∀ other, Diverge path other → new.follow other = old.follow other
  lengths : ∀ front i rest, path = front ++ i :: rest → ∃ items items',
    old.follow front = .ok (.array items) ∧ new.follow front = .ok (.array items') ∧
      items.length = items'.length

/-- **Replacing the end of a path changes nothing else**, by induction on the path: one step down
there is one element that may differ, and the others are kept by `List.set`. -/
theorem replace_spec {old new v : Value} {path : List Int} (h : old.replace path v = .ok new) :
    DiffersOnlyAt path v old new := by
  induction path generalizing old new with
  | nil =>
    obtain rfl := Except.ok.inj h
    refine ⟨rfl, ?_, ?_⟩
    · intro other hother
      exact absurd hother (not_diverge_nil other)
    · intro front i rest hpath
      simp at hpath
  | cons i path ih =>
    obtain ⟨w, w', hi, hw, rfl⟩ := replace_cons_eq_ok_iff.mp h
    have hinner := ih hw
    have hself := child_setChild_self hi w'
    refine ⟨?_, ?_, ?_⟩
    · rw [follow_cons_of_child hself, hinner.at_path]
      rfl
    · intro other hother
      obtain ⟨j, rest, rfl, hne | ⟨rfl, hrest⟩⟩ := hother.cases_cons
      · exact follow_cons_congr (child_setChild_ne hi hne w') rest
      · rw [follow_cons_of_child hself, follow_cons_of_child hi, hinner.elsewhere rest hrest]
    · intro front j rest hpath
      cases front with
      | nil =>
        obtain ⟨items, rfl, -⟩ := child_eq_ok_iff.mp hi
        exact ⟨items, items.set i.toNat w', rfl, rfl, (List.length_set ..).symm⟩
      | cons k front =>
        obtain ⟨rfl, rfl⟩ := List.cons.inj hpath
        obtain ⟨items, items', hold, hnew, hlength⟩ := hinner.lengths front j rest rfl
        refine ⟨items, items', ?_, ?_, hlength⟩
        · rw [follow_cons_of_child hi, hold]
          rfl
        · rw [follow_cons_of_child hself, hnew]
          rfl

/-- Replacing the end of a path is replacing it in the array at the end of any front of it. -/
theorem replace_append {old new v : Value} {front rest : List Int}
    (h : old.replace (front ++ rest) v = .ok new) :
    ∃ w w', old.follow front = .ok w ∧ new.follow front = .ok w' ∧ w.replace rest v = .ok w' := by
  induction front generalizing old new with
  | nil => exact ⟨old, new, rfl, rfl, h⟩
  | cons i front ih =>
    obtain ⟨u, u', hi, hu, rfl⟩ := replace_cons_eq_ok_iff.mp h
    obtain ⟨w, w', hold, hnew, hw⟩ := ih hu
    refine ⟨w, w', ?_, ?_, hw⟩
    · rw [follow_cons_of_child hi, hold]
      rfl
    · rw [follow_cons_of_child (child_setChild_self hi u'), hnew]
      rfl

end Value

/-! ## 5. The store -/

namespace Variables

/-- What a variable holds. -/
def value? (vars : Variables) (name : String) : Option Value := vars.entries.lookup name

theorem get_eq_of_value? {vars : Variables} {q : Place} {whole : Value}
    (h : vars.value? q.name = some whole) :
    vars.get q = (whole.follow q.indices).mapError fun e => e.inVariable q.name := by
  simp only [value?] at h
  simp only [get, h]

theorem get_congr {vars vars' : Variables} {q : Place}
    (h : vars'.value? q.name = vars.value? q.name) : vars'.get q = vars.get q := by
  simp only [value?] at h
  simp only [get, h]

theorem value?_put (vars : Variables) (name other : String) (v : Value) :
    (vars.put name v).value? other = if other = name then some v else vars.value? other :=
  lookup_putEntry name other v vars.entries

/-- The names are those that hold something. -/
theorem mem_names_of_value? {vars : Variables} {name : String} {v : Value}
    (h : vars.value? name = some v) : name ∈ vars.names := by
  have hsome : (vars.entries.lookup name).isSome = true := by
    simp only [value?] at h
    simp [h]
  rw [List.lookup_isSome_iff] at hsome
  obtain ⟨entry, hentry, hname⟩ := hsome
  exact List.mem_map.mpr ⟨entry, hentry, (beq_iff_eq.mp hname).symm⟩

/-- Setting a place puts a new value under its name.  Unless the place is the whole variable, there
was a value before, and its part at the place has been replaced. -/
theorem set_eq_ok {vars vars' : Variables} {p : Place} {v : Value}
    (h : vars.set p v = .ok vars') :
    ∃ whole, vars' = vars.put p.name whole ∧
      (p.indices = [] ∧ whole = v ∨
        ∃ old, vars.value? p.name = some old ∧ old.replace p.indices v = .ok whole) := by
  unfold set at h
  split at h
  · next hindices => exact ⟨v, (Except.ok.inj h).symm, .inl ⟨hindices, rfl⟩⟩
  · cases hold : vars.entries.lookup p.name with
    | none => simp [hold] at h
    | some old =>
      cases hwhole : old.replace p.indices v with
      | error e => simp [hold, hwhole] at h
      | ok whole =>
        simp only [hold, hwhole, Except.ok.injEq] at h
        exact ⟨whole, h.symm, .inr ⟨old, hold, hwhole⟩⟩

/-- The new value of the variable has the value that is set at the end of the path. -/
theorem exists_whole_of_set {vars vars' : Variables} {p : Place} {v : Value}
    (h : vars.set p v = .ok vars') :
    ∃ whole, vars' = vars.put p.name whole ∧ whole.follow p.indices = .ok v := by
  obtain ⟨whole, hvars, ⟨hindices, rfl⟩ | ⟨old, -, hold⟩⟩ := set_eq_ok h
  · exact ⟨whole, hvars, by rw [hindices]; rfl⟩
  · exact ⟨whole, hvars, (Value.replace_spec hold).at_path⟩

theorem get_set_inside {vars vars' : Variables} {p : Place} {v : Value}
    (h : vars.set p v = .ok vars') (rest : List Int) :
    vars'.get ⟨p.name, p.indices ++ rest⟩ =
      (v.follow rest).mapError fun e => (p.indices.foldr .below e).inVariable p.name := by
  obtain ⟨whole, rfl, hwhole⟩ := exists_whole_of_set h
  have hvalue : (vars.put p.name whole).value? p.name = some whole := by
    rw [value?_put, if_pos rfl]
  rw [get_eq_of_value? (q := ⟨p.name, p.indices ++ rest⟩) hvalue, Value.follow_append hwhole]
  cases v.follow rest <;> rfl

theorem get_set_apart {vars vars' : Variables} {p q : Place} {v : Value}
    (h : vars.set p v = .ok vars') (hapart : q.name ≠ p.name ∨ Diverge p.indices q.indices) :
    vars'.get q = vars.get q := by
  obtain ⟨whole, rfl, hwhole⟩ := set_eq_ok h
  by_cases hname : q.name = p.name
  · have hdiverge : Diverge p.indices q.indices := hapart.resolve_left fun hne => hne hname
    rcases hwhole with ⟨hindices, -⟩ | ⟨old, hold, hreplace⟩
    · rw [hindices] at hdiverge
      exact absurd hdiverge (not_diverge_nil _)
    · have hnew : (vars.put p.name whole).value? q.name = some whole := by
        rw [value?_put, if_pos hname]
      rw [get_eq_of_value? hnew, get_eq_of_value? (hname ▸ hold),
        (Value.replace_spec hreplace).elsewhere _ hdiverge]
  · exact get_congr (by rw [value?_put, if_neg hname])

theorem get_set_around {vars vars' : Variables} {p : Place} {v : Value}
    (h : vars.set p v = .ok vars') {front rest : List Int} (hindices : p.indices = front ++ rest)
    (hrest : rest ≠ []) :
    ∃ old new, vars.get ⟨p.name, front⟩ = .ok old ∧ vars'.get ⟨p.name, front⟩ = .ok new ∧
      Value.DiffersOnlyAt rest v old new := by
  obtain ⟨whole, rfl, ⟨hnil, -⟩ | ⟨old, hold, hreplace⟩⟩ := set_eq_ok h
  · rw [hnil] at hindices
    exact absurd (List.append_eq_nil_iff.mp hindices.symm).2 hrest
  · rw [hindices] at hreplace
    obtain ⟨w, w', hw, hw', hinner⟩ := Value.replace_append hreplace
    have hnew : (vars.put p.name whole).value? p.name = some whole := by
      rw [value?_put, if_pos rfl]
    refine ⟨w, w', ?_, ?_, Value.replace_spec hinner⟩
    · rw [get_eq_of_value? (q := ⟨p.name, front⟩) hold, hw]
      rfl
    · rw [get_eq_of_value? (q := ⟨p.name, front⟩) hnew, hw']
      rfl

/-! ## 6. Assignments -/

/-- The store behind an assignment, whether it succeeds or not. -/
def assigned (vars : Variables) (p : Place) (v : Value) : Variables :=
  match assign p v vars with
  | .ok _ vars' => vars'
  | .error _ vars' => vars'

/-- The store behind some assignments, one after the other. -/
def assignedAll (vars : Variables) : List (Place × Value) → Variables
  | [] => vars
  | (p, v) :: more => (vars.assigned p v).assignedAll more

theorem assigned_eq (vars : Variables) (p : Place) (v : Value) :
    vars.assigned p v = ((vars.set p v).toOption.getD vars) := by
  rw [assigned, assign]
  cases vars.set p v with
  | error e => rfl
  | ok vars' => cases v.isWritable <;> rfl

theorem set_of_assign {vars vars' : Variables} {p : Place} {v : Value}
    (h : assign p v vars = .ok () vars') : vars.set p v = .ok vars' := by
  rw [assign] at h
  cases hset : vars.set p v with
  | error e => simp [hset] at h
  | ok vars₁ =>
    simp only [hset] at h
    split at h
    · cases h
      rfl
    · cases h

/-- What an assignment does to the names: only that of a whole variable that is new goes to the
end. -/
theorem names_assigned (vars : Variables) (p : Place) (v : Value) :
    (vars.assigned p v).names =
      if p.name ∈ vars.names ∨ p.indices ≠ [] then vars.names else vars.names ++ [p.name] := by
  rw [assigned_eq]
  cases hset : vars.set p v with
  | error e =>
    have hold : p.name ∈ vars.names ∨ p.indices ≠ [] := by
      refine .inr fun hindices => ?_
      simp [set, hindices] at hset
    rw [if_pos hold]
    rfl
  | ok vars' =>
    obtain ⟨whole, rfl, hwhole⟩ := set_eq_ok hset
    change (vars.put p.name whole).names = _
    rw [names_put]
    rcases hwhole with ⟨hindices, -⟩ | ⟨old, hold, -⟩
    · simp [hindices]
    · have hmem := mem_names_of_value? hold
      rw [if_pos hmem, if_pos (.inl hmem)]

/-- No run of assignments removes a name or moves it. -/
theorem names_prefix_assignedAll (vars : Variables) (sets : List (Place × Value)) :
    vars.names <+: (vars.assignedAll sets).names := by
  induction sets generalizing vars with
  | nil => exact List.prefix_refl _
  | cons set sets ih =>
    have hone : vars.names <+: (vars.assigned set.1 set.2).names := by
      rw [names_assigned]
      split
      · exact List.prefix_refl _
      · exact List.prefix_append _ _
    exact hone.trans (ih (vars.assigned set.1 set.2))

/-- **An assignment updates its place and leaves the rest as it was**, and no assignment disturbs
the order of the names.  A place inside the one that is set is inside the new value, with the errors
of a path that leads on from there; a place apart from it has the outcome that it had; and what
holds it differs at that place only. -/
theorem assign_in_place :
    (∀ (vars vars' : Variables) (p : Place) (v : Value), assign p v vars = .ok () vars' →
      vars'.get p = .ok v ∧
      (∀ rest, vars'.get ⟨p.name, p.indices ++ rest⟩ =
        (v.follow rest).mapError fun e => (p.indices.foldr .below e).inVariable p.name) ∧
      (∀ q : Place, q.name ≠ p.name ∨ Diverge p.indices q.indices → vars'.get q = vars.get q) ∧
      ∀ front rest, p.indices = front ++ rest → rest ≠ [] →
        ∃ old new, vars.get ⟨p.name, front⟩ = .ok old ∧ vars'.get ⟨p.name, front⟩ = .ok new ∧
          Value.DiffersOnlyAt rest v old new) ∧
    (∀ (vars : Variables) (p : Place) (v : Value),
      (p.name ∈ vars.names → (vars.assigned p v).names = vars.names) ∧
      (p.name ∉ vars.names → p.indices = [] →
        (vars.assigned p v).names = vars.names ++ [p.name]) ∧
      (p.name ∉ vars.names → p.indices ≠ [] → (vars.assigned p v).names = vars.names)) ∧
    ∀ (vars : Variables) (sets : List (Place × Value)),
      vars.names <+: (vars.assignedAll sets).names := by
  refine ⟨?_, ?_, names_prefix_assignedAll⟩
  · intro vars vars' p v hassign
    have hset := set_of_assign hassign
    refine ⟨?_, get_set_inside hset, fun q => get_set_apart hset,
      fun front rest => get_set_around hset⟩
    have hself := get_set_inside hset []
    rw [List.append_nil] at hself
    exact hself
  · intro vars p v
    refine ⟨?_, ?_, ?_⟩
    · intro hmem
      rw [names_assigned, if_pos (.inl hmem)]
    · intro hnew hindices
      rw [names_assigned, if_neg (by simp [hnew, hindices])]
    · intro _ hindices
      rw [names_assigned, if_pos (.inr hindices)]

/-- Setting `x[0][1]` to a character: `x[1]` diverges from it, `x[0][1][0]` leads into what is no
array, and `x[0]` keeps its other element. -/
theorem assign_in_place_element :
    let x : Value := .array [.array [.int 1, .int 2], .int 3]
    let x' : Value := .array [.array [.int 1, .char 'a'], .int 3]
    let vars : Variables := ⟨[("x", x), ("y", .int 4)], by decide⟩
    let vars' : Variables := ⟨[("x", x'), ("y", .int 4)], by decide⟩
    assign ⟨"x", [0, 1]⟩ (.char 'a') vars = .ok () vars' ∧
      vars'.get ⟨"x", [0, 1]⟩ = .ok (.char 'a') ∧
      vars'.get ⟨"x", [0, 1, 0]⟩ = .error (.notIndexable (some "x") [0, 1, 0]) ∧
      vars'.get ⟨"x", [1]⟩ = vars.get ⟨"x", [1]⟩ ∧
      (∃ old new, vars.get ⟨"x", [0]⟩ = .ok old ∧ vars'.get ⟨"x", [0]⟩ = .ok new ∧
        Value.DiffersOnlyAt [1] (.char 'a') old new) ∧
      (vars.assigned ⟨"z", []⟩ (.int 5)).names = ["x", "y", "z"] := by
  intro x x' vars vars'
  have hassign : assign ⟨"x", [0, 1]⟩ (.char 'a') vars = .ok () vars' := rfl
  obtain ⟨hplaces, hnames, -⟩ := assign_in_place
  obtain ⟨hself, hinside, hapart, haround⟩ := hplaces vars vars' _ _ hassign
  have hdiverge : Diverge [0, 1] [1] := ⟨[], 0, 1, [1], [], by decide, rfl, rfl⟩
  have hnew : "z" ∉ vars.names := by decide
  exact ⟨hassign, hself, hinside [0], hapart ⟨"x", [1]⟩ (.inr hdiverge),
    haround [0] [1] rfl (by decide), (hnames vars ⟨"z", []⟩ (.int 5)).2.1 hnew rfl⟩

end Variables

end DiceNotation
