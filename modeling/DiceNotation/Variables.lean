/-
# Variables

The values that an evaluation has given names to, in the order in which the names were first used.
An element inside an array is reached by an index path, and can be replaced by itself:
`Value.follow` walks down a path and `Value.replace` rebuilds the arrays along it.  Both fail in the
same way, at the first index that does not fit.

The names are a view of the store that `names_put` describes: a new name goes to the end, and a name
that is there already keeps its place.
-/
import DiceNotation.Fault

namespace DiceNotation

/-! ## 1. Index paths -/

/-- Why an index path cannot be followed.  `path` goes up to the index that does not fit. -/
inductive PathError where
  | outOfBounds (path : List Int) (length : Nat)
  | notIndexable (path : List Int)
deriving DecidableEq, Repr

namespace PathError

/-- The same failure seen from one level further up. -/
def below (i : Int) : PathError → PathError
  | outOfBounds path length => outOfBounds (i :: path) length
  | notIndexable path => notIndexable (i :: path)

/-- The error for a failure on a path from the variable `name`. -/
def inVariable (name : String) : PathError → EvalError
  | outOfBounds path length => .outOfBounds (some name) path length
  | notIndexable path => .notIndexable (some name) path

end PathError

/-- The element of a list at an index that may be negative or too large. -/
def elementAt? {α : Type} (xs : List α) (i : Int) : Option α :=
  if i < 0 then none else xs[i.toNat]?

namespace Value

/-- The element of a value at an index. -/
def child : Value → (i : Int) → Except PathError Value
  | scalar _, i => .error (.notIndexable [i])
  | array items, i =>
    match elementAt? items i with
    | some v => .ok v
    | none => .error (.outOfBounds [i] items.length)

/-- A value with the element at an index replaced. -/
def setChild : Value → (i : Int) → Value → Value
  | scalar s, _, _ => scalar s
  | array items, i, v => array (items.set i.toNat v)

/-- The part of a value at the end of an index path. -/
def follow : Value → (path : List Int) → Except PathError Value
  | v, [] => .ok v
  | v, i :: path =>
    match v.child i with
    | .error e => .error e
    | .ok w => (follow w path).mapError (.below i)

/-- A value with the part at the end of an index path replaced. -/
def replace : Value → (path : List Int) → (new : Value) → Except PathError Value
  | _, [], new => .ok new
  | v, i :: path, new =>
    match v.child i with
    | .error e => .error e
    | .ok w =>
      match replace w path new with
      | .error e => .error (e.below i)
      | .ok w' => .ok (v.setChild i w')

end Value

/-! ## 2. The store -/

/-- Gives a name a value: in its place if the list has the name, else at the end. -/
def putEntry (name : String) (v : Value) : List (String × Value) → List (String × Value)
  | [] => [(name, v)]
  | entry :: rest =>
    if entry.1 = name then (name, v) :: rest else entry :: putEntry name v rest

theorem map_fst_putEntry (name : String) (v : Value) (entries : List (String × Value)) :
    (putEntry name v entries).map Prod.fst =
      if name ∈ entries.map Prod.fst then entries.map Prod.fst
      else entries.map Prod.fst ++ [name] := by
  induction entries with
  | nil => simp [putEntry]
  | cons entry rest ih =>
    by_cases h : entry.1 = name
    · simp [putEntry, h]
    · have h' : name ≠ entry.1 := fun e => h e.symm
      simp only [putEntry, h, if_false, List.map_cons, ih, List.mem_cons, h', false_or]
      split <;> simp

theorem nodup_putEntry (name : String) (v : Value) (entries : List (String × Value))
    (h : (entries.map Prod.fst).Nodup) : ((putEntry name v entries).map Prod.fst).Nodup := by
  rw [map_fst_putEntry]
  split
  · exact h
  · next hn =>
    rw [List.nodup_append]
    exact ⟨h, by simp, fun a ha b hb e => hn (by simp at hb; exact hb ▸ e ▸ ha)⟩

/-- A name has the value that it was given last, and no other name is touched. -/
theorem lookup_putEntry (name other : String) (v : Value) (entries : List (String × Value)) :
    (putEntry name v entries).lookup other =
      if other = name then some v else entries.lookup other := by
  induction entries with
  | nil =>
    by_cases h : other = name
    · simp [putEntry, h]
    · simp [putEntry, List.lookup_cons, h, beq_eq_false_iff_ne.mpr h]
  | cons entry rest ih =>
    obtain ⟨first, w⟩ := entry
    by_cases hfirst : first = name
    · subst hfirst
      by_cases h : other = first
      · simp [putEntry, h]
      · simp [putEntry, List.lookup_cons, h, beq_eq_false_iff_ne.mpr h]
    · by_cases h : other = first
      · subst h
        simp [putEntry, hfirst]
      · simp [putEntry, List.lookup_cons, hfirst, ih, beq_eq_false_iff_ne.mpr h]

/-- The variables of an evaluation: names with their values, no name twice. -/
structure Variables where
  entries : List (String × Value) := []
  distinct : (entries.map Prod.fst).Nodup := by simp

namespace Variables

/-- The names in the order in which they were first used. -/
def names (vars : Variables) : List String := vars.entries.map Prod.fst

/-- The number of variables. -/
def size (vars : Variables) : Nat := vars.entries.length

/-- Whether there is a variable of a name. -/
def contains (vars : Variables) (name : String) : Bool := (vars.entries.lookup name).isSome

/-- Gives a name a value. -/
def put (vars : Variables) (name : String) (v : Value) : Variables :=
  ⟨putEntry name v vars.entries, nodup_putEntry name v vars.entries vars.distinct⟩

theorem names_put (vars : Variables) (name : String) (v : Value) :
    (vars.put name v).names =
      if name ∈ vars.names then vars.names else vars.names ++ [name] :=
  map_fst_putEntry name v vars.entries

/-- The value at a place. -/
def get (vars : Variables) (p : Place) : Except EvalError Value :=
  match vars.entries.lookup p.name with
  | none => .error (.undefinedVariable p.name)
  | some v => (v.follow p.indices).mapError fun e => e.inVariable p.name

/-- The variables with the value at a place set.  A place without indices is made if there is none;
an element can only be replaced. -/
def set (vars : Variables) (p : Place) (v : Value) : Except EvalError Variables :=
  match p.indices with
  | [] => .ok (vars.put p.name v)
  | path =>
    match vars.entries.lookup p.name with
    | none => .error (.undefinedVariable p.name)
    | some whole =>
      match whole.replace path v with
      | .error e => .error (e.inVariable p.name)
      | .ok whole' => .ok (vars.put p.name whole')

/-- Sets the value at a place and records the assignment.  The record spells out the value, so an
integer with too many digits is a fault, after the value has been set. -/
def assign (p : Place) (v : Value) : EStateM Fault Variables Unit := fun vars =>
  match vars.set p v with
  | .error e => .error e.fault vars
  | .ok vars' => if v.isWritable then .ok () vars' else .error .numeralTooLong vars'

end Variables

end DiceNotation
