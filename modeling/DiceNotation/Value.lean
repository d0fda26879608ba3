/-
# Values

The result of an evaluation: a scalar, or an array of values of any depth.  Everything in a value is
known; nothing is left to roll or to look up.
-/
import DiceNotation.Scalar

namespace DiceNotation

/-- A scalar or an array. -/
inductive Value where
  | scalar (s : Scalar)
  | array (items : List Value)

instance : Inhabited Value := ⟨.array []⟩

namespace Value

/-- An integer as a value. -/
abbrev int (n : Int) : Value := scalar (.int n)

/-- A floating point number as a value. -/
abbrev real (x : Float) : Value := scalar (.real x)

/-- A character as a value. -/
abbrev char (c : Char) : Value := scalar (.char c)

/-! ## 1. Equality -/

mutual

/-- Decides whether two values are the same. -/
def decEq : (v w : Value) → Decidable (v = w)
  | scalar s, scalar t =>
    if h : s = t then isTrue (h ▸ rfl) else isFalse fun e => h (Value.scalar.inj e)
  | scalar _, array _ => isFalse nofun
  | array _, scalar _ => isFalse nofun
  | array vs, array ws =>
    match decEqs vs ws with
    | isTrue h => isTrue (h ▸ rfl)
    | isFalse h => isFalse fun e => h (Value.array.inj e)

/-- Decides whether two lists of values are the same. -/
def decEqs : (vs ws : List Value) → Decidable (vs = ws)
  | [], [] => isTrue rfl
  | [], _ :: _ => isFalse nofun
  | _ :: _, [] => isFalse nofun
  | v :: vs, w :: ws =>
    match decEq v w, decEqs vs ws with
    | isTrue h, isTrue k => isTrue (h ▸ k ▸ rfl)
    | isFalse h, _ => isFalse fun e => h (List.cons.inj e).1
    | _, isFalse k => isFalse fun e => k (List.cons.inj e).2

end

instance : DecidableEq Value := decEq

/-! ## 2. Simple properties -/

/-- Whether a value is an array. -/
def isArray : Value → Bool
  | scalar _ => false
  | array _ => true

/-- The first scalar of a value: itself, or the first scalar of the first element.  An array that is
empty, or whose first element has none, has none. -/
def lead? : Value → Option Scalar
  | scalar s => some s
  | array [] => none
  | array (v :: _) => lead? v

/-- An array is true if it has elements. -/
def holds : Value → Bool
  | scalar s => s.holds
  | array items => !items.isEmpty

end Value

end DiceNotation
