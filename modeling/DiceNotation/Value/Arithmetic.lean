/-
# Arithmetic on values

An operation on scalars is carried over to arrays element by element.  A scalar goes with every
element of an array; of two arrays the shorter one is repeated as often as the longer one needs, and
an empty array makes an empty one.  Every element of every array that comes about is paid for with
one step, when it is complete.
-/
import DiceNotation.Value.Order
import DiceNotation.Budget

namespace DiceNotation

/-! ## 1. Repeating a list -/

/-- The first `n` elements of the endless repetition of `all`, going on from `rest`. -/
def cycleFrom {α : Type} (all rest : List α) : (n : Nat) → List α
  | 0 => []
  | n + 1 =>
    match rest with
    | x :: rest => x :: cycleFrom all rest n
    | [] =>
      match all with
      | x :: rest => x :: cycleFrom all rest n
      | [] => []

/-- The first `n` elements of the endless repetition of a list. -/
def cycle {α : Type} (n : Nat) (all : List α) : List α := cycleFrom all all n

namespace Value

/-! ## 2. Element by element -/

/-- Goes through some work in order, one step behind each piece, and collects the results behind
those of `done`, which is in reverse order. -/
def collectOnto (done : List Value) : List (Metered Value) → Metered (List Value)
  | [] => return done.reverse
  | work :: rest => do
    let v ← work
    payStep
    collectOnto (v :: done) rest

/-- Goes through some work in order, one step behind each piece, and collects the results. -/
def collect (works : List (Metered Value)) : Metered (List Value) := collectOnto [] works

mutual

/-- Applies `f` with the scalar `s` on the left to every scalar of a value. -/
def mapRight (f : Scalar → Scalar → Scalar) (s : Scalar) : Value → Metered Value
  | scalar t => return scalar (f s t)
  | array ws => return array (← collect (mapRights f s ws))

/-- The work of `mapRight` for each of some values. -/
def mapRights (f : Scalar → Scalar → Scalar) (s : Scalar) : List Value → List (Metered Value)
  | [] => []
  | w :: ws => mapRight f s w :: mapRights f s ws

end

mutual

/-- Applies `f` with the scalar `t` on the right to every scalar of a value. -/
def mapLeft (f : Scalar → Scalar → Scalar) (t : Scalar) : Value → Metered Value
  | scalar s => return scalar (f s t)
  | array vs => return array (← collect (mapLefts f t vs))

/-- The work of `mapLeft` for each of some values. -/
def mapLefts (f : Scalar → Scalar → Scalar) (t : Scalar) : List Value → List (Metered Value)
  | [] => []
  | v :: vs => mapLeft f t v :: mapLefts f t vs

end

/-- Pairs some functions with some values, the shorter list repeated.  If one of the lists is empty
there are no pairs. -/
def pairUp (fs : List (Value → Metered Value)) (ws : List Value) : List (Metered Value) :=
  if fs.isEmpty || ws.isEmpty then []
  else
    let n := max fs.length ws.length
    List.zipWith (fun f w => f w) (cycle n fs) (cycle n ws)

mutual

/-- Applies `f` to two values element by element. -/
def elementwise (f : Scalar → Scalar → Scalar) : (left right : Value) → Metered Value
  | scalar s, w => mapRight f s w
  | array vs, scalar t => mapLeft f t (array vs)
  | array vs, array ws => return array (← collect (pairUp (partials f vs) ws))

/-- The functions that apply `f` with each of some values on the left. -/
def partials (f : Scalar → Scalar → Scalar) : List Value → List (Value → Metered Value)
  | [] => []
  | v :: vs => elementwise f v :: partials f vs

end

/-! ## 3. The operations -/

/-- The sum of two values. -/
def add : Value → Value → Metered Value := elementwise Scalar.add

/-- The difference of two values. -/
def sub : Value → Value → Metered Value := elementwise Scalar.sub

/-- The product of two values. -/
def mul : Value → Value → Metered Value := elementwise Scalar.mul

/-- The quotient of two values, in floating point numbers. -/
def div : Value → Value → Metered Value := elementwise Scalar.div

/-- Where two values are equal. -/
def eq : Value → Value → Metered Value := elementwise Scalar.eq

/-- Where the left value is less. -/
def lt : Value → Value → Metered Value := elementwise Scalar.lt

/-- Where the left value is greater. -/
def gt : Value → Value → Metered Value := elementwise Scalar.gt

/-- The left value where it is true, else the right one. -/
def or : Value → Value → Metered Value := elementwise Scalar.or

/-- The right value where the left one is true, else the left one. -/
def and : Value → Value → Metered Value := elementwise Scalar.and

mutual

/-- The negative of a value. -/
def neg : Value → Metered Value
  | scalar s => return scalar s.neg
  | array vs => return array (← collect (negs vs))

/-- The work of `neg` for each of some values. -/
def negs : List Value → List (Metered Value)
  | [] => []
  | v :: vs => neg v :: negs vs

end

/-- The sum of some values from left to right; 0 if there are none. -/
def sum : List Value → Metered Value
  | [] => return int 0
  | v :: vs => vs.foldlM add v

end Value

end DiceNotation
