/-
# Keeping elements of an array

A keep of an array forces its elements from left to right, drops those that are not a number, and
leaves the greatest or the least in their original order.  Of equal elements the earlier ones are
kept.  The elements have to be scalars.
-/
import DiceNotation.Session

namespace DiceNotation

/-- Whether `a` is kept rather than `b` if only one of them can be, and `a` is the earlier one. -/
def Keep.prefers (k : Keep) (a b : Scalar) : Bool :=
  match k with
  | .highest => a.compare b != .lt
  | .lowest => a.compare b != .gt

/-- The `n` elements of a list that a keep prefers, in their original order. -/
def Keep.select (k : Keep) (n : Nat) (xs : List Scalar) : List Scalar :=
  let ranked := xs.zipIdx.mergeSort fun a b => k.prefers a.1 b.1
  ((ranked.take n).mergeSort fun a b => a.2 ≤ b.2).map Prod.fst

/-- Forces operands from left to right into scalars behind those of `done`, which is in reverse
order.  What is not a number is dropped, and an array is an error. -/
def forceScalars (operation : String) (done : List Scalar) :
    List Operand → Evaluating (List Scalar)
  | [] => return done.reverse
  | x :: xs => do
    match ← x.force with
    | .scalar s => forceScalars operation (if s.isNaN then done else s :: done) xs
    | _ => fail (.nestedArray operation)

/-- The elements of an array that a keep of `amount` leaves. -/
def keepItems (items : List Operand) (amount : Int) (k : Keep) (operation : String) :
    Evaluating (List Operand) := do
  let scalars ← forceScalars operation [] items
  return (k.select amount.toNat scalars).map .scalar

end DiceNotation
