/-
# The order of values

Scalars compare by their quantities.  Arrays compare by length, and arrays of one length by their
first elements that differ.  A scalar compares with an array as with the first scalar of the array,
and if the array has none, the left operand is the greater one, whichever it is.
-/
import DiceNotation.Value
import DiceNotation.Scalar.Quantity

namespace DiceNotation

namespace Value

mutual

/-- The order of values. -/
def compare : Value → Value → Ordering
  | scalar s, w =>
    match w.lead? with
    | some t => s.compare t
    | none => .gt
  | array vs, scalar t =>
    match (array vs).lead? with
    | some s => s.compare t
    | none => .gt
  | array vs, array ws => (Ord.compare vs.length ws.length).then (compareItems vs ws)

/-- The order of lists of one length: that of the first elements that differ. -/
def compareItems : List Value → List Value → Ordering
  | v :: vs, w :: ws => (compare v w).then (compareItems vs ws)
  | _, _ => .eq

end

/-- Whether two values count as equal. -/
def equiv (v w : Value) : Bool := v.compare w == .eq

/-- Whether the left value is less. -/
def less (v w : Value) : Bool := v.compare w == .lt

/-- The first of the greatest values of a list that starts with `best`. -/
def greatest (best : Value) (others : List Value) : Value :=
  others.foldl (fun best v => if v.compare best == .gt then v else best) best

end Value

end DiceNotation
