/-
# Sorting values

Where the order of values is consistent, all stable ways to sort agree.  Mixed lists of scalars and
arrays can be ordered in a circle, and then the way matters.  A short list is sorted like this: the
run at its front, ascending or strictly descending, is brought into ascending order, and each
further element is inserted into what is sorted already, at the place that a binary search finds,
behind all elements that are not greater.

A long list is merged from sorted halves.  This is not how it is merged in the program, where runs
are chosen and galloped through in ways that are not copied here.  Where the order is consistent the
outcome is the same; a list of 64 elements or more that can be ordered in a circle may come out in
another order.
-/
import DiceNotation.Value.Order

namespace DiceNotation

namespace Value

/-! ## 1. The run at the front -/

/-- Splits off the elements that go on descending strictly from `last`; they are collected in front
of `run`, so that it ascends. -/
def descendingRun (last : Value) (run : List Value) : List Value → List Value × List Value
  | [] => (run, [])
  | v :: rest => if v.less last then descendingRun v (v :: run) rest else (run, v :: rest)

/-- Splits off the elements that go on ascending, not strictly, from `last`; they are collected in
front of `run`, so that it descends. -/
def ascendingRun (last : Value) (run : List Value) : List Value → List Value × List Value
  | [] => (run, [])
  | v :: rest => if v.less last then (run, v :: rest) else ascendingRun v (v :: run) rest

/-- Splits a list into the longest run at its front, in ascending order, and the rest. -/
def splitRun : List Value → List Value × List Value
  | v :: w :: rest =>
    if w.less v then descendingRun w [w, v] rest
    else
      let (run, rest) := ascendingRun w [w, v] rest
      (run.reverse, rest)
  | short => (short, [])

/-! ## 2. Insertion -/

/-- The place for `v` between `low` and `high` in a sorted list, by halving; `fuel` bounds the
number of halvings. -/
def insertionPlace (v : Value) (sorted : List Value) : (fuel low high : Nat) → Nat
  | 0, low, _ => low
  | fuel + 1, low, high =>
    if low < high then
      let middle := (low + high) / 2
      if v.less (sorted.getD middle v) then insertionPlace v sorted fuel low middle
      else insertionPlace v sorted fuel (middle + 1) high
    else low

/-- A sorted list with `v` inserted. -/
def insertSorted (sorted : List Value) (v : Value) : List Value :=
  let place := insertionPlace v sorted sorted.length 0 sorted.length
  sorted.take place ++ v :: sorted.drop place

/-- The length from which on a list is merged from halves. -/
def longLength : Nat := 64

/-- A list of values in ascending order; equal values keep their order. -/
def sort (values : List Value) : List Value :=
  if values.length < longLength then
    let (run, rest) := splitRun values
    rest.foldl insertSorted run
  else
    values.mergeSort fun v w => !w.less v

end Value

end DiceNotation
