/-
# What can go wrong in an evaluation

An `EvalError` is the fault of the text that is evaluated: it cannot be read, or it asks for
something that is not defined.  A `Fault` is anything that ends an evaluation: such an error, the
end of the time, the end of the rolls, or an integer too long to be written where it has to be.

Errors are causes; their wording is in `EvalError.message` alone.
-/
import DiceNotation.Grammar.SyntaxError
import DiceNotation.Operand
import DiceNotation.Value.Text

namespace DiceNotation

/-! ## 1. Errors of the text -/

/-- The most dice of a pool, and the most sides of a die. -/
def countLimit : Nat := 65535

/-- What a number in a dice term counts. -/
inductive Counted where
  | dice
  | sides
deriving DecidableEq, Repr

/-- The noun for what is counted. -/
def Counted.text : Counted → String
  | dice => "dice"
  | sides => "sides"

/-- Where an operator stands. -/
inductive OpPosition where
  | between
  | before
  | behind
deriving DecidableEq, Repr

/-- The adjective for the place of an operator. -/
def OpPosition.text : OpPosition → String
  | between => "infix"
  | before => "prefix"
  | behind => "suffix"

/-- The message for an operand that is no integer. -/
def CastError.message : CastError → String
  | fractional x => s!"{(Scalar.real x).text} is not an integer value"
  | array => "cannot cast array to integer"
  | unforced kind => s!"cannot cast {kind.text} to integer"

/-- The errors that a text can be blamed for. -/
inductive EvalError where
  /-- The text is no expression. -/
  | form (e : SyntaxError)
  /-- A token that stands for no value. -/
  | notLiteral (t : Token)
  /-- An operator that has no meaning where it stands. -/
  | meaningless (position : OpPosition) (o : Op)
  | notAssignable (kind : Kind)
  | noLength (kind : Kind)
  | arrayFactorial
  | realFactorial
  | factorial
  /-- A number of dice or sides that is no integer. -/
  | badCount (what : Counted) (cause : CastError)
  | negativeCount (what : Counted)
  | tooMany (what : Counted) (n : Int)
  /-- The amount of a keep that is no integer. -/
  | badAmount (k : Keep) (cause : CastError)
  | negativeAmount (k : Keep) (n : Int)
  | notKeepable (k : Keep) (kind : Kind)
  /-- An array among the elements that `operation` selects from. -/
  | nestedArray (operation : String)
  | notExplodable (kind : Kind)
  /-- An index that is no integer. -/
  | badIndex (cause : CastError)
  /-- A request to sort what is no array. -/
  | notSortable
  | undefinedVariable (name : String)
  /-- An index outside an array of the given length.  `path` is the index path up to it, and `name`
  the variable, unless the array is none. -/
  | outOfBounds (name : Option String) (path : List Int) (length : Nat)
  /-- An index into what is no array. -/
  | notIndexable (name : Option String) (path : List Int)
deriving DecidableEq

/-- The kinds of error that callers tell apart. -/
inductive ErrorCategory where
  /-- A malformed token. -/
  | malformed
  /-- Tokens, or their use, that make no expression. -/
  | grammar
  /-- An operand of the wrong kind. -/
  | type
  /-- A number outside what is accepted. -/
  | range
  | undefinedVariable
  | outOfBounds
  | notIndexable
deriving DecidableEq, Repr

/-- The text of an index path and what it starts from. -/
def pathFrom (name : Option String) (path : List Int) : String :=
  name.getD "<array>" ++ pathText path

namespace EvalError

/-- The wording of an error. -/
def message : EvalError → String
  | form e => e.message
  | notLiteral t => s!"invalid literal `{t.text}`"
  | meaningless position o => s!"invalid {position.text} operator `{o.text}`"
  | notAssignable kind => s!"cannot assign to {kind.text}"
  | noLength kind => s!"cannot take the length of {kind.text}"
  | arrayFactorial => "the operator `!` is not defined on arrays yet"
  | realFactorial => "floating point factorial isn't implemented yet"
  | factorial => "factorial isn't implemented yet"
  | badCount what cause => s!"invalid number of {what.text}: {cause.message}"
  | negativeCount what => s!"invalid number of {what.text}: negative number of {what.text}"
  | tooMany what n => s!"too many {what.text}: {n} > {countLimit}"
  | badAmount k cause => s!"invalid {k.operation} criterion: {cause.message}"
  | negativeAmount k n => s!"invalid {k.operation} criterion: is negative {n}"
  | notKeepable k kind => s!"{k.operation} operation is invalid on {kind.text}"
  | nestedArray operation => s!"cannot perform {operation} operation on nested array"
  | notExplodable kind => s!"cannot explode {kind.text}"
  | badIndex cause => cause.message
  | notSortable => "sort given not-array"
  | undefinedVariable name => s!"undefined variable `{name}`"
  | outOfBounds name path length =>
    s!"index out of bounds: `{pathFrom name path}` (length {length})"
  | notIndexable name path => s!"cannot index into non-array: `{pathFrom name path}`"

/-- The integers that the message of an error spells out. -/
def numerals : EvalError → List Int
  | tooMany _ n => [n]
  | negativeAmount _ n => [n]
  | outOfBounds _ path length => (length : Int) :: path
  | notIndexable _ path => path
  | _ => []

/-- The kind of an error. -/
def category : EvalError → ErrorCategory
  | form (.malformed _) => .malformed
  | form _ => .grammar
  | notLiteral _ => .grammar
  | meaningless _ _ => .grammar
  | negativeCount _ => .range
  | tooMany _ _ => .range
  | negativeAmount _ _ => .range
  | undefinedVariable _ => .undefinedVariable
  | outOfBounds _ _ _ => .outOfBounds
  | notIndexable _ _ => .notIndexable
  | _ => .type

end EvalError

/-! ## 2. Faults -/

/-- What ends an evaluation without a result. -/
inductive Fault where
  | error (e : EvalError)
  /-- The time is over; `timeout` is the time that was given, in seconds. -/
  | halted (timeout : Option Float)
  /-- An integer has more digits than are written. -/
  | numeralTooLong
  /-- The source of rolls has come to its end. -/
  | rollsExhausted
deriving DecidableEq

/-- The message of an evaluation whose time is over. -/
def haltedMessage : (timeout : Option Float) → String
  | none => "evaluation exceeded its time budget, execution halted"
  | some timeout =>
    let duration := Layout.brief.write (timeout * 1000)
    s!"evaluation exceeded max duration of {duration} milliseconds, execution halted"

/-- The fault of an error.  If its message would spell out an integer with too many digits, that is
what is wrong. -/
def EvalError.fault (e : EvalError) : Fault :=
  if e.numerals.all isWritable then .error e else .numeralTooLong

end DiceNotation
