/-
# What reading an expression does

The grammar builds nothing itself.  It reports every construct, as soon as its parts are complete,
to one field of `Actions`, and goes on with the value that it gets back.  What a value is (a tree, a
text, the result of an evaluation) and which effects an action has is up to the actions.
-/
import DiceNotation.Grammar.Power

namespace DiceNotation

/-- One action for each construct of the notation, with values in `α` and effects in `m`. -/
structure Actions (m : Type → Type) (α : Type) where
  /-- A number, name, character or string. -/
  literal : Token → m α
  /-- An operator between two operands. -/
  binary : α → α → Op → m α
  /-- An operator in front of its operand. -/
  unary : α → Op → m α
  /-- An operator behind its operand. -/
  suffix : α → Op → m α
  /-- Dice: how many, unless the text leaves that out, and their sides. -/
  dice : Option α → α → m α
  /-- A keep: of what, and how much. -/
  keep : Keep → α → α → m α
  /-- Explosion: of what, and on which faces. -/
  explode : α → α → m α
  /-- An array literal. -/
  array : List α → m α
  /-- An index: into what, and which. -/
  index : α → α → m α

/-- The constructs of the notation, one for each action. -/
inductive Construct where
  | literal
  | binary
  | unary
  | suffix
  | dice
  | keep (k : Keep)
  | explode
  | array
  | index
deriving DecidableEq, Repr

namespace Construct

/-- The name of a construct in messages. -/
def name : Construct → String
  | literal => "Literal"
  | binary => "Infix"
  | unary => "Prefix"
  | suffix => "Suffix"
  | dice => "Dice"
  | keep .highest => "Keep-highest"
  | keep .lowest => "Keep-lowest"
  | explode => "Explode"
  | array => "Array"
  | index => "Index"

/-- The complaint about a construct for which no action is defined. -/
def undefinedMessage (c : Construct) : String :=
  s!"{c.name} behavior is missing."

end Construct

/-- Actions that all do the same: report their construct. -/
def Actions.report {m : Type → Type} {α : Type} (effect : Construct → m α) : Actions m α where
  literal _ := effect .literal
  binary _ _ _ := effect .binary
  unary _ _ := effect .unary
  suffix _ _ := effect .suffix
  dice _ _ := effect .dice
  keep k _ _ := effect (.keep k)
  explode _ _ := effect .explode
  array _ := effect .array
  index _ _ := effect .index

end DiceNotation
