/-
# The tree of an expression

What an expression consists of, with nothing evaluated.  Groups leave no node: the nesting of the
tree says what they said.
-/
import DiceNotation.Grammar.Reading

namespace DiceNotation

/-- An expression as a tree of its constructs. -/
inductive Tree where
  | literal (t : Token)
  | binary (left right : Tree) (o : Op)
  | unary (inner : Tree) (o : Op)
  | suffix (inner : Tree) (o : Op)
  | dice (num : Option Tree) (sides : Tree)
  | keep (k : Keep) (target amount : Tree)
  | explode (target faces : Tree)
  | array (items : List Tree)
  | index (target position : Tree)
deriving Repr, Inhabited, BEq

/-- The actions that build the tree of what is read. -/
def Actions.tree : Actions Id Tree where
  literal t := .literal t
  binary left right o := .binary left right o
  unary inner o := .unary inner o
  suffix inner o := .suffix inner o
  dice num sides := .dice num sides
  keep k target amount := .keep k target amount
  explode target faces := .explode target faces
  array items := .array items
  index target position := .index target position

/-- The tree of a text that is read down to `depth` levels. -/
def Tree.ofText (depth : Nat) (text : String) : Except SyntaxError Tree :=
  (Actions.tree.readText depth text).run

end DiceNotation
