/-
# What can be wrong with the form of an expression

Each error names the token it arose at.  Only `malformed` blames the text of a token; all the
others blame its place.
-/
import DiceNotation.Token

namespace DiceNotation

/-- The reasons for which a sequence of tokens is no expression. -/
inductive SyntaxError where
  /-- A malformed piece of text. -/
  | malformed (piece : String)
  /-- A token that cannot stand behind what has been read. -/
  | unexpected (found : Token)
  /-- A token in place of the operator that closes a construct. -/
  | expected (wanted : Op) (found : Token)
  /-- An operator that cannot stand in front of an operand. -/
  | notUnary (o : Op)
  /-- The end of the input in place of an operand. -/
  | incomplete
  /-- More levels of nesting than are read. -/
  | tooDeep
deriving DecidableEq, Repr, Inhabited

/-- The wording of a syntax error. -/
def SyntaxError.message : SyntaxError → String
  | malformed piece => s!"invalid input `{piece}`"
  | unexpected found => s!"unexpected token `{found.text}`"
  | expected wanted found => s!"expected `{wanted.text}` but got `{found.text}`"
  | notUnary o => s!"invalid prefix operator `{o.text}`"
  | incomplete => "incomplete expression"
  | tooDeep => "expression is nested too deeply"

/-- The error for a token that cannot stand where it does: a malformed piece is blamed for its
text, any other token for its place. -/
def Token.misplaced : Token → SyntaxError
  | .malformed piece => .malformed piece
  | .stray c => .malformed (toString c)
  | t => .unexpected t

end DiceNotation
