/-
# Descriptions

An expression written back with every construct in parentheses, so that it shows how the powers of
its operators were understood.  Nothing is evaluated: `describe` succeeds on every text that is an
expression.
-/
import DiceNotation.Grammar.Reading

namespace DiceNotation

/-- The actions that write what is read, fully parenthesised.  A sequence is written without
parentheses, and an array literal and an index have their brackets. -/
def Actions.description : Actions Id String where
  literal t := t.text
  binary left right o :=
    match o with
    | .semicolon => s!"{left}; {right}"
    | .comma => s!"({left}, {right})"
    | o => s!"({left} {o.text} {right})"
  unary inner o := s!"({o.text}{inner})"
  suffix inner o := s!"({inner}{o.text})"
  dice num sides :=
    match num with
    | none => s!"(d{sides})"
    | some num => s!"({num}d{sides})"
  keep k target amount := s!"({target}{k.text}{amount})"
  explode target faces := s!"({target}!({faces})!)"
  array items := "[" ++ ", ".intercalate items ++ "]"
  index target position := s!"{target}[{position}]"

/-- The description of a text that is read down to `depth` levels. -/
def describe (depth : Nat) (text : String) : Except SyntaxError String :=
  (Actions.description.readText depth text).run

end DiceNotation
