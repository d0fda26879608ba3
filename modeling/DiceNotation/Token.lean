/-
# Tokens of a dice expression

The words of the notation: operators, numbers, names, character and string literals, and the two
kinds of malformed piece that a text can hold.  A malformed piece is a token like any other, so
that it is the grammar that decides where it does harm.

Every token has a written form, `Token.text`, which is what messages and descriptions show.
-/

namespace DiceNotation

/-! ## 1. Operators -/

/-- An operator of the notation.  `bangParen` and `parenBang` enclose the faces on which a die
explodes; each is one operator with a spelling of two characters. -/
inductive Op where
  | plus
  | minus
  | star
  | slash
  | percent
  | openParen
  | closeParen
  | openBracket
  | closeBracket
  | bang
  | bangParen
  | parenBang
  | comma
  | semicolon
  | assign
  | equal
  | less
  | greater
  | or
  | and
  | hash
deriving DecidableEq, Repr, Inhabited

namespace Op

/-- Every operator once, in the order in which help texts list them. -/
def all : List Op :=
  [plus, minus, star, slash, percent, openParen, closeParen, openBracket, closeBracket, bang,
    bangParen, parenBang, comma, semicolon, assign, equal, less, greater, or, and, hash]

/-- The spelling of an operator. -/
def text : Op → String
  | plus => "+"
  | minus => "-"
  | star => "*"
  | slash => "/"
  | percent => "%"
  | openParen => "("
  | closeParen => ")"
  | openBracket => "["
  | closeBracket => "]"
  | bang => "!"
  | bangParen => "!("
  | parenBang => ")!"
  | comma => ","
  | semicolon => ";"
  | assign => "="
  | equal => "=="
  | less => "<"
  | greater => ">"
  | or => "||"
  | and => "&&"
  | hash => "#"

/-- The operator with the given spelling. -/
def ofText? (spelling : String) : Option Op :=
  all.find? (·.text == spelling)

theorem mem_all (o : Op) : o ∈ all := by
  cases o <;> decide

theorem ofText?_text (o : Op) : ofText? o.text = some o := by
  cases o <;> decide

/-- The list of operators that a help text shows: each spelling in a code span. -/
def catalogue : String :=
  ", ".intercalate (all.map fun o => s!"`{o.text}`")

end Op

/-! ## 2. Tokens -/

/-- A token of the notation. -/
inductive Token where
  /-- A number without a sign. -/
  | number (n : Nat)
  /-- A run of letters and underscores: a name, or one of the words `d`, `kh` and `kl`. -/
  | word (name : String)
  /-- A character between single quotes. -/
  | char (c : Char)
  /-- A text between double quotes. -/
  | string (content : String)
  | op (o : Op)
  /-- A malformed piece of text: a number that is too large, or a string that is not closed. -/
  | malformed (piece : String)
  /-- A character that starts no token. -/
  | stray (c : Char)
  /-- The mark behind the last token. -/
  | endOfInput
deriving DecidableEq, Repr, Inhabited

namespace Token

/-- The written form of a token. -/
def text : Token → String
  | number n => toString n
  | word name => name
  | char c => s!"'{c}'"
  | string content => s!"\"{content}\""
  | op o => o.text
  | malformed piece => piece
  | stray c => toString c
  | endOfInput => "end of input"

/-- The largest value that a number token can have: the largest number of 64 bits. -/
def maxNumber : Nat := 18446744073709551615

end Token

end DiceNotation
