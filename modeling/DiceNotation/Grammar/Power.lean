/-
# Binding powers

How tightly each construct of the notation binds.  An operand is read with a *least power*: it goes
on as long as the next token starts an **extension** of what has been read whose left power is at
least that.  A right operand is read with the right power of its construct; left associative
operators have a right power one above their left power, and assignment, which associates to the
right, one below.

`Token.extension?` is the table of extensions, `Extension.power` their left powers, and
`Op.unaryPower?` the table of operators that may stand in front of an operand.
-/
import DiceNotation.Token

namespace DiceNotation

/-! ## 1. Keeping rolls -/

/-- Which rolls of a dice term, or which elements of an array, a keep leaves. -/
inductive Keep where
  | highest
  | lowest
deriving DecidableEq, Repr, Inhabited

namespace Keep

/-- The spelling of a keep in descriptions. -/
def text : Keep → String
  | highest => "kh"
  | lowest => "kl"

/-- The name of the operation in messages. -/
def operation : Keep → String
  | highest => "keep-highest"
  | lowest => "keep-lowest"

/-- The spellings that mean a keep where an operand has just been read. -/
def ofWord? (name : String) : Option Keep :=
  if ["KH", "kh", "Kh", "kH", "H", "h", "K"].contains name then some highest
  else if ["KL", "kl", "Kl", "kL", "L", "l"].contains name then some lowest
  else none

end Keep

/-- The word that stands between the number of dice and their sides. -/
def dieWord : String := "d"

/-! ## 2. Powers of operators -/

namespace Op

/-- Left and right power of an operator between two operands. -/
def binaryPowers? : Op → Option (Nat × Nat)
  | semicolon => some (1, 2)
  | assign => some (4, 3)
  | comma => some (5, 6)
  | or => some (7, 8)
  | and => some (7, 8)
  | equal => some (9, 10)
  | less => some (9, 10)
  | greater => some (9, 10)
  | plus => some (13, 14)
  | minus => some (13, 14)
  | star => some (15, 16)
  | slash => some (15, 16)
  | _ => none

/-- Right power of an operator in front of its operand. -/
def unaryPower? : Op → Option Nat
  | comma => some 6
  | plus => some 20
  | minus => some 20
  | hash => some 20
  | _ => none

/-- Left power of an operator behind its operand. -/
def suffixPower? : Op → Option Nat
  | percent => some 20
  | bang => some 30
  | _ => none

end Op

/-- The power with which an element of an array literal is read, so that a comma ends it. -/
def elementPower : Nat := 6

/-- The power with which the sides of a die are read. -/
def sidesPower : Nat := 40

/-- The power with which the amount of a keep is read. -/
def keepPower : Nat := 36

/-! ## 3. Extensions of an operand -/

/-- What may follow an operand and make a larger one of it. -/
inductive Extension where
  /-- An operator behind its operand. -/
  | suffix (o : Op)
  /-- The faces on which a dice term explodes, between `!(` and `)!`. -/
  | explode
  /-- An index between brackets. -/
  | index
  /-- An operator and a right operand, with the left and the right power. -/
  | binary (o : Op) (left right : Nat)
  /-- The word `d` and the sides. -/
  | dice
  /-- A keep and its amount. -/
  | keep (k : Keep)
deriving DecidableEq

/-- The left power of an extension, the tightest first. -/
def Extension.power : Extension → Nat
  | index => 50
  | dice => 39
  | keep _ => 35
  | explode => 20
  | suffix o => o.suffixPower?.getD 0
  | binary _ left _ => left

/-- The extension that an operator starts. -/
def Op.extension? (o : Op) : Option Extension :=
  match o with
  | .percent => some (.suffix .percent)
  | .bang => some (.suffix .bang)
  | .bangParen => some .explode
  | .openBracket => some .index
  | o => o.binaryPowers?.map fun (left, right) => .binary o left right

/-- The extension that a token starts where an operand has just been read. -/
def Token.extension? : Token → Option Extension
  | .op o => o.extension?
  | .word name =>
    if name = dieWord then some .dice else (Keep.ofWord? name).map .keep
  | _ => none

end DiceNotation
