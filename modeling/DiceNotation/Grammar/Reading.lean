/-
# Reading an expression

An operand is a **primary** (a literal, a group, an array literal, or an operator or `d` in front of
another operand) followed by extensions, each as strong as the operand demands.  Reading it goes
through the tokens once and calls one action for every construct, as soon as its parts have been
read: what stands left of an error has had its effects when the error is found.

Nesting is bounded: `operand` gets the number of levels that are left, and gives up at none.  How
many there are in all is up to the surroundings, which have to hold the levels.
Within a level the recursion follows the weight of the remaining tokens, and every part that is read
hands on the remaining tokens together with the proof that they weigh less.
-/
import DiceNotation.Token.Lexer
import DiceNotation.Grammar.SyntaxError
import DiceNotation.Grammar.Actions

namespace DiceNotation

/-! ## 1. The weight of tokens -/

/-- A token counts as one, `)!` as two: a group may use up its first half alone. -/
def Token.weight : Token → Nat
  | .op .parenBang => 2
  | _ => 1

theorem Token.weight_pos (t : Token) : 0 < t.weight := by
  unfold Token.weight
  split <;> decide

/-- The weight of a list of tokens. -/
def weight : List Token → Nat
  | [] => 0
  | t :: rest => t.weight + weight rest

@[simp] theorem weight_nil : weight [] = 0 := rfl

@[simp] theorem weight_cons (t : Token) (rest : List Token) :
    weight (t :: rest) = t.weight + weight rest := rfl

theorem weight_lt_cons (t : Token) (rest : List Token) : weight rest < weight (t :: rest) := by
  have := t.weight_pos
  simp only [weight_cons]
  omega

/-- What has been read, and the tokens behind it, which weigh less than `bound`. -/
structure Reading (α : Type) (bound : Nat) where
  value : α
  rest : List Token
  lighter : weight rest < bound

/-- The token at the front; behind the last token stands the end mark. -/
def frontToken : List Token → Token
  | [] => .endOfInput
  | t :: _ => t

/-! ## 2. Single operators -/

/-- Passes over the operator `wanted`. -/
def passOver (wanted : Op) (tokens : List Token) :
    Except SyntaxError (Reading Unit (weight tokens)) :=
  match tokens with
  | [] => .error (.expected wanted .endOfInput)
  | t :: rest =>
    if t = .op wanted then .ok ⟨(), rest, weight_lt_cons t rest⟩
    else .error (.expected wanted t)

/-- Passes over the end of a group.  Of the token `)!` only the first half closes the group, and
the second half stays in front of the rest. -/
def passGroupEnd (tokens : List Token) : Except SyntaxError (Reading Unit (weight tokens)) :=
  match tokens with
  | .op .parenBang :: rest =>
    .ok ⟨(), .op .bang :: rest, by simp [Token.weight]⟩
  | other => passOver .closeParen other

/-- The power with which the operand behind `o` is read, if `o` can stand in front of one. -/
def operandPower (o : Op) : Except SyntaxError Nat :=
  match o.unaryPower? with
  | some power => .ok power
  | none => .error (.notUnary o)

/-! ## 3. The parts of an operand -/

section Parts

variable {m : Type → Type} [Monad m] {α : Type}

/-- Reads an operand of a least power off the front of some tokens. -/
abbrev OperandReader (m : Type → Type) (α : Type) : Type :=
  (power : Nat) → (tokens : List Token) → ExceptT SyntaxError m (Reading α (weight tokens))

/-- The elements of an array literal, up to and with the closing bracket.  There is at least one;
a comma behind the last one is allowed. -/
def readElements (operand : OperandReader m α) (tokens : List Token) :
    ExceptT SyntaxError m (Reading (List α) (weight tokens)) := do
  let first ← operand elementPower tokens
  have hfirst := first.lighter
  match hrest : first.rest with
  | .op .closeBracket :: rest =>
    return ⟨[first.value], rest, by simp [hrest, Token.weight] at hfirst; omega⟩
  | .op .comma :: .op .closeBracket :: rest =>
    return ⟨[first.value], rest, by simp [hrest, Token.weight] at hfirst; omega⟩
  | .op .comma :: rest =>
    let more ← readElements operand rest
    have hmore := more.lighter
    return ⟨first.value :: more.value, more.rest, by simp [hrest, Token.weight] at hfirst; omega⟩
  | other => throw (.expected .comma (frontToken other))
termination_by weight tokens
decreasing_by simp [hrest, Token.weight] at hfirst; omega

/-- The part of an operand in front of its extensions. -/
def readPrimary (acts : Actions m α) (operand : OperandReader m α) (tokens : List Token) :
    ExceptT SyntaxError m (Reading α (weight tokens)) :=
  match tokens with
  | [] => throw .incomplete
  | .endOfInput :: _ => throw .incomplete
  | .malformed piece :: _ => throw (Token.malformed piece).misplaced
  | .stray c :: _ => throw (Token.stray c).misplaced
  | .op .openBracket :: .op .closeBracket :: rest => do
    let value ← acts.array []
    return ⟨value, rest, by simp [Token.weight]; omega⟩
  | .op .openBracket :: rest => do
    let items ← readElements operand rest
    have hitems := items.lighter
    let value ← acts.array items.value
    return ⟨value, items.rest, by simp; omega⟩
  | .op .openParen :: rest => do
    let inner ← operand 0 rest
    let closed ← passGroupEnd inner.rest
    have hinner := inner.lighter
    have hclosed := closed.lighter
    return ⟨inner.value, closed.rest, by simp; omega⟩
  | .op o :: rest => do
    let power ← operandPower o
    let inner ← operand power rest
    have hinner := inner.lighter
    let value ← acts.unary inner.value o
    return ⟨value, inner.rest, by simp; omega⟩
  | .word name :: rest =>
    if name = dieWord then do
      let sides ← operand sidesPower rest
      have hsides := sides.lighter
      let value ← acts.dice none sides.value
      return ⟨value, sides.rest, by simp; omega⟩
    else do
      let value ← acts.literal (.word name)
      return ⟨value, rest, weight_lt_cons _ rest⟩
  | t :: rest => do
    let value ← acts.literal t
    return ⟨value, rest, weight_lt_cons t rest⟩

/-- Makes a larger operand of `left`, given the tokens behind the one that starts the
extension. -/
def readExtension (acts : Actions m α) (operand : OperandReader m α) (left : α) (e : Extension)
    (tokens : List Token) : ExceptT SyntaxError m (Reading α (weight tokens + 1)) :=
  match e with
  | .suffix o => do
    let value ← acts.suffix left o
    return ⟨value, tokens, by omega⟩
  | .explode => do
    let inner ← operand 0 tokens
    let closed ← passOver .parenBang inner.rest
    have hinner := inner.lighter
    have hclosed := closed.lighter
    let value ← acts.explode left inner.value
    return ⟨value, closed.rest, by omega⟩
  | .index => do
    let inner ← operand 0 tokens
    let closed ← passOver .closeBracket inner.rest
    have hinner := inner.lighter
    have hclosed := closed.lighter
    let value ← acts.index left inner.value
    return ⟨value, closed.rest, by omega⟩
  | .binary o _ power => do
    let right ← operand power tokens
    have hright := right.lighter
    let value ← acts.binary left right.value o
    return ⟨value, right.rest, by omega⟩
  | .dice => do
    let sides ← operand sidesPower tokens
    have hsides := sides.lighter
    let value ← acts.dice (some left) sides.value
    return ⟨value, sides.rest, by omega⟩
  | .keep k => do
    let amount ← operand keepPower tokens
    have hamount := amount.lighter
    let value ← acts.keep k left amount.value
    return ⟨value, amount.rest, by omega⟩

/-- The tokens that may stand behind an operand without extending it. -/
def Token.endsOperand : Token → Bool
  | .op _ => true
  | .endOfInput => true
  | _ => false

/-- Extends `left` as long as the next token starts an extension of at least the power `power`. -/
def readExtensions (acts : Actions m α) (operand : OperandReader m α) (power : Nat) {bound : Nat}
    (left : Reading α bound) : ExceptT SyntaxError m (Reading α bound) :=
  match hrest : left.rest with
  | [] => return left
  | t :: rest =>
    match t.extension? with
    | none => if t.endsOperand then return left else throw t.misplaced
    | some e =>
      if power ≤ e.power then do
        have hleft := left.lighter
        have ht := t.weight_pos
        let wider ← readExtension acts operand left.value e rest
        have hwider := wider.lighter
        readExtensions acts operand power
          ⟨wider.value, wider.rest, by simp only [hrest, weight_cons] at hleft; omega⟩
      else return left
termination_by weight left.rest
decreasing_by simp only [hrest, weight_cons]; omega

/-! ## 4. Whole expressions -/

/-- Reads an operand that nests at most `depth` levels deep. -/
def readOperand (acts : Actions m α) : (depth : Nat) → OperandReader m α
  | 0, _, _ => throw .tooDeep
  | depth + 1, power, tokens => do
    let first ← readPrimary acts (readOperand acts depth) tokens
    readExtensions acts (readOperand acts depth) power first

/-- Reads tokens that are one expression and nothing else. -/
def Actions.readTokens (acts : Actions m α) (depth : Nat) (tokens : List Token) :
    ExceptT SyntaxError m α := do
  let whole ← readOperand acts depth 0 tokens
  match frontToken whole.rest with
  | .endOfInput => return whole.value
  | t => throw t.misplaced

/-- Reads a text that is one expression and nothing else, and nests at most `depth` levels deep. -/
def Actions.readText (acts : Actions m α) (depth : Nat) (text : String) : ExceptT SyntaxError m α :=
  acts.readTokens depth (Token.ofText text)

end Parts

end DiceNotation
