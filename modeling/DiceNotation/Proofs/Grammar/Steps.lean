/-
# The steps of the reader

One equation for each way in which a part of the reader can go on: what `readPrimary`,
`readElements` and `readExtensions` do at the tokens in front of them, given what the operands
inside come to.  The laws of the reader are derived from these equations, and no other proof unfolds
it.
-/
import DiceNotation.Grammar.Reading
import DiceNotation.Proofs.Grammar.Phrase

namespace DiceNotation

variable {m : Type → Type} [Monad m] {α : Type} {acts : Actions m α} {operand : OperandReader m α}

@[simp] theorem liftM_except_ok {β : Type} (x : β) :
    (liftM (Except.ok x : Except SyntaxError β) : ExceptT SyntaxError m β) = pure x := rfl

@[simp] theorem liftM_except_error {β : Type} (e : SyntaxError) :
    (liftM (Except.error e : Except SyntaxError β) : ExceptT SyntaxError m β) = throw e := rfl

/-! ## 1. Primaries -/

theorem readPrimary_literal {t : Token} {rest : List Token} (ht : t.isLiteral = true) :
    readPrimary acts operand (t :: rest) = do
      let value ← acts.literal t
      return ⟨value, rest, weight_lt_cons t rest⟩ := by
  cases t with
  | number n => rw [readPrimary] <;> simp
  | word name =>
    have hn : name ≠ dieWord := by simpa [Token.isLiteral] using ht
    rw [readPrimary, if_neg hn]
  | char c => rw [readPrimary] <;> simp
  | string content => rw [readPrimary] <;> simp
  | op o => simp [Token.isLiteral] at ht
  | malformed piece => simp [Token.isLiteral] at ht
  | stray c => simp [Token.isLiteral] at ht
  | endOfInput => simp [Token.isLiteral] at ht

theorem readPrimary_group (rest : List Token) :
    readPrimary acts operand (.op .openParen :: rest) = do
      let inner ← operand 0 rest
      let closed ← passGroupEnd inner.rest
      return ⟨inner.value, closed.rest,
        Nat.lt_trans (Nat.lt_trans closed.lighter inner.lighter) (weight_lt_cons _ rest)⟩ := by
  rw [readPrimary]

theorem readPrimary_emptyArray (rest : List Token) :
    readPrimary acts operand (.op .openBracket :: .op .closeBracket :: rest) = do
      let value ← acts.array []
      return ⟨value, rest, Nat.lt_trans (weight_lt_cons _ rest) (weight_lt_cons _ _)⟩ := by
  rw [readPrimary]

theorem readPrimary_array {rest : List Token} (hrest : ∀ r, rest ≠ .op .closeBracket :: r) :
    readPrimary acts operand (.op .openBracket :: rest) = do
      let items ← readElements operand rest
      let value ← acts.array items.value
      return ⟨value, items.rest, Nat.lt_trans items.lighter (weight_lt_cons _ rest)⟩ := by
  rw [readPrimary]
  exact hrest

theorem readPrimary_unary [LawfulMonad m] {o : Op} {r : Nat} {rest : List Token}
    (ho : o.unaryPower? = some r) :
    readPrimary acts operand (.op o :: rest) = do
      let inner ← operand r rest
      let value ← acts.unary inner.value o
      return ⟨value, inner.rest, Nat.lt_trans inner.lighter (weight_lt_cons _ rest)⟩ := by
  have hbracket : o ≠ .openBracket := by rintro rfl; simp [Op.unaryPower?] at ho
  have hparen : o ≠ .openParen := by rintro rfl; simp [Op.unaryPower?] at ho
  have hpower : operandPower o = .ok r := by simp [operandPower, ho]
  rw [readPrimary, hpower]
  · simp
  · exact fun _ _ => hbracket
  · exact hbracket
  · exact hparen

theorem readPrimary_notUnary [LawfulMonad m] {o : Op} {rest : List Token}
    (hbracket : o ≠ .openBracket) (hparen : o ≠ .openParen) (ho : o.unaryPower? = none) :
    readPrimary acts operand (.op o :: rest) = throw (.notUnary o) := by
  have hpower : operandPower o = .error (.notUnary o) := by simp [operandPower, ho]
  rw [readPrimary, hpower]
  · simp
  · exact fun _ _ => hbracket
  · exact hbracket
  · exact hparen

theorem readPrimary_die (rest : List Token) :
    readPrimary acts operand (.word dieWord :: rest) = do
      let sides ← operand sidesPower rest
      let value ← acts.dice none sides.value
      return ⟨value, sides.rest, Nat.lt_trans sides.lighter (weight_lt_cons _ rest)⟩ := by
  rw [readPrimary, if_pos rfl]

/-- The ways in which a primary can begin, one for each of the equations above, or with a token at
which it fails whatever the actions are. -/
inductive PrimaryStart : List Token → Prop where
  | literal {t : Token} (ht : t.isLiteral = true) (rest : List Token) : PrimaryStart (t :: rest)
  | group (rest : List Token) : PrimaryStart (.op .openParen :: rest)
  | emptyArray (rest : List Token) : PrimaryStart (.op .openBracket :: .op .closeBracket :: rest)
  | array {rest : List Token} (hrest : ∀ r, rest ≠ .op .closeBracket :: r) :
      PrimaryStart (.op .openBracket :: rest)
  | unary {o : Op} {r : Nat} (ho : o.unaryPower? = some r) (rest : List Token) :
      PrimaryStart (.op o :: rest)
  | die (rest : List Token) : PrimaryStart (.word dieWord :: rest)
  | fails {tokens : List Token} (e : SyntaxError) (hdeep : e ≠ .tooDeep)
      (hfails : ∀ (m : Type → Type) [Monad m] [LawfulMonad m] (α : Type) (acts : Actions m α)
        (operand : OperandReader m α), readPrimary acts operand tokens = throw e) :
      PrimaryStart tokens

/-- The first token of a primary decides of which kind it is. -/
theorem primaryStart : (tokens : List Token) → PrimaryStart tokens
  | [] => .fails .incomplete (by simp) fun m _ _ α acts operand => by rw [readPrimary]
  | .number _ :: rest => .literal rfl rest
  | .char _ :: rest => .literal rfl rest
  | .string _ :: rest => .literal rfl rest
  | .malformed piece :: _ =>
    .fails (.malformed piece) (by simp) fun m _ _ α acts operand => by rw [readPrimary]; rfl
  | .stray c :: _ =>
    .fails (.malformed (toString c)) (by simp) fun m _ _ α acts operand => by rw [readPrimary]; rfl
  | .endOfInput :: _ =>
    .fails .incomplete (by simp) fun m _ _ α acts operand => by rw [readPrimary]
  | .word name :: rest => by
    by_cases hname : name = dieWord
    · subst hname
      exact .die rest
    · exact .literal (by simpa [Token.isLiteral] using hname) rest
  | .op o :: rest => by
    by_cases hbracket : o = .openBracket
    · subst hbracket
      by_cases hempty : ∃ rest', rest = .op .closeBracket :: rest'
      · obtain ⟨rest', rfl⟩ := hempty
        exact .emptyArray rest'
      · exact .array fun r hr => hempty ⟨r, hr⟩
    by_cases hparen : o = .openParen
    · subst hparen
      exact .group rest
    cases ho : o.unaryPower? with
    | some r => exact .unary ho rest
    | none =>
      exact .fails (.notUnary o) (by simp) fun m _ _ α acts operand =>
        readPrimary_notUnary hbracket hparen ho

/-! ## 2. The ends of brackets -/

theorem passOver_self (o : Op) (rest : List Token) :
    passOver o (.op o :: rest) = .ok ⟨(), rest, weight_lt_cons _ rest⟩ := by
  simp [passOver]

theorem passGroupEnd_closeParen (rest : List Token) :
    passGroupEnd (.op .closeParen :: rest) = .ok ⟨(), rest, weight_lt_cons _ rest⟩ := by
  simp [passGroupEnd, passOver]

/-- The second half of `)!` weighs less than the whole. -/
theorem weight_bang_lt (rest : List Token) :
    weight (.op .bang :: rest) < weight (.op .parenBang :: rest) :=
  Nat.add_lt_add_right (Nat.lt_succ_self 1) _

theorem passGroupEnd_parenBang (rest : List Token) :
    passGroupEnd (.op .parenBang :: rest) = .ok ⟨(), .op .bang :: rest, weight_bang_lt rest⟩ :=
  rfl

/-! ## 3. Elements

What follows on the first element decides how the array literal goes on. -/

section Elements

variable [LawfulMonad m] {tokens rest : List Token} {x : ExceptT SyntaxError m α}

theorem readElements_close {h : weight (.op .closeBracket :: rest) < weight tokens}
    (hx : operand elementPower tokens = do
      let v ← x
      return ⟨v, .op .closeBracket :: rest, h⟩) :
    readElements operand tokens = do
      let v ← x
      return ⟨[v], rest, Nat.lt_trans (weight_lt_cons _ rest) h⟩ := by
  rw [readElements, hx]
  simp

theorem readElements_comma_close
    {h : weight (.op .comma :: .op .closeBracket :: rest) < weight tokens}
    (hx : operand elementPower tokens = do
      let v ← x
      return ⟨v, .op .comma :: .op .closeBracket :: rest, h⟩) :
    readElements operand tokens = do
      let v ← x
      return ⟨[v], rest,
        Nat.lt_trans (Nat.lt_trans (weight_lt_cons _ rest) (weight_lt_cons _ _)) h⟩ := by
  rw [readElements, hx]
  simp

theorem readElements_comma {h : weight (.op .comma :: rest) < weight tokens}
    (hx : operand elementPower tokens = do
      let v ← x
      return ⟨v, .op .comma :: rest, h⟩)
    (hrest : ∀ r, rest ≠ .op .closeBracket :: r) :
    readElements operand tokens = do
      let v ← x
      let more ← readElements operand rest
      return ⟨v :: more.value, more.rest,
        Nat.lt_trans (Nat.lt_trans more.lighter (weight_lt_cons _ rest)) h⟩ := by
  rw [readElements, hx]
  simp

theorem readElements_fails {h : weight rest < weight tokens}
    (hx : operand elementPower tokens = do
      let v ← x
      return ⟨v, rest, h⟩)
    (hclose : ∀ r, rest ≠ .op .closeBracket :: r) (hcomma : ∀ r, rest ≠ .op .comma :: r) :
    readElements operand tokens = (do
      let _ ← x
      throw (.expected .comma (frontToken rest))) := by
  rw [readElements, hx]
  simp only [bind_assoc, pure_bind]
  refine bind_congr fun v => ?_
  split
  · exact absurd rfl (hclose _)
  · exact absurd rfl (hcomma _)
  · exact absurd rfl (hcomma _)
  · rfl

theorem readElements_breaks {β : Type} {x : ExceptT SyntaxError m β} {e : SyntaxError}
    (hx : operand elementPower tokens = (do
      let _ ← x
      throw e)) :
    readElements operand tokens = (do
      let _ ← x
      throw e) := by
  rw [readElements, hx]
  simp

end Elements

/-! ## 4. Extensions -/

section Extensions

variable {power bound : Nat} {v : α} {t : Token} {rest : List Token} {e : Extension}

theorem Reading.lighter_behind (wider : Reading α (weight rest + 1))
    (h : weight (t :: rest) < bound) : weight wider.rest < bound := by
  have hwider := wider.lighter
  have ht := t.weight_pos
  simp only [weight_cons] at h
  omega

theorem readExtensions_nil (h : weight [] < bound) :
    readExtensions acts operand power ⟨v, [], h⟩ = pure ⟨v, [], h⟩ := by
  rw [readExtensions]

theorem readExtensions_none (h : weight (t :: rest) < bound) (ht : t.extension? = none) :
    readExtensions acts operand power ⟨v, t :: rest, h⟩ =
      if t.endsOperand then pure ⟨v, t :: rest, h⟩ else throw t.misplaced := by
  rw [readExtensions]
  simp only [ht]

theorem readExtensions_some (h : weight (t :: rest) < bound) (ht : t.extension? = some e)
    (he : power ≤ e.power) :
    readExtensions acts operand power ⟨v, t :: rest, h⟩ = (do
      let wider ← readExtension acts operand v e rest
      readExtensions acts operand power ⟨wider.value, wider.rest, wider.lighter_behind h⟩) := by
  rw [readExtensions]
  simp only [ht, he, if_true]

/-- An operand ends where the tokens go on with nothing that extends it. -/
theorem readExtensions_of_stops {h : weight rest < bound} (hs : Stops power rest) :
    readExtensions acts operand power ⟨v, rest, h⟩ = pure ⟨v, rest, h⟩ := by
  match rest with
  | [] => exact readExtensions_nil h
  | t :: rest =>
    cases ht : t.extension? with
    | none =>
      have hends : t.endsOperand = true := by simpa [Stops, ht] using hs
      rw [readExtensions_none h ht, if_pos hends]
    | some e =>
      have he : ¬ power ≤ e.power := Nat.not_le.mpr ((stops_cons_of_extension rest ht).mp hs)
      rw [readExtensions]
      simp only [ht, he, if_false]

end Extensions

end DiceNotation
