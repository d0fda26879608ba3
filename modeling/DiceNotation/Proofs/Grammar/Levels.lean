/-
# Levels of nesting to spare

The reader gives up when its levels are used up.  Each part of it reads operands on tokens that
weigh less than those in front of it, so that readers of operands which do the same with these give
the same part (`readPrimary_congr`, `readExtensions_congr`).  By induction it makes no difference to
an operand how many levels there are, as long as there are more than its tokens weigh
(`readOperand_congr_depth`): the bound on nesting is then no part of the algorithm.
-/
import DiceNotation.Proofs.Grammar.Turns

namespace DiceNotation

/-! ## 1. Readers that do the same -/

/-- Two readers do the same with tokens that weigh less than some bound. -/
def OperandReader.Agree {m : Type → Type} {α : Type} (operand operand' : OperandReader m α)
    (bound : Nat) : Prop :=
  ∀ (power : Nat) (tokens : List Token), weight tokens < bound →
    operand power tokens = operand' power tokens

theorem OperandReader.Agree.mono {m : Type → Type} {α : Type} {operand operand' : OperandReader m α}
    {bound bound' : Nat} (h : operand.Agree operand' bound) (hle : bound' ≤ bound) :
    operand.Agree operand' bound' :=
  fun power tokens hlt => h power tokens (Nat.lt_of_lt_of_le hlt hle)

/-! ## 2. The parts of an operand -/

section Nesting

variable {m : Type → Type} [Monad m] {α : Type} {acts : Actions m α}
  {operand operand' : OperandReader m α}

theorem readElements_congr [LawfulMonad m] {tokens : List Token}
    (h : operand.Agree operand' (weight tokens + 1)) :
    readElements operand tokens = readElements operand' tokens := by
  rw [readElements_eq_turns, readElements_eq_turns, elementTurn, elementTurn,
    h elementPower tokens (Nat.lt_succ_self _)]
  refine bind_congr fun step => ?_
  cases step with
  | done last => rfl
  | yield first =>
    have hrest : operand.Agree operand' (weight first.rest + 1) :=
      h.mono (Nat.succ_le_succ (Nat.le_of_lt first.lighter))
    dsimp only
    rw [readElements_congr hrest]
termination_by weight tokens
decreasing_by exact first.lighter

/-- A primary reads operands behind its first token only. -/
theorem readPrimary_congr [LawfulMonad m] (tokens : List Token)
    (h : operand.Agree operand' (weight tokens)) :
    readPrimary acts operand tokens = readPrimary acts operand' tokens := by
  have hinside {t : Token} {rest : List Token} (heq : t :: rest = tokens) (power : Nat) :
      operand power rest = operand' power rest :=
    h power rest (heq ▸ weight_lt_cons t rest)
  cases primaryStart tokens with
  | literal ht rest => rw [readPrimary_literal ht, readPrimary_literal ht]
  | group rest => rw [readPrimary_group, readPrimary_group, hinside rfl]
  | emptyArray rest => rw [readPrimary_emptyArray, readPrimary_emptyArray]
  | array hrest =>
    rw [readPrimary_array hrest, readPrimary_array hrest,
      readElements_congr (h.mono (weight_lt_cons _ _))]
  | unary ho rest => rw [readPrimary_unary ho, readPrimary_unary ho, hinside rfl]
  | die rest => rw [readPrimary_die, readPrimary_die, hinside rfl]
  | fails e _ hfails => rw [hfails, hfails]

theorem readExtension_congr (v : α) (e : Extension) {tokens : List Token}
    (h : operand.Agree operand' (weight tokens + 1)) :
    readExtension acts operand v e tokens = readExtension acts operand' v e tokens := by
  have hinside (power : Nat) := h power tokens (Nat.lt_succ_self _)
  cases e with
  | suffix o => rfl
  | explode | index | binary _ _ _ | dice | keep _ => rw [readExtension, readExtension, hinside]

theorem readExtensions_congr (power : Nat) {bound : Nat} (v : α) {tokens : List Token}
    (hlt : weight tokens < bound) (h : operand.Agree operand' (weight tokens)) :
    readExtensions acts operand power ⟨v, tokens, hlt⟩ =
      readExtensions acts operand' power ⟨v, tokens, hlt⟩ := by
  match tokens with
  | [] => rw [readExtensions_nil, readExtensions_nil]
  | t :: rest =>
    cases ht : t.extension? with
    | none => rw [readExtensions_none hlt ht, readExtensions_none hlt ht]
    | some e =>
      by_cases he : power ≤ e.power
      · rw [readExtensions_some hlt ht he, readExtensions_some hlt ht he,
          readExtension_congr v e (h.mono (weight_lt_cons t rest))]
        refine bind_congr fun wider => ?_
        have hlighter := Nat.lt_of_lt_of_le wider.lighter (weight_lt_cons t rest)
        exact readExtensions_congr power wider.value (wider.lighter_behind hlt)
          (h.mono (Nat.le_of_lt hlighter))
      · have hstops : Stops power (t :: rest) :=
          (stops_cons_of_extension rest ht).mpr (Nat.not_le.mp he)
        rw [readExtensions_of_stops hstops, readExtensions_of_stops hstops]
termination_by weight tokens

/-! ## 3. Operands -/

/-- **Where there are more levels than the tokens weigh, it makes no difference how many.** -/
theorem readOperand_congr_depth [LawfulMonad m] {power depth depth' : Nat} {tokens : List Token}
    (h : weight tokens < depth) (h' : weight tokens < depth') :
    readOperand acts depth power tokens = readOperand acts depth' power tokens := by
  induction depth generalizing power depth' tokens with
  | zero => exact absurd h (Nat.not_lt_zero _)
  | succ depth ih =>
    obtain ⟨depth', rfl⟩ := Nat.exists_eq_succ_of_ne_zero (Nat.ne_zero_of_lt h')
    have hagree : OperandReader.Agree (readOperand acts depth) (readOperand acts depth')
        (weight tokens) := fun power inner hlt => ih (by omega) (by omega)
    rw [readOperand, readOperand, readPrimary_congr tokens hagree]
    refine bind_congr fun first => ?_
    exact readExtensions_congr power first.value first.lighter
      (hagree.mono (Nat.le_of_lt first.lighter))

end Nesting

end DiceNotation
