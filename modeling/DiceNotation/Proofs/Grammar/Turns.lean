/-
# Every turn of the reader uses up tokens

The reader goes round in two places: behind an operand, as long as something extends it, and within
an array literal, from one element to the next.  `extensionTurn` and `elementTurn` are single turns
of these loops, and the loops repeat them (`readExtensions_eq_turns`, `readElements_eq_turns`).

An operand that is read has used up at least one token, and so has each turn that goes on
(`Consumes`).  What is used up is words that the tokens spell, so that the token `)!` is used up in
two halves: `)` by the end of a group, and the `!` that is left over by what comes next.
-/
import DiceNotation.Proofs.Effects
import DiceNotation.Proofs.Grammar.Outcome

namespace DiceNotation

/-! ## 1. Using up tokens -/

/-- From `tokens` to `rest` at least one word has been used up. -/
def Consumes (tokens rest : List Token) : Prop :=
  ∃ words, words ≠ [] ∧ Spells words tokens rest

namespace Consumes

variable {tokens mid rest : List Token}

theorem cons (t : Token) (rest : List Token) : Consumes (t :: rest) rest :=
  ⟨[t], List.cons_ne_nil t [], .word .nil⟩

theorem trans (h₁ : Consumes tokens mid) (h₂ : Consumes mid rest) : Consumes tokens rest := by
  obtain ⟨words₁, hne, hspells₁⟩ := h₁
  obtain ⟨words₂, -, hspells₂⟩ := h₂
  exact ⟨words₁ ++ words₂, List.append_ne_nil_of_left_ne_nil hne _, hspells₁.append hspells₂⟩

theorem length_le (h : Consumes tokens rest) : rest.length ≤ tokens.length := by
  obtain ⟨words, -, hspells⟩ := h
  induction hspells with
  | nil => exact Nat.le_refl _
  | word _ ih => exact Nat.le_succ_of_le ih
  | half _ ih => exact ih

end Consumes

theorem consumes_of_passOver {o : Op} {tokens : List Token} {closed : Reading Unit (weight tokens)}
    (h : passOver o tokens = .ok closed) : Consumes tokens closed.rest := by
  rcases passOver_cases o tokens with ⟨rest, rfl⟩ | ⟨e, he⟩
  · rw [passOver_self] at h
    cases h
    exact .cons _ rest
  · cases he.symm.trans h

theorem consumes_of_passGroupEnd {tokens : List Token} {closed : Reading Unit (weight tokens)}
    (h : passGroupEnd tokens = .ok closed) : Consumes tokens closed.rest := by
  rcases passGroupEnd_cases tokens with ⟨closed', hclosed, hspells⟩ | ⟨e, he⟩
  · cases hclosed.symm.trans h
    exact ⟨_, List.cons_ne_nil _ _, hspells⟩
  · cases he.symm.trans h

/-! ## 2. Turns -/

section Turns

variable {m : Type → Type} [Monad m] {α : Type}

/-- A turn behind an operand: it is extended, or the loop ends. -/
def extensionTurn (acts : Actions m α) (operand : OperandReader m α) (power : Nat) {bound : Nat}
    (left : Reading α bound) : ExceptT SyntaxError m (ForInStep (Reading α bound)) :=
  match left with
  | ⟨_, [], _⟩ => return .done left
  | ⟨v, t :: rest, h⟩ =>
    match t.extension? with
    | none => if t.endsOperand then return .done left else throw t.misplaced
    | some e =>
      if power ≤ e.power then do
        let wider ← readExtension acts operand v e rest
        return .yield ⟨wider.value, wider.rest, wider.lighter_behind h⟩
      else return .done left

/-- Passes over what stands behind an element: the end of the array literal, or a comma. -/
def passElementEnd (tokens : List Token) :
    Except SyntaxError (ForInStep (Reading Unit (weight tokens))) :=
  match tokens with
  | .op .closeBracket :: rest => .ok (.done ⟨(), rest, weight_lt_cons _ rest⟩)
  | .op .comma :: .op .closeBracket :: rest =>
    .ok (.done ⟨(), rest, Nat.lt_trans (weight_lt_cons _ rest) (weight_lt_cons _ _)⟩)
  | .op .comma :: rest => .ok (.yield ⟨(), rest, weight_lt_cons _ rest⟩)
  | other => .error (.expected .comma (frontToken other))

/-- A turn within an array literal: an element, and what stands behind it. -/
def elementTurn (operand : OperandReader m α) (tokens : List Token) :
    ExceptT SyntaxError m (ForInStep (Reading α (weight tokens))) := do
  let first ← operand elementPower tokens
  match ← passElementEnd first.rest with
  | .done last => return .done ⟨first.value, last.rest, Nat.lt_trans last.lighter first.lighter⟩
  | .yield next => return .yield ⟨first.value, next.rest, Nat.lt_trans next.lighter first.lighter⟩

variable [LawfulMonad m]

/-- An operand is extended turn by turn. -/
theorem readExtensions_eq_turns (acts : Actions m α) (operand : OperandReader m α) (power : Nat)
    {bound : Nat} (left : Reading α bound) :
    readExtensions acts operand power left = (do
      match ← extensionTurn acts operand power left with
      | .done last => return last
      | .yield next => readExtensions acts operand power next) := by
  obtain ⟨v, tokens, h⟩ := left
  unfold extensionTurn
  match tokens with
  | [] =>
    rw [readExtensions_nil]
    simp
  | t :: rest =>
    cases ht : t.extension? with
    | none =>
      rw [readExtensions_none h ht]
      simp only [ht]
      split <;> simp
    | some e =>
      by_cases he : power ≤ e.power
      · rw [readExtensions_some h ht he]
        simp [ht, he]
      · rw [readExtensions_of_stops ((stops_cons_of_extension rest ht).mpr (Nat.not_le.mp he))]
        simp [ht, he]

/-- An array literal is read turn by turn. -/
theorem readElements_eq_turns (operand : OperandReader m α) (tokens : List Token) :
    readElements operand tokens = (do
      match ← elementTurn operand tokens with
      | .done last => return ⟨[last.value], last.rest, last.lighter⟩
      | .yield first => do
        let more ← readElements operand first.rest
        return ⟨first.value :: more.value, more.rest,
          Nat.lt_trans more.lighter first.lighter⟩) := by
  rw [readElements, elementTurn, bind_assoc]
  refine bind_congr fun first => ?_
  obtain ⟨v, mid, h⟩ := first
  dsimp only
  split <;> simp [passElementEnd, *]

end Turns

/-! ## 3. Each turn uses up tokens -/

section Runs

variable {ε σ α β : Type}

/-- Every operand that is read has used up tokens. -/
def OperandReader.Consuming (operand : OperandReader (EStateM ε σ) α) : Prop :=
  ∀ {power : Nat} {tokens : List Token} {s s' : σ} {read : Reading α (weight tokens)},
    (operand power tokens).run s = .ok (.ok read) s' → Consumes tokens read.rest

/-- **Reading an operand uses up tokens.** -/
theorem consuming_readOperand (acts : Actions (EStateM ε σ) α) (depth : Nat) :
    OperandReader.Consuming (readOperand acts depth) := by
  intro power tokens s s' read h
  rcases operandReaders_sound depth power tokens with ⟨p, rest, hp, hlt, hread⟩ | ⟨done, e, hread⟩
  · have hone : readOperand acts depth power tokens = _ := hread (EStateM ε σ) α acts
    rw [hone] at h
    obtain ⟨v, s₁, -, h⟩ := exceptT_bind_eq_ok_iff.mp h
    obtain ⟨rfl, -⟩ := exceptT_pure_eq_ok_iff.mp h
    exact ⟨p.words, p.words_ne_nil, hp.spells⟩
  · have hone : readOperand acts depth power tokens = _ := hread (EStateM ε σ) α acts
    rw [hone] at h
    obtain ⟨_, s₁, -, h⟩ := exceptT_bind_eq_ok_iff.mp h
    cases h

variable {acts : Actions (EStateM ε σ) α} {operand : OperandReader (EStateM ε σ) α}
  {tokens : List Token} {s s' : σ}

/-- An extension uses up the token that starts it. -/
theorem consumes_of_readExtension (consuming : operand.Consuming) (t : Token) {v : α}
    {e : Extension} {wider : Reading α (weight tokens + 1)}
    (h : (readExtension acts operand v e tokens).run s = .ok (.ok wider) s') :
    Consumes (t :: tokens) wider.rest := by
  have hfront := Consumes.cons t tokens
  cases e with
  | suffix o =>
    obtain ⟨w, s₁, -, h⟩ := exceptT_bind_eq_ok_iff.mp h
    obtain ⟨rfl, -⟩ := exceptT_pure_eq_ok_iff.mp h
    exact hfront
  | explode | index =>
    obtain ⟨inner, s₁, hinner, h⟩ := exceptT_bind_eq_ok_iff.mp h
    obtain ⟨closed, s₂, hclosed, h⟩ := exceptT_bind_eq_ok_iff.mp h
    obtain ⟨w, s₃, -, h⟩ := exceptT_bind_eq_ok_iff.mp h
    obtain ⟨rfl, -⟩ := exceptT_pure_eq_ok_iff.mp h
    have hend := consumes_of_passOver (exceptT_liftM_eq_ok_iff.mp hclosed).1
    exact (hfront.trans (consuming hinner)).trans hend
  | binary _ _ _ | dice | keep _ =>
    obtain ⟨inner, s₁, hinner, h⟩ := exceptT_bind_eq_ok_iff.mp h
    obtain ⟨w, s₂, -, h⟩ := exceptT_bind_eq_ok_iff.mp h
    obtain ⟨rfl, -⟩ := exceptT_pure_eq_ok_iff.mp h
    exact hfront.trans (consuming hinner)

/-- **Each turn behind an operand uses up tokens**, unless it ends the loop. -/
theorem consumes_of_extensionTurn (consuming : operand.Consuming) {power bound : Nat}
    {left next : Reading α bound}
    (h : (extensionTurn acts operand power left).run s = .ok (.ok (.yield next)) s') :
    Consumes left.rest next.rest := by
  obtain ⟨v, tokens, hlt⟩ := left
  unfold extensionTurn at h
  match tokens with
  | [] =>
    cases h
  | t :: rest =>
    cases ht : t.extension? with
    | none =>
      simp only [ht] at h
      split at h <;> cases h
    | some e =>
      simp only [ht] at h
      split at h
      · obtain ⟨wider, s₁, hwider, h⟩ := exceptT_bind_eq_ok_iff.mp h
        obtain ⟨heq, -⟩ := exceptT_pure_eq_ok_iff.mp h
        cases heq
        exact consumes_of_readExtension consuming t hwider
      · cases h

/-- What is passed over behind an element is used up. -/
theorem consumes_of_passElementEnd {step : ForInStep (Reading Unit (weight tokens))}
    (h : passElementEnd tokens = .ok step) : Consumes tokens step.value.rest := by
  unfold passElementEnd at h
  split at h
  · cases h
    exact .cons _ _
  · cases h
    exact (Consumes.cons _ _).trans (.cons _ _)
  · cases h
    exact .cons _ _
  · cases h

/-- **Each turn within an array literal uses up tokens.** -/
theorem consumes_of_elementTurn (consuming : operand.Consuming)
    {next : Reading α (weight tokens)}
    (h : (elementTurn operand tokens).run s = .ok (.ok (.yield next)) s') :
    Consumes tokens next.rest := by
  obtain ⟨first, s₁, hfirst, h⟩ := exceptT_bind_eq_ok_iff.mp h
  obtain ⟨step, s₂, hstep, h⟩ := exceptT_bind_eq_ok_iff.mp h
  have hend := consumes_of_passElementEnd (exceptT_liftM_eq_ok_iff.mp hstep).1
  cases step with
  | done last =>
    cases h
  | yield comma =>
    obtain ⟨heq, -⟩ := exceptT_pure_eq_ok_iff.mp h
    cases heq
    exact (consuming hfirst).trans hend

end Runs

end DiceNotation
