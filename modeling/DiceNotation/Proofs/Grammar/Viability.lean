/-
# Beginnings of phrases

Tokens are **viable** if they are the beginning of a phrase: well-formed tokens can be added that
complete it (`Phrase.Viable`).  Nothing here speaks of the reader.  Tokens are viable in one of two
ways.  Either a whole phrase has been written and nothing needs to be added, or the tokens end
inside a construct; then what is inside is completed first, and the closing token of the construct
follows.  There is one lemma for each construct that can be left in the middle.

What is kept of a completion is that it fits the power and the levels that are available, so that a
viable beginning of an operand is one also where the operand stands within a larger phrase.
-/
import DiceNotation.Proofs.Grammar.Phrase
import DiceNotation.Proofs.Token.Legible

namespace DiceNotation

/-! ## 1. Tokens in front -/

/-- An operator, or a literal whose written form is cut into that literal again. -/
def Token.WellFormed (t : Token) : Prop := t.Legible ∨ ∃ o, t = .op o

theorem Token.wellFormed_op (o : Op) : (Token.op o).WellFormed := .inr ⟨o, rfl⟩

/-- Words are written by the same tokens, whatever stands behind them. -/
theorem Spells.append_rest {words tokens rest : List Token} (h : Spells words tokens rest)
    (more : List Token) : Spells words (tokens ++ more) (rest ++ more) := by
  induction h with
  | nil => exact .nil
  | word _ ih => exact .word ih
  | half _ ih => exact .half ih

/-- Tokens that write a whole phrase, with others behind them. -/
theorem Spells.behind {words front : List Token} (h : Spells words front []) (rest : List Token) :
    Spells words (front ++ rest) rest :=
  h.append_rest rest

/-- The tokens that write some words are those in front of the rest, unless the rest begins with a
`!` and may have taken it from a token `)!`. -/
theorem Spells.exists_front {words tokens rest : List Token} (h : Spells words tokens rest)
    (hbang : frontToken rest ≠ .op .bang) :
    ∃ front, tokens = front ++ rest ∧ Spells words front [] := by
  induction h with
  | nil => exact ⟨[], rfl, .nil⟩
  | @word t _ _ _ _ ih =>
    obtain ⟨front, rfl, hfront⟩ := ih hbang
    exact ⟨t :: front, rfl, .word hfront⟩
  | half _ ih =>
    obtain ⟨front, heq, hfront⟩ := ih hbang
    cases front with
    | nil =>
      rw [List.nil_append] at heq
      exact absurd (heq ▸ rfl) hbang
    | cons t front =>
      obtain ⟨rfl, rfl⟩ := List.cons.inj heq
      exact ⟨.op .parenBang :: front, rfl, .half hfront⟩

/-- Whether an operand ends depends on the token behind it alone. -/
theorem stops_congr {power : Nat} {rest rest' : List Token}
    (hfront : frontToken rest' = frontToken rest) (h : Stops power rest) : Stops power rest' := by
  have hend : ∀ {t : Token} {more : List Token}, t = .endOfInput → Stops power (t :: more) := by
    rintro _ _ rfl
    exact rfl
  match rest, rest' with
  | _, [] => exact stops_nil power
  | [], _ :: _ => exact hend hfront
  | _ :: _, _ :: _ =>
    obtain rfl : _ = _ := hfront
    exact h

/-! ## 2. Viable tokens -/

/-- The tokens are the beginning of an operand of least power `power` and at most `depth` levels. -/
def Phrase.Viable (depth power : Nat) (front : List Token) : Prop :=
  ∃ (p : Phrase) (more : List Token), p.Fits power ∧ p.nesting ≤ depth ∧
    (∀ t ∈ more, t.WellFormed) ∧ Spells p.words (front ++ more) []

/-- The tokens are the beginning of a primary, which is an operand of any least power.  Operands
inside it have at most `depth` levels. -/
def Phrase.ViablePrimary (depth : Nat) (front : List Token) : Prop :=
  ∃ (p : Phrase) (more : List Token), (∀ power, p.Fits power) ∧ p.nesting ≤ depth + 1 ∧
    (∀ t ∈ more, t.WellFormed) ∧ Spells p.words (front ++ more) []

/-- The tokens are the beginning of the elements of an array literal, up to its closing bracket. -/
def Phrase.ViableElements (depth : Nat) (front : List Token) : Prop :=
  ∃ (first : Phrase) (others : List Phrase) (more : List Token), first.Fits elementPower ∧
    (∀ p ∈ others, p.Fits elementPower) ∧ max first.nesting (nestingOf others) ≤ depth ∧
    (∀ t ∈ more, t.WellFormed) ∧
    Spells (first.words ++ (furtherWords others ++ arrayClose false)) (front ++ more) []

/-- The tokens are the beginning of the tail of an extension, behind the token `start` that starts
it. -/
def Tail.Viable (depth : Nat) (start : Token) (e : Extension) (front : List Token) : Prop :=
  ∃ (tail : Tail) (more : List Token), tail.Fits e ∧ tail.start = start ∧ tail.nesting ≤ depth ∧
    (∀ t ∈ more, t.WellFormed) ∧ Spells tail.body (front ++ more) []

/-- A completion with one more operator at its end. -/
theorem wellFormed_append_op {more : List Token} (h : ∀ t ∈ more, t.WellFormed) (o : Op) :
    ∀ t ∈ more ++ [.op o], t.WellFormed := by
  intro t ht
  rcases List.mem_append.mp ht with hmem | hmem
  · exact h t hmem
  · obtain rfl := List.mem_singleton.mp hmem
    exact Token.wellFormed_op o

/-- Tokens that are completed to some words and then closed. -/
theorem Spells.append_closed {words front more : List Token}
    (h : Spells words (front ++ more) []) (o : Op) :
    Spells (words ++ [.op o]) (front ++ (more ++ [.op o])) [] := by
  rw [← List.append_assoc]
  exact (h.behind _).append (.word .nil)

/-- Where an operand is to begin, a number can stand. -/
theorem Phrase.viablePrimary_nil (depth : Nat) : ViablePrimary depth [] :=
  ⟨.literal (.number 1), [.number 1], fun _ => .literal rfl, Nat.le_add_left 1 depth,
    by simp [Token.WellFormed, Token.Legible, Token.maxNumber], .word .nil⟩

/-- Where a phrase has been written, nothing needs to be added. -/
theorem Phrase.Fits.viable {p : Phrase} {depth power : Nat} {front : List Token}
    (hfits : p.Fits power) (hnest : p.nesting ≤ depth) (h : Spells p.words front []) :
    Phrase.Viable depth power front :=
  ⟨p, [], hfits, hnest, by simp, by rwa [List.append_nil]⟩

theorem Phrase.ViablePrimary.viable {depth power : Nat} {front : List Token}
    (h : ViablePrimary depth front) : Viable (depth + 1) power front := by
  obtain ⟨p, more, hfits, hnest, hmore, hwords⟩ := h
  exact ⟨p, more, hfits power, hnest, hmore, hwords⟩

section Constructs

variable {depth power : Nat} {front : List Token}

/-! ## 3. Primaries -/

theorem Phrase.Viable.group (h : Viable depth 0 front) :
    ViablePrimary depth (.op .openParen :: front) := by
  obtain ⟨p, more, hfits, hnest, hmore, hwords⟩ := h
  exact ⟨.group p, more ++ [Token.op .closeParen], fun _ => .group hfits, Nat.succ_le_succ hnest,
    wellFormed_append_op hmore _, .word (hwords.append_closed .closeParen)⟩

theorem Phrase.Viable.unary {o : Op} (ho : o.unaryPower? = some power)
    (h : Viable depth power front) : ViablePrimary depth (.op o :: front) := by
  obtain ⟨p, more, hfits, hnest, hmore, hwords⟩ := h
  exact ⟨.unary o p, more, fun _ => .unary ho hfits, Nat.succ_le_succ hnest, hmore, .word hwords⟩

theorem Phrase.Viable.die (h : Viable depth sidesPower front) :
    ViablePrimary depth (.word dieWord :: front) := by
  obtain ⟨p, more, hfits, hnest, hmore, hwords⟩ := h
  exact ⟨.die p, more, fun _ => .die hfits, Nat.succ_le_succ hnest, hmore, .word hwords⟩

/-- The elements that have been begun are the first ones of an array literal. -/
theorem Phrase.ViableElements.array (h : ViableElements depth front) :
    ViablePrimary depth (.op .openBracket :: front) := by
  obtain ⟨first, others, more, hfirst, hothers, hnest, hmore, hwords⟩ := h
  exact ⟨.array first others false, more, fun _ => .array hfirst hothers, Nat.succ_le_succ hnest,
    hmore, .word hwords⟩

/-! ## 4. Elements -/

theorem Phrase.Viable.elements (h : Viable depth elementPower front) :
    ViableElements depth front := by
  obtain ⟨p, more, hfits, hnest, hmore, hwords⟩ := h
  exact ⟨p, [], more ++ [Token.op .closeBracket], hfits, by simp, by simpa [nestingOf] using hnest,
    wellFormed_append_op hmore _, hwords.append_closed .closeBracket⟩

/-- Elements that have been begun behind an element and a comma. -/
theorem Phrase.ViableElements.cons {p : Phrase} {element : List Token}
    (hfits : p.Fits elementPower) (hnest : p.nesting ≤ depth) (hp : Spells p.words element [])
    (h : ViableElements depth front) : ViableElements depth (element ++ .op .comma :: front) := by
  obtain ⟨first, others, more, hfirst, hothers, hnest', hmore, hwords⟩ := h
  refine ⟨p, first :: others, more, hfits, List.forall_mem_cons.mpr ⟨hfirst, hothers⟩,
    Nat.max_le.mpr ⟨hnest, hnest'⟩, hmore, ?_⟩
  rw [furtherWords_cons_append, List.append_assoc]
  exact (hp.behind _).append (.word hwords)

/-! ## 5. Tails -/

theorem Tail.viable_explode (h : Phrase.Viable depth 0 front) :
    Viable depth (.op .bangParen) .explode front := by
  obtain ⟨p, more, hfits, hnest, hmore, hwords⟩ := h
  exact ⟨.explode p, more ++ [Token.op .parenBang], .explode hfits, rfl, hnest,
    wellFormed_append_op hmore _, hwords.append_closed .parenBang⟩

theorem Tail.viable_index (h : Phrase.Viable depth 0 front) :
    Viable depth (.op .openBracket) .index front := by
  obtain ⟨p, more, hfits, hnest, hmore, hwords⟩ := h
  exact ⟨.index p, more ++ [Token.op .closeBracket], .index hfits, rfl, hnest,
    wellFormed_append_op hmore _, hwords.append_closed .closeBracket⟩

theorem Tail.viable_binary {o : Op} {l : Nat} (ho : o.binaryPowers? = some (l, power))
    (h : Phrase.Viable depth power front) : Viable depth (.op o) (.binary o l power) front := by
  obtain ⟨p, more, hfits, hnest, hmore, hwords⟩ := h
  exact ⟨.binary o p, more, .binary ho hfits, rfl, hnest, hmore, hwords⟩

theorem Tail.viable_dice (h : Phrase.Viable depth sidesPower front) :
    Viable depth (.word dieWord) .dice front := by
  obtain ⟨p, more, hfits, hnest, hmore, hwords⟩ := h
  exact ⟨.dice p, more, .dice hfits, rfl, hnest, hmore, hwords⟩

theorem Tail.viable_keep {k : Keep} {word : String} (hk : Keep.ofWord? word = some k)
    (h : Phrase.Viable depth keepPower front) : Viable depth (.word word) (.keep k) front := by
  obtain ⟨p, more, hfits, hnest, hmore, hwords⟩ := h
  exact ⟨.keep word p, more, .keep hk hfits, rfl, hnest, hmore, hwords⟩

/-- A phrase with the beginning of a tail behind it. -/
theorem Tail.Viable.extended {l : Phrase} {start : Token} {e : Extension} {left : List Token}
    (hfits : l.Fits power) (he : power ≤ e.power) (hopen : ∀ r ∈ l.openPowers, e.power < r)
    (hnest : l.nesting ≤ depth + 1) (hl : Spells l.words left [])
    (h : Tail.Viable depth start e front) :
    Phrase.Viable (depth + 1) power (left ++ start :: front) := by
  obtain ⟨tail, more, htail, rfl, hnest', hmore, hbody⟩ := h
  refine ⟨.extended l tail, more, .extended hfits htail he hopen,
    Nat.max_le.mpr ⟨hnest, Nat.succ_le_succ hnest'⟩, hmore, ?_⟩
  rw [List.append_assoc]
  exact (hl.behind _).append (.word hbody)

end Constructs

end DiceNotation
