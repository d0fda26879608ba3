/-
# Tokens that are written apart

Well-formed tokens that are written behind each other, with blanks between them, are cut into the
same tokens again, and so nothing joins and nothing falls apart (`Token.ofText_spaced`).

Of one token it is enough that a blank stands behind it, or nothing: a blank prolongs neither a
number nor a name, and makes no pair with an operator, while a quoted token ends where it says,
whatever is quoted (`Token.WellFormed.tokensOf_apart`).  The blanks themselves stand for nothing
(`tokensOf_gap`).  The rest is an induction on the tokens, in which the text behind a token begins
with its gap.
-/
import DiceNotation.Proofs.Grammar.Viability

namespace DiceNotation

/-! ## 1. One token and a gap -/

theorem not_digit_of_isSpace {c : Char} (hc : isSpace c = true) : c.isDigit = false := by
  cases hdigit : c.isDigit with
  | false => rfl
  | true => exact absurd hc (by rw [isSpace_of_isDigit hdigit]; decide)

theorem not_word_of_isSpace {c : Char} (hc : isSpace c = true) : isWordChar c = false := by
  cases hword : isWordChar c with
  | false => rfl
  | true => exact absurd hc (by rw [word_not_space hword]; decide)

/-- **A well-formed token is cut off as it is written**, if a blank follows or nothing. -/
theorem Token.WellFormed.tokensOf_apart {t : Token} (h : t.WellFormed) {rest : List Char}
    (hrest : ∀ c ∈ rest.head?, isSpace c = true) :
    tokensOf (t.text.toList ++ rest) = t :: tokensOf rest := by
  rcases h with hlegible | ⟨o, rfl⟩
  · refine tokensOf_legible hlegible ?_ ?_
    · intro _ c hc
      exact not_digit_of_isSpace (hrest c hc)
    · intro _ c hc
      exact not_word_of_isSpace (hrest c hc)
  · exact tokensOf_op_apart o hrest

/-- Whether a text consists of blanks, or of nothing. -/
def isGap (gap : String) : Bool := gap.toList.all isSpace

/-- Blanks stand for nothing. -/
theorem tokensOf_gap {gap : String} (h : isGap gap = true) (rest : List Char) :
    tokensOf (gap.toList ++ rest) = tokensOf rest := by
  unfold isGap at h
  generalize gap.toList = cs at h ⊢
  induction cs with
  | nil => rfl
  | cons c cs ih =>
    obtain ⟨hc, hcs⟩ := Bool.and_eq_true_iff.mp h
    rw [List.cons_append, tokensOf_space hc, ih hcs]

/-! ## 2. Many tokens -/

namespace Token

/-- The text of some tokens, each with the gap behind it. -/
def spaced : List (Token × String) → String
  | [] => ""
  | (t, gap) :: parts => t.text ++ gap ++ spaced parts

/-- Behind a token there is a gap of blanks, or the end of the text. -/
theorem head?_spaced {gap : String} {parts : List (Token × String)} (hgap : isGap gap = true)
    (hapart : gap ≠ "" ∨ parts = []) :
    ∀ c ∈ (gap.toList ++ (spaced parts).toList).head?, isSpace c = true := by
  intro c hc
  cases hcs : gap.toList with
  | nil =>
    rcases hapart with hne | rfl
    · exact absurd (String.toList_eq_nil_iff.mp hcs) hne
    · rw [hcs] at hc
      cases hc
  | cons d ds =>
    rw [hcs] at hc
    obtain rfl := Option.some.inj hc
    exact List.all_eq_true.mp hgap d (by rw [hcs]; exact List.mem_cons_self)

theorem tokensOf_spaced {parts : List (Token × String)} (hwell : ∀ part ∈ parts, part.1.WellFormed)
    (hgaps : ∀ part ∈ parts, isGap part.2 = true) (hapart : ∀ part ∈ parts.dropLast, part.2 ≠ "") :
    tokensOf (spaced parts).toList = parts.map Prod.fst := by
  induction parts with
  | nil => exact tokensOf_nil
  | cons part parts ih =>
    obtain ⟨t, gap⟩ := part
    obtain ⟨ht, hmore⟩ := List.forall_mem_cons.mp hwell
    obtain ⟨hgap, hmoreGaps⟩ := List.forall_mem_cons.mp hgaps
    have hbehind : (gap ≠ "" ∨ parts = []) ∧ ∀ part ∈ parts.dropLast, part.2 ≠ "" := by
      cases parts with
      | nil => exact ⟨.inr rfl, nofun⟩
      | cons next parts =>
        obtain ⟨hne, hmoreApart⟩ := List.forall_mem_cons.mp hapart
        exact ⟨.inl hne, hmoreApart⟩
    rw [spaced, String.toList_append, String.toList_append, List.append_assoc,
      ht.tokensOf_apart (head?_spaced hgap hbehind.1), tokensOf_gap hgap,
      ih hmore hmoreGaps hbehind.2, List.map_cons]

/-- **Written tokens are read back.**  Well-formed tokens with blanks between them, and with or
without blanks in front of them all and behind them all, are the tokens of their text. -/
theorem ofText_spaced {lead : String} {parts : List (Token × String)} (hlead : isGap lead = true)
    (hwell : ∀ part ∈ parts, part.1.WellFormed) (hgaps : ∀ part ∈ parts, isGap part.2 = true)
    (hapart : ∀ part ∈ parts.dropLast, part.2 ≠ "") :
    ofText (lead ++ spaced parts) = parts.map Prod.fst := by
  rw [ofText_eq_tokensOf, String.toList_append, tokensOf_gap hlead]
  exact tokensOf_spaced hwell hgaps hapart

/-- Two operators that would make another one without the blank between them, the largest number in
front of a letter, and literals with a quote, a NUL, blanks and an operator in them. -/
theorem ofText_spaced_quoted :
    let parts : List (Token × String) :=
      [(.op .closeParen, "\x0b"), (.op .bang, "\t"), (.number maxNumber, " "), (.word "d", "\r\n"),
        (.char '\'', " "), (.char '\x00', "\x0c"), (.string "\n== '", "")]
    (∀ part ∈ parts, part.1.WellFormed) ∧ (∀ part ∈ parts, isGap part.2 = true) ∧
      (∀ part ∈ parts.dropLast, part.2 ≠ "") ∧ ofText ("\n " ++ spaced parts) =
        [.op .closeParen, .op .bang, .number maxNumber, .word "d", .char '\'', .char '\x00',
          .string "\n== '"] := by
  intro parts
  have hword : (word "d").Legible := ⟨by decide, List.all_eq_true.mp rfl⟩
  have hstring : (string "\n== '").Legible := by
    change '"' ∉ "\n== '".toList
    decide
  have hwell : ∀ part ∈ parts, part.1.WellFormed := by
    simp only [parts, List.forall_mem_cons]
    exact ⟨wellFormed_op _, wellFormed_op _, .inl (Nat.le_refl _), .inl hword, .inl trivial,
      .inl trivial, .inl hstring, nofun⟩
  have hgaps : ∀ part ∈ parts, isGap part.2 = true := by
    simp only [parts, List.forall_mem_cons]
    exact ⟨rfl, rfl, rfl, rfl, rfl, rfl, rfl, nofun⟩
  have hapart : ∀ part ∈ parts.dropLast, part.2 ≠ "" := by decide
  exact ⟨hwell, hgaps, hapart, ofText_spaced rfl hwell hgaps hapart⟩

end Token

end DiceNotation
