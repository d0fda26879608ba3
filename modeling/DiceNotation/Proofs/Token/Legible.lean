/-
# Written tokens

A literal is **legible** if its written form is cut into that literal again: its number fits, its
name consists of letters, its string has no quote inside.  Literals that come out of a text are
legible (`Token.legible_of_mem_ofText`), and a legible literal is read back, whatever follows, as
long as that does not prolong it (`tokensOf_legible`).
-/
import DiceNotation.Grammar.Power
import DiceNotation.Proofs.Grammar.Phrase
import DiceNotation.Proofs.Token.Cutting

namespace DiceNotation

/-! ## 1. Words, and operators before a blank -/

theorem word_not_space {c : Char} (hc : isWordChar c = true) : isSpace c = false := by
  simp only [isSpace, Bool.or_eq_false_iff, beq_eq_false_iff_ne]
  refine ⟨⟨⟨⟨⟨?_, ?_⟩, ?_⟩, ?_⟩, ?_⟩, ?_⟩ <;>
  · rintro rfl
    exact absurd hc (by decide)

theorem word_not_digit {c : Char} (hc : isWordChar c = true) : c.isDigit = false := by
  cases hdigit : c.isDigit with
  | false => rfl
  | true =>
    simp only [isWordChar, Bool.or_eq_true, beq_iff_eq] at hc
    rcases hc with halpha | rfl
    · unfold Char.isDigit at hdigit
      unfold Char.isAlpha Char.isUpper Char.isLower at halpha
      simp only [Bool.and_eq_true, Bool.or_eq_true, decide_eq_true_eq, UInt32.le_iff_toNat_le,
        ge_iff_le] at hdigit halpha
      have h9 : '9'.val.toNat = 57 := rfl
      have hA : 'A'.val.toNat = 65 := rfl
      have ha : 'a'.val.toNat = 97 := rfl
      omega
    · exact absurd hdigit (by decide)

theorem cutsOff_word {cs rest : List Char} (h : Run isWordChar cs rest) :
    CutsOff cs rest (some (.word (String.ofList cs))) := by
  obtain ⟨d, ds, rfl, hd, htake, hdrop⟩ := h.exists_cons
  have hspace := word_not_space hd
  have hdigit := word_not_digit hd
  refine ⟨d, ds, rfl, ?_, ?_, ?_⟩
  · rintro rfl
    exact absurd hd (by decide)
  · simp [splitPiece, hspace, hdigit, hd, htake, hdrop]
  · simp [Token.ofPiece?, hspace, hdigit, hd]

/-- A run of letters is a word, if no letter follows. -/
theorem tokensOf_word {name rest : List Char} (hne : name ≠ [])
    (hname : ∀ c ∈ name, isWordChar c = true) (hrest : ∀ c ∈ rest.head?, isWordChar c = false) :
    tokensOf (name ++ rest) = .word (String.ofList name) :: tokensOf rest :=
  (cutsOff_word ⟨hne, hname, hrest⟩).tokensOf_append

/-- No operator has a blank as its second character. -/
theorem isOpPair_of_isSpace (c : Char) {d : Char} (hd : isSpace d = true) :
    isOpPair c d = false := by
  refine Bool.eq_false_iff.mpr fun hpair => ?_
  obtain ⟨o, ho⟩ := isOpPair_iff.mp hpair
  have hsecond : o.text.toList.tail.any isSpace = false := by cases o <;> decide
  rw [ho] at hsecond
  simp [hd] at hsecond

/-- Every operator, if a blank follows or nothing. -/
theorem tokensOf_op_apart (o : Op) {rest : List Char}
    (hrest : ∀ c ∈ rest.head?, isSpace c = true) :
    tokensOf (o.text.toList ++ rest) = .op o :: tokensOf rest := by
  have hone : ∀ c, o.text = String.ofList [c] →
      tokensOf (o.text.toList ++ rest) = .op o :: tokensOf rest := by
    intro c ho
    rw [ho, String.toList_ofList, List.singleton_append]
    exact tokensOf_op ho fun d hd => isOpPair_of_isSpace c (hrest d hd)
  have htwo : ∀ c d, o.text = String.ofList [c, d] →
      tokensOf (o.text.toList ++ rest) = .op o :: tokensOf rest := by
    intro c d ho
    rw [ho, String.toList_ofList]
    exact tokensOf_pair ho _
  cases o <;> first | exact hone _ rfl | exact htwo _ _ rfl

theorem tokensOf_op_blank (o : Op) (rest : List Char) :
    tokensOf (o.text.toList ++ ' ' :: rest) = .op o :: tokensOf rest := by
  have hblank : ∀ c ∈ (' ' :: rest).head?, isSpace c = true := by
    rintro c hc
    obtain rfl := Option.some.inj hc
    rfl
  rw [tokensOf_op_apart o hblank, tokensOf_space rfl]

/-! ## 2. Legible literals -/

namespace Token

/-- The written form of a literal is cut into that literal again. -/
def Legible : Token → Prop
  | number n => n ≤ maxNumber
  | word name => name.toList ≠ [] ∧ ∀ c ∈ name.toList, isWordChar c = true
  | char _ => True
  | string content => '"' ∉ content.toList
  | _ => False

/-- Whether a token is written as digits. -/
def isNumber : Token → Bool
  | number _ => true
  | _ => false

/-- Whether a token is written as letters. -/
def isWord : Token → Bool
  | word _ => true
  | _ => false

end Token

theorem toList_text_number (n : Nat) : (Token.number n).text.toList = Nat.toDigits 10 n := by
  simp [Token.text, Nat.repr]

theorem tokensOf_legible {t : Token} (h : t.Legible) {rest : List Char}
    (hdigit : t.isNumber = true → ∀ c ∈ rest.head?, c.isDigit = false)
    (hword : t.isWord = true → ∀ c ∈ rest.head?, isWordChar c = false) :
    tokensOf (t.text.toList ++ rest) = t :: tokensOf rest := by
  cases t with
  | number n =>
    rw [toList_text_number]
    exact tokensOf_number h (hdigit rfl)
  | word name =>
    have hone := tokensOf_word h.1 h.2 (hword rfl)
    rwa [String.ofList_toList] at hone
  | char c =>
    have htext : (Token.char c).text.toList = ['\'', c, '\''] := by simp [Token.text, toString]
    rw [htext]
    exact tokensOf_char c rest
  | string content =>
    have htext : (Token.string content).text.toList = '"' :: (content.toList ++ ['"']) := by
      simp [Token.text, toString]
    have hone := tokensOf_string h rest
    rw [htext, List.cons_append, List.append_assoc, List.singleton_append, hone,
      String.ofList_toList]
  | op o => exact absurd h id
  | malformed piece => exact absurd h id
  | stray c => exact absurd h id
  | endOfInput => exact absurd h id

/-! ## 3. Literals of a text -/

theorem exists_splitPiece_of_mem_pieces {cs piece : List Char} (h : piece ∈ pieces cs) :
    ∃ c rest, piece = (splitPiece c rest).1 := by
  induction cs using pieces.induct with
  | case1 =>
    rw [pieces] at h
    exact absurd h List.not_mem_nil
  | case2 c rest hc =>
    rw [pieces, if_pos hc] at h
    exact absurd h List.not_mem_nil
  | case3 c rest hc ih =>
    rw [pieces, if_neg hc] at h
    rcases List.mem_cons.mp h with rfl | h
    · exact ⟨c, rest, rfl⟩
    · exact ih h

namespace Token

theorem legible_ofDigits {digits : List Char} (h : (ofDigits digits).isLiteral = true) :
    (ofDigits digits).Legible := by
  unfold ofDigits at h ⊢
  split
  · next hfits => exact hfits.2
  · next hfits => rw [if_neg hfits] at h; cases h

/-- A quoted piece is a string only if it has been cut off behind a closing quote, and then there is
none in front of that. -/
theorem legible_ofQuoted {rest : List Char}
    (h : (ofQuoted (splitString '"' rest).1 (splitString '"' rest).1.tail).isLiteral = true) :
    (ofQuoted (splitString '"' rest).1 (splitString '"' rest).1.tail).Legible := by
  have hcontent : '"' ∉ rest.takeWhile (· != '"') := by
    intro hmem
    exact absurd (List.all_eq_true.mp List.all_takeWhile _ hmem) (by decide)
  unfold splitString at h ⊢
  split
  · next hd =>
    simp only [hd, List.tail_cons] at h
    unfold ofQuoted at h
    split at h
    · next hlast => exact absurd (List.mem_of_getLast? hlast) hcontent
    · cases h
  · next close more hd =>
    have hclose : close = '"' := by
      have hhead := List.head?_dropWhile_not (· != '"') rest
      simpa [hd] using hhead
    subst hclose
    simpa [ofQuoted, Legible] using hcontent

/-- **The literals of a text are legible.** -/
theorem legible_of_mem_ofText {text : String} {t : Token} (hmem : t ∈ ofText text)
    (ht : t.isLiteral = true) : t.Legible := by
  obtain ⟨piece, hpiece, htoken⟩ := List.mem_filterMap.mp hmem
  obtain ⟨c, rest, rfl⟩ := exists_splitPiece_of_mem_pieces hpiece
  unfold splitPiece at htoken
  split at htoken
  · next hspace => simp [ofPiece?, hspace] at htoken
  next hspace =>
  split at htoken
  · next hdigit =>
    simp only [ofPiece?, hspace, hdigit, if_true, if_false, Option.some.injEq,
      Bool.false_eq_true] at htoken
    subst htoken
    exact legible_ofDigits ht
  next hdigit =>
  split at htoken
  · next hword =>
    simp only [ofPiece?, hspace, hdigit, hword, if_true, if_false, Option.some.injEq,
      Bool.false_eq_true] at htoken
    subst htoken
    refine ⟨by simp, ?_⟩
    rw [String.toList_ofList, List.forall_mem_cons]
    exact ⟨hword, fun d hd => List.all_eq_true.mp List.all_takeWhile d hd⟩
  next hword =>
  split at htoken
  · next hquote =>
    obtain rfl : c = '"' := by simpa using hquote
    have hsome : ofPiece? (splitString '"' rest).1 =
        some (ofQuoted (splitString '"' rest).1 (splitString '"' rest).1.tail) := by
      unfold splitString
      split <;> rfl
    obtain rfl := Option.some.inj (hsome.symm.trans htoken)
    exact legible_ofQuoted ht
  next hquote =>
  split at htoken
  · next hsingle =>
    obtain rfl : c = '\'' := by simpa using hsingle
    split at htoken
    · obtain rfl := Option.some.inj htoken
      trivial
    · obtain rfl := Option.some.inj htoken
      cases ht
  next hsingle =>
  -- what is left are operators and stray characters, and none of them is a literal
  have hother : ∀ cs, ofPiece? (c :: cs) = some t → t.isLiteral = false := by
    intro cs hcs
    simp only [ofPiece?, hspace, hdigit, hword, hquote, hsingle, if_false, Bool.false_eq_true]
      at hcs
    split at hcs <;> obtain rfl := Option.some.inj hcs <;> rfl
  have hfalse : t.isLiteral = false := by
    split at htoken
    · split at htoken
      · exact hother _ htoken
      · exact hother _ htoken
    · exact hother _ htoken
  rw [hfalse] at ht
  cases ht

end Token

end DiceNotation
