/-
# Cutting off one token

What the first piece of a text is, for each kind of token that a printed value can begin with: the
piece is cut off (`CutsOff`), and behind its token stand the tokens of the rest
(`CutsOff.tokensOf_append`).  Of a number this needs to know that no digit follows (`Run`), of an
operator that it does not make a pair with what follows; a quoted piece ends where it says.
-/
import DiceNotation.Token.Lexer

namespace DiceNotation

/-! ## 1. The tokens of characters -/

/-- The tokens of some characters. -/
def tokensOf (cs : List Char) : List Token := (pieces cs).filterMap Token.ofPiece?

theorem ofText_eq_tokensOf (text : String) : Token.ofText text = tokensOf text.toList := rfl

@[simp] theorem tokensOf_nil : tokensOf [] = [] := by
  rw [tokensOf, pieces]
  rfl

/-- The first piece makes the first token, unless it is blank. -/
theorem tokensOf_cons {c : Char} (hc : c ≠ '\x00') (rest : List Char) :
    tokensOf (c :: rest) =
      (Token.ofPiece? (splitPiece c rest).1).toList ++ tokensOf (splitPiece c rest).2 := by
  rw [tokensOf, pieces, if_neg (by simpa using hc), List.filterMap_cons]
  cases Token.ofPiece? (splitPiece c rest).1 <;> rfl

/-! ## 2. First pieces -/

/-- The characters `cs` have a property, there is at least one, and the one behind them has it
not. -/
structure Run (p : Char → Bool) (cs rest : List Char) : Prop where
  ne_nil : cs ≠ []
  all : ∀ c ∈ cs, p c = true
  ends : ∀ c ∈ rest.head?, p c = false

instance (p : Char → Bool) (cs rest : List Char) : Decidable (Run p cs rest) :=
  decidable_of_iff (cs ≠ [] ∧ cs.all p = true ∧ rest.head?.all (fun c => !p c) = true) <| by
    constructor
    · rintro ⟨hne, hall, hends⟩
      exact ⟨hne, List.all_eq_true.mp hall, by simpa [Option.all_eq_true] using hends⟩
    · rintro ⟨hne, hall, hends⟩
      exact ⟨hne, List.all_eq_true.mpr hall, by simpa [Option.all_eq_true] using hends⟩

theorem Run.exists_cons {p : Char → Bool} {cs rest : List Char} (h : Run p cs rest) :
    ∃ d ds, cs = d :: ds ∧ p d = true ∧ (ds ++ rest).takeWhile p = ds ∧
      (ds ++ rest).dropWhile p = rest := by
  obtain ⟨d, ds, rfl⟩ := List.exists_cons_of_ne_nil h.ne_nil
  obtain ⟨hd, hds⟩ := List.forall_mem_cons.mp h.all
  have hstop : rest.takeWhile p = [] ∧ rest.dropWhile p = rest := by
    cases rest with
    | nil => exact ⟨rfl, rfl⟩
    | cons c rest =>
      have hc : p c = false := h.ends c rfl
      simp [hc]
  refine ⟨d, ds, rfl, hd, ?_, ?_⟩
  · rw [List.takeWhile_append_of_pos hds, hstop.1, List.append_nil]
  · rw [List.dropWhile_append_of_pos hds, hstop.2]

/-- Where a run ends does not depend on how the text is split. -/
theorem Run.append_inj {p : Char → Bool} {cs cs' rest rest' : List Char} (h : Run p cs rest)
    (h' : Run p cs' rest') (htext : cs ++ rest = cs' ++ rest') : cs = cs' ∧ rest = rest' := by
  obtain ⟨d, ds, rfl, -, htake, hdrop⟩ := h.exists_cons
  obtain ⟨d', ds', rfl, -, htake', hdrop'⟩ := h'.exists_cons
  rw [List.cons_append, List.cons_append] at htext
  obtain ⟨rfl, hmore⟩ := List.cons.inj htext
  rw [hmore] at htake hdrop
  constructor
  · rw [← htake, htake']
  · rw [← hdrop, hdrop']

/-- What the cutting does with a text that begins with `piece`: it cuts that piece off and makes
`token` of it. -/
def CutsOff (piece rest : List Char) (token : Option Token) : Prop :=
  ∃ c cs, piece = c :: cs ∧ c ≠ '\x00' ∧ splitPiece c (cs ++ rest) = (piece, rest) ∧
    Token.ofPiece? piece = token

theorem CutsOff.tokensOf_append {piece rest : List Char} {token : Option Token}
    (h : CutsOff piece rest token) : tokensOf (piece ++ rest) = token.toList ++ tokensOf rest := by
  obtain ⟨c, cs, rfl, hnul, hcut, rfl⟩ := h
  rw [List.cons_append, tokensOf_cons hnul, hcut]

/-! ## 3. Blanks -/

theorem ne_nul_of_isSpace {c : Char} (hc : isSpace c = true) : c ≠ '\x00' := by
  rintro rfl
  exact absurd hc (by decide)

theorem tokensOf_blanks {c : Char} (hc : isSpace c = true) (rest : List Char) :
    tokensOf (c :: rest) = tokensOf (rest.dropWhile isSpace) := by
  rw [tokensOf_cons (ne_nul_of_isSpace hc)]
  simp [splitPiece, Token.ofPiece?, hc]

/-- A blank stands for nothing, and so does each of the blanks behind it. -/
theorem tokensOf_space {c : Char} (hc : isSpace c = true) (rest : List Char) :
    tokensOf (c :: rest) = tokensOf rest := by
  rw [tokensOf_blanks hc]
  cases rest with
  | nil => rfl
  | cons d rest =>
    cases hd : isSpace d with
    | true => rw [List.dropWhile_cons_of_pos hd, tokensOf_blanks hd]
    | false => rw [List.dropWhile_cons_of_neg (by simp [hd])]

/-! ## 4. Quoted pieces -/

theorem tokensOf_char (c : Char) (rest : List Char) :
    tokensOf ('\'' :: c :: '\'' :: rest) = .char c :: tokensOf rest := by
  rw [tokensOf_cons (by decide)]
  rfl

/-- A string is cut off with its closing quote, or without one at the end of the text. -/
theorem cutsOff_quoted {content close rest : List Char} (h : '"' ∉ content)
    (hclose : close = ['"'] ∨ close = [] ∧ rest = []) :
    CutsOff ('"' :: (content ++ close)) rest
      (some (.ofQuoted ('"' :: (content ++ close)) (content ++ close))) := by
  have hall : ∀ c ∈ content, (c != '"') = true := by
    intro c hc
    simpa using fun heq : c = '"' => h (heq ▸ hc)
  refine ⟨'"', content ++ close, rfl, by decide, ?_, rfl⟩
  change splitString '"' (content ++ close ++ rest) = _
  rw [splitString, List.append_assoc, List.takeWhile_append_of_pos hall,
    List.dropWhile_append_of_pos hall]
  rcases hclose with rfl | ⟨rfl, rfl⟩ <;> simp

theorem tokensOf_string {content : List Char} (h : '"' ∉ content) (rest : List Char) :
    tokensOf ('"' :: (content ++ '"' :: rest)) =
      .string (String.ofList content) :: tokensOf rest := by
  have hcut : CutsOff ('"' :: (content ++ ['"'])) rest _ := cutsOff_quoted h (.inl rfl)
  simpa [Token.ofQuoted] using hcut.tokensOf_append

/-! ## 5. Numbers -/

theorem isSpace_of_isDigit {c : Char} (hc : c.isDigit = true) : isSpace c = false := by
  simp only [isSpace, Bool.or_eq_false_iff, beq_eq_false_iff_ne]
  refine ⟨⟨⟨⟨⟨?_, ?_⟩, ?_⟩, ?_⟩, ?_⟩, ?_⟩ <;>
  · rintro rfl
    exact absurd hc (by decide)

theorem cutsOff_digits {cs rest : List Char} (h : Run Char.isDigit cs rest) :
    CutsOff cs rest (some (.ofDigits cs)) := by
  obtain ⟨d, ds, rfl, hd, htake, hdrop⟩ := h.exists_cons
  have hspace := isSpace_of_isDigit hd
  refine ⟨d, ds, rfl, ?_, ?_, ?_⟩
  · rintro rfl
    exact absurd hd (by decide)
  · simp [splitPiece, hspace, hd, htake, hdrop]
  · simp [Token.ofPiece?, hspace, hd]

theorem tokensOf_digits {digits rest : List Char} (hne : digits ≠ [])
    (hdigits : ∀ c ∈ digits, c.isDigit = true) (hrest : ∀ c ∈ rest.head?, c.isDigit = false) :
    tokensOf (digits ++ rest) = .ofDigits digits :: tokensOf rest :=
  (cutsOff_digits ⟨hne, hdigits, hrest⟩).tokensOf_append

/-- A number that a token can have is read back from its digits. -/
theorem ofDigits_toDigits {n : Nat} (hn : n ≤ Token.maxNumber) :
    Token.ofDigits (Nat.toDigits 10 n) = .number n := by
  have hlength : (Nat.toDigits 10 n).length ≤ 20 := by
    refine (Nat.length_toDigits_le_iff (by decide) (by decide)).mpr ?_
    have : Token.maxNumber < 10 ^ 20 := by decide
    omega
  rw [Token.ofDigits, Nat.ofDigitChars_ten_toDigits, if_pos ⟨hlength, hn⟩]

theorem tokensOf_number {n : Nat} (hn : n ≤ Token.maxNumber) {rest : List Char}
    (hrest : ∀ c ∈ rest.head?, c.isDigit = false) :
    tokensOf (Nat.toDigits 10 n ++ rest) = .number n :: tokensOf rest := by
  have hdigits : ∀ c ∈ Nat.toDigits 10 n, c.isDigit = true := fun c hc =>
    Nat.isDigit_of_mem_toDigits (by decide) (by decide) hc
  rw [tokensOf_digits Nat.toDigits_ne_nil hdigits hrest, ofDigits_toDigits hn]

/-! ## 6. Operators -/

/-- The spelling of an operator begins with a character that begins nothing else. -/
theorem Op.exists_text_eq (o : Op) : ∃ c cs, o.text.toList = c :: cs ∧ c ≠ '\x00' ∧
    isSpace c = false ∧ c.isDigit = false ∧ isWordChar c = false ∧ c ≠ '"' ∧ c ≠ '\'' := by
  cases o <;> exact ⟨_, _, rfl, by decide⟩

theorem Op.ofPiece?_text (o : Op) : Token.ofPiece? o.text.toList = some (.op o) := by
  obtain ⟨c, cs, htext, -, hspace, hdigit, hword, hquote, hsingle⟩ := o.exists_text_eq
  have hof : Op.ofText? (String.ofList (c :: cs)) = some o := by
    rw [← htext, String.ofList_toList, Op.ofText?_text]
  simp only [htext, Token.ofPiece?, hspace, hdigit, hword, beq_iff_eq, hquote, hsingle, hof,
    Bool.false_eq_true, if_false]

theorem cutsOff_op {o : Op} {c : Char} (ho : o.text = String.ofList [c]) {rest : List Char}
    (hrest : ∀ d ∈ rest.head?, isOpPair c d = false) : CutsOff [c] rest (some (.op o)) := by
  obtain ⟨d, ds, htext, hnul, hspace, hdigit, hword, hquote, hsingle⟩ := o.exists_text_eq
  obtain ⟨rfl, rfl⟩ : c = d ∧ ds = [] := by simpa [ho] using htext
  refine ⟨c, [], rfl, hnul, ?_, htext ▸ o.ofPiece?_text⟩
  cases rest with
  | nil => simp [splitPiece, hspace, hdigit, hword, hquote, hsingle]
  | cons d rest =>
    have hd : isOpPair c d = false := hrest d rfl
    simp [splitPiece, hspace, hdigit, hword, hquote, hsingle, hd]

/-- An operator of one character, if it makes no pair with the next one. -/
theorem tokensOf_op {o : Op} {c : Char} (ho : o.text = String.ofList [c]) {rest : List Char}
    (hrest : ∀ d ∈ rest.head?, isOpPair c d = false) :
    tokensOf (c :: rest) = .op o :: tokensOf rest :=
  (cutsOff_op ho hrest).tokensOf_append

theorem isOpPair_iff {c d : Char} : isOpPair c d = true ↔ ∃ o : Op, o.text.toList = [c, d] := by
  simp [isOpPair, Op.mem_all]

theorem cutsOff_pair {o : Op} {c d : Char} (ho : o.text = String.ofList [c, d])
    (rest : List Char) : CutsOff [c, d] rest (some (.op o)) := by
  obtain ⟨c', cs, htext, hnul, hspace, hdigit, hword, hquote, hsingle⟩ := o.exists_text_eq
  obtain ⟨rfl, rfl⟩ : c = c' ∧ [d] = cs := by simpa [ho] using htext
  have hpair : isOpPair c d = true := isOpPair_iff.mpr ⟨o, htext⟩
  refine ⟨c, [d], rfl, hnul, ?_, htext ▸ o.ofPiece?_text⟩
  simp [splitPiece, hspace, hdigit, hword, hquote, hsingle, hpair]

/-- An operator of two characters, whatever follows. -/
theorem tokensOf_pair {o : Op} {c d : Char} (ho : o.text = String.ofList [c, d])
    (rest : List Char) : tokensOf (c :: d :: rest) = .op o :: tokensOf rest :=
  (cutsOff_pair ho rest).tokensOf_append

/-- The characters that begin no operator of two characters. -/
theorem isOpPair_of_lone {c : Char}
    (hc : c ∈ ['(', '[', ']', ',', ';', '%', '+', '-', '*', '/', '#', '<', '>']) (d : Char) :
    isOpPair c d = false := by
  simp only [List.mem_cons, List.not_mem_nil, or_false] at hc
  rcases hc with rfl | rfl | rfl | rfl | rfl | rfl | rfl | rfl | rfl | rfl | rfl | rfl | rfl <;> rfl

/-- An operator that is a single character which begins no pair, whatever follows. -/
theorem tokensOf_lone {o : Op} {c : Char} (ho : o.text = String.ofList [c])
    (hc : c ∈ ['(', '[', ']', ',', ';', '%', '+', '-', '*', '/', '#', '<', '>'])
    (rest : List Char) : tokensOf (c :: rest) = .op o :: tokensOf rest :=
  tokensOf_op ho fun d _ => isOpPair_of_lone hc d

end DiceNotation
