/-
# A text is cut in one way only

What the first piece of a text is can be said without cutting it (`FirstPiece`): a run of blanks, of
digits or of letters that cannot be prolonged, a quoted character, a string up to its closing quote
or to the end of the text, the longest operator that stands there, or else a single character.  A
text is **split** into such pieces, one behind the other, up to its end or to a NUL that stands
where a piece would begin (`Splits`).

Every text is split in exactly one way, and its tokens are those of the pieces
(`Token.ofText_partition`).  On one piece the relation and the cutting agree in both directions:
what is a first piece is cut off (`FirstPiece.cutsOff`), and whatever a text begins with, some first
piece stands there (`exists_firstPiece`).  By induction they agree on whole texts.
-/
import DiceNotation.Proofs.Token.Legible
import Mathlib.Data.List.Basic

namespace DiceNotation

/-! ## 1. The first piece -/

/-- `piece` is the first piece of the text `piece ++ rest`, and `token` is what it stands for. -/
inductive FirstPiece : (piece rest : List Char) → (token : Option Token) → Prop
  | blanks {cs rest : List Char} (h : Run isSpace cs rest) : FirstPiece cs rest none
  | number {cs rest : List Char} (h : Run Char.isDigit cs rest) (hlength : cs.length ≤ 20)
      (hvalue : Nat.ofDigitChars 10 cs 0 ≤ Token.maxNumber) :
      FirstPiece cs rest (some (.number (Nat.ofDigitChars 10 cs 0)))
  /-- A number that has too many digits or is too large. -/
  | overlong {cs rest : List Char} (h : Run Char.isDigit cs rest)
      (hlong : 20 < cs.length ∨ Token.maxNumber < Nat.ofDigitChars 10 cs 0) :
      FirstPiece cs rest (some (.malformed (String.ofList cs)))
  | word {cs rest : List Char} (h : Run isWordChar cs rest) :
      FirstPiece cs rest (some (.word (String.ofList cs)))
  /-- Any character between two single quotes, a quote and a NUL included. -/
  | character (c : Char) (rest : List Char) : FirstPiece ['\'', c, '\''] rest (some (.char c))
  | string {content : List Char} (h : '"' ∉ content) (rest : List Char) :
      FirstPiece ('"' :: (content ++ ['"'])) rest (some (.string (String.ofList content)))
  /-- A string that is not closed takes the whole rest of the text. -/
  | unclosed {content : List Char} (h : '"' ∉ content) :
      FirstPiece ('"' :: content) [] (some (.malformed (String.ofList ('"' :: content))))
  | operator {o : Op} {rest : List Char}
      (hlongest : ∀ o' : Op, o'.text.toList <+: o.text.toList ++ rest →
        o'.text.toList.length ≤ o.text.toList.length) :
      FirstPiece o.text.toList rest (some (.op o))
  /-- A character that begins none of the pieces above, and does not end the text. -/
  | stray {c : Char} {rest : List Char} (hnul : c ≠ '\x00') (hspace : isSpace c = false)
      (hdigit : c.isDigit = false) (hword : isWordChar c = false) (hdouble : c ≠ '"')
      (hsingle : ∀ x more, c :: rest ≠ '\'' :: x :: '\'' :: more)
      (hop : ∀ o : Op, ¬ o.text.toList <+: c :: rest) : FirstPiece [c] rest (some (.stray c))

theorem run_takeWhile {p : Char → Bool} {c : Char} (hc : p c = true) (rest : List Char) :
    Run p (c :: rest.takeWhile p) (rest.dropWhile p) where
  ne_nil := List.cons_ne_nil _ _
  all := List.forall_mem_cons.mpr
    ⟨hc, fun d hd => List.all_eq_true.mp List.all_takeWhile d hd⟩
  ends d hd := by
    have hhead := List.head?_dropWhile_not p rest
    rw [Option.mem_def.mp hd] at hhead
    simpa using hhead

/-! ## 2. Operators -/

theorem Op.length_text (o : Op) : o.text.toList.length = 1 ∨ o.text.toList.length = 2 := by
  cases o <;> decide

theorem Op.ofText?_eq_none_iff {spelling : String} :
    ofText? spelling = none ↔ ∀ o : Op, o.text ≠ spelling := by
  simp [ofText?, Op.mem_all]

/-! ## 3. The relation and the cutting agree -/

theorem cutsOff_operator {o : Op} {rest : List Char}
    (hlongest : ∀ o' : Op, o'.text.toList <+: o.text.toList ++ rest →
      o'.text.toList.length ≤ o.text.toList.length) :
    CutsOff o.text.toList rest (some (.op o)) := by
  rcases o.length_text with hone | htwo
  · obtain ⟨c, htext⟩ := List.length_eq_one_iff.mp hone
    rw [htext]
    refine cutsOff_op (String.toList_inj.mp (by simp [htext])) fun d hd => ?_
    -- two characters would make a longer operator
    obtain ⟨more, rfl⟩ := List.head?_eq_some_iff.mp hd
    refine Bool.eq_false_iff.mpr fun hpair => ?_
    obtain ⟨o', ho'⟩ := isOpPair_iff.mp hpair
    have hle := hlongest o' (by simp [ho', htext])
    simp [ho', htext] at hle
  · obtain ⟨c, d, htext⟩ := List.length_eq_two.mp htwo
    rw [htext]
    exact cutsOff_pair (String.toList_inj.mp (by simp [htext])) rest

theorem FirstPiece.cutsOff {piece rest : List Char} {token : Option Token}
    (h : FirstPiece piece rest token) : CutsOff piece rest token := by
  cases h with
  | blanks h =>
    obtain ⟨d, ds, rfl, hd, htake, hdrop⟩ := h.exists_cons
    refine ⟨d, ds, rfl, ne_nul_of_isSpace hd, ?_, ?_⟩
    · simp [splitPiece, hd, htake, hdrop]
    · simp [Token.ofPiece?, hd]
  | number h hlength hvalue =>
    have hcut := cutsOff_digits h
    rwa [Token.ofDigits, if_pos ⟨hlength, hvalue⟩] at hcut
  | overlong h hlong =>
    have hcut := cutsOff_digits h
    rwa [Token.ofDigits, if_neg (by omega)] at hcut
  | word h => exact cutsOff_word h
  | character c rest => exact ⟨'\'', [c, '\''], rfl, by decide, rfl, rfl⟩
  | @string content h rest =>
    have hcut : CutsOff ('"' :: (content ++ ['"'])) rest _ := cutsOff_quoted h (.inl rfl)
    simpa [Token.ofQuoted] using hcut
  | @unclosed content h =>
    have hcut : CutsOff ('"' :: (content ++ [])) [] _ := cutsOff_quoted h (.inr ⟨rfl, rfl⟩)
    have hlast : content.getLast? ≠ some '"' := fun hlast => h (List.mem_of_getLast? hlast)
    simpa [Token.ofQuoted, hlast] using hcut
  | operator hlongest => exact cutsOff_operator hlongest
  | @stray c rest hnul hspace hdigit hword hdouble hsingle hop =>
    have hnone : Op.ofText? (String.ofList [c]) = none := by
      rw [Op.ofText?_eq_none_iff]
      intro o ho
      refine hop o ?_
      simp [ho]
    have hpair : ∀ d more, rest = d :: more → isOpPair c d = false := by
      rintro d more rfl
      refine Bool.eq_false_iff.mpr fun hpair => ?_
      obtain ⟨o, ho⟩ := isOpPair_iff.mp hpair
      exact hop o (by simp [ho])
    refine ⟨c, [], rfl, hnul, ?_, ?_⟩
    · unfold splitPiece
      simp only [hspace, hdigit, hword, Bool.false_eq_true, if_false, beq_iff_eq, hdouble,
        List.nil_append]
      split
      · next hc =>
        subst hc
        split
        · next x more => exact absurd rfl (hsingle x more)
        · rfl
      · split
        · next d more => simp [hpair d more rfl]
        · rfl
    · simp only [Token.ofPiece?, hspace, hdigit, hword, Bool.false_eq_true, if_false, beq_iff_eq,
        hdouble, hnone]
      split <;> rfl

/-- A run of digits stands for a number or for a malformed piece. -/
theorem firstPiece_digits {cs rest : List Char} (h : Run Char.isDigit cs rest) :
    FirstPiece cs rest (some (.ofDigits cs)) := by
  unfold Token.ofDigits
  split
  · next hfits => exact .number h hfits.1 hfits.2
  · exact .overlong h (by omega)

/-- Of the operators that begin a text one is the longest. -/
theorem exists_firstPiece_operator {text : List Char} {o : Op} (ho : o.text.toList <+: text) :
    ∃ piece rest token, piece ++ rest = text ∧ FirstPiece piece rest token := by
  have hlongest : ∃ o : Op, o.text.toList <+: text ∧
      ∀ o' : Op, o'.text.toList <+: text → o'.text.toList.length ≤ o.text.toList.length := by
    by_cases hpair : ∃ o : Op, o.text.toList <+: text ∧ o.text.toList.length = 2
    · obtain ⟨o₂, ho₂, htwo⟩ := hpair
      refine ⟨o₂, ho₂, fun o' _ => ?_⟩
      have := o'.length_text
      omega
    · refine ⟨o, ho, fun o' ho' => ?_⟩
      have hone := o'.length_text.resolve_right fun htwo => hpair ⟨o', ho', htwo⟩
      have := o.length_text
      omega
  obtain ⟨o₁, ⟨rest, rfl⟩, hmax⟩ := hlongest
  exact ⟨_, rest, _, rfl, .operator hmax⟩

/-- Some piece begins every text that does not begin with a NUL. -/
theorem exists_firstPiece {c : Char} (hc : c ≠ '\x00') (text : List Char) :
    ∃ piece rest token, piece ++ rest = c :: text ∧ FirstPiece piece rest token := by
  have hrun : ∀ p : Char → Bool, c :: text.takeWhile p ++ text.dropWhile p = c :: text := by
    intro p
    rw [List.cons_append, List.takeWhile_append_dropWhile]
  cases hspace : isSpace c with
  | true => exact ⟨_, _, _, hrun isSpace, .blanks (run_takeWhile hspace text)⟩
  | false =>
  cases hdigit : c.isDigit with
  | true =>
    exact ⟨_, _, _, hrun Char.isDigit, firstPiece_digits (run_takeWhile hdigit text)⟩
  | false =>
  cases hword : isWordChar c with
  | true => exact ⟨_, _, _, hrun isWordChar, .word (run_takeWhile hword text)⟩
  | false =>
  by_cases hdouble : c = '"'
  · subst hdouble
    by_cases hclosed : '"' ∈ text
    · obtain ⟨content, rest, rfl, hcontent⟩ := List.eq_append_cons_of_mem hclosed
      exact ⟨_, rest, _, by simp, .string hcontent rest⟩
    · exact ⟨_, [], _, by simp, .unclosed hclosed⟩
  · by_cases hsingle : ∃ x more, c :: text = '\'' :: x :: '\'' :: more
    · obtain ⟨x, more, htext⟩ := hsingle
      exact ⟨_, more, _, htext.symm, .character x more⟩
    · by_cases hop : ∃ o : Op, o.text.toList <+: c :: text
      · obtain ⟨o, ho⟩ := hop
        exact exists_firstPiece_operator ho
      · refine ⟨[c], text, _, rfl, .stray hc hspace hdigit hword hdouble ?_ ?_⟩
        · exact fun x more htext => hsingle ⟨x, more, htext⟩
        · exact fun o ho => hop ⟨o, ho⟩

/-! ## 4. Whole texts -/

/-- The text consists of pieces, one behind the other and each with what it stands for, and of
what is left behind them: nothing, or something that begins with a NUL. -/
inductive Splits : (text : List Char) → (parts : List (List Char × Option Token)) →
    (left : List Char) → Prop
  | ends {left : List Char} (h : left = [] ∨ left.head? = some '\x00') : Splits left [] left
  | part {text piece rest left : List Char} {token : Option Token}
      {parts : List (List Char × Option Token)} (htext : piece ++ rest = text)
      (hpiece : FirstPiece piece rest token) (h : Splits rest parts left) :
      Splits text ((piece, token) :: parts) left

theorem exists_splits (text : List Char) : ∃ parts left, Splits text parts left := by
  induction text using pieces.induct with
  | case1 => exact ⟨[], [], .ends (.inl rfl)⟩
  | case2 c rest hc =>
    obtain rfl : c = '\x00' := by simpa using hc
    exact ⟨[], _, .ends (.inr rfl)⟩
  | case3 c text hc ih =>
    obtain ⟨piece, rest, token, htext, hpiece⟩ := exists_firstPiece (by simpa using hc) text
    obtain ⟨d, cs, rfl, -, hcut, -⟩ := hpiece.cutsOff
    rw [List.cons_append] at htext
    obtain ⟨rfl, rfl⟩ := List.cons.inj htext
    rw [hcut] at ih
    obtain ⟨parts, left, h⟩ := ih
    exact ⟨_, left, .part rfl hpiece h⟩

namespace Splits

variable {text left : List Char} {parts : List (List Char × Option Token)}

theorem flatten (h : Splits text parts left) : (parts.map Prod.fst).flatten ++ left = text := by
  induction h with
  | ends h => rfl
  | part htext hpiece h ih =>
    rw [List.map_cons, List.flatten_cons, List.append_assoc, ih, htext]

/-- No part is empty, and none begins with a NUL. -/
theorem begins (h : Splits text parts left) :
    ∀ part ∈ parts, ∃ c cs, part.1 = c :: cs ∧ c ≠ '\x00' := by
  induction h with
  | ends h => exact fun part hpart => absurd hpart List.not_mem_nil
  | part htext hpiece h ih =>
    obtain ⟨c, cs, hcons, hnul, -⟩ := hpiece.cutsOff
    exact List.forall_mem_cons.mpr ⟨⟨c, cs, hcons, hnul⟩, ih⟩

theorem left_cases (h : Splits text parts left) : left = [] ∨ left.head? = some '\x00' := by
  induction h with
  | ends h => exact h
  | part htext hpiece h ih => exact ih

/-- The tokens of a text are those of its parts. -/
theorem tokensOf_eq (h : Splits text parts left) : tokensOf text = parts.filterMap Prod.snd := by
  induction h with
  | @ends left h =>
    rw [tokensOf]
    rcases h with rfl | hnul
    · rw [pieces]
      rfl
    · obtain ⟨rest, rfl⟩ := List.head?_eq_some_iff.mp hnul
      rw [pieces, if_pos (beq_self_eq_true _)]
      rfl
  | @part text piece rest left token parts htext hpiece h ih =>
    rw [← htext, hpiece.cutsOff.tokensOf_append, ih, List.filterMap_cons]
    cases token <;> rfl

/-- **There is one way only to split a text.** -/
theorem unique (h : Splits text parts left) {parts' : List (List Char × Option Token)}
    {left' : List Char} (h' : Splits text parts' left') : parts' = parts ∧ left' = left := by
  induction h generalizing parts' left' with
  | ends h =>
    cases h' with
    | ends => exact ⟨rfl, rfl⟩
    | part htext hpiece _ =>
      obtain ⟨c, cs, rfl, hnul, -⟩ := hpiece.cutsOff
      rw [← htext] at h
      simp [hnul] at h
  | part htext hpiece h ih =>
    obtain ⟨c, cs, rfl, hnul, hcut, htoken⟩ := hpiece.cutsOff
    cases h' with
    | ends h' =>
      rw [← htext] at h'
      simp [hnul] at h'
    | part htext' hpiece' h' =>
      obtain ⟨c', cs', rfl, -, hcut', htoken'⟩ := hpiece'.cutsOff
      have hsame := htext'.trans htext.symm
      rw [List.cons_append, List.cons_append] at hsame
      obtain ⟨rfl, hrest⟩ := List.cons.inj hsame
      rw [hrest, hcut] at hcut'
      obtain ⟨hpieces, rfl⟩ := Prod.mk.inj hcut'
      obtain ⟨rfl, rfl⟩ := ih h'
      rw [← htoken', ← hpieces, htoken]
      exact ⟨rfl, rfl⟩

end Splits

/-- **A text is cut in exactly one way, and its tokens are those of the pieces.**  There is one way
only to split a text into pieces up to its end or to a NUL that stands where a piece would begin.
No character is lost or moved, no piece is empty, and the tokens are, in their order, what the
pieces stand for. -/
theorem Token.ofText_partition (text : String) :
    ∃ (parts : List (List Char × Option Token)) (left : List Char),
      Splits text.toList parts left ∧
      (∀ parts' left', Splits text.toList parts' left' → parts' = parts ∧ left' = left) ∧
      (parts.map Prod.fst).flatten ++ left = text.toList ∧
      (∀ part ∈ parts, ∃ c cs, part.1 = c :: cs ∧ c ≠ '\x00') ∧
      (left = [] ∨ left.head? = some '\x00') ∧
      ofText text = parts.filterMap Prod.snd := by
  obtain ⟨parts, left, h⟩ := exists_splits text.toList
  exact ⟨parts, left, h, fun _ _ => h.unique, h.flatten, h.begins, h.left_cases, h.tokensOf_eq⟩

end DiceNotation
