/-
# The text of a value reads back as the value

The text of a value is an expression again, and evaluating it gives the value itself
(`evaluate_text`).  This needs integers that a number token can have, no floating point numbers, and
no quoted text with a character that quoting changes or that ends it.

The way there: a value has a phrase (`Value.phrase`), whose words are the tokens of its text
(`tokensOf_text`) and which the grammar therefore has; the reader folds the tree of the phrase, and
folding it with the actions of evaluation gives the value without a roll or a step
(`fold_phrase`).
-/
import DiceNotation.Proofs.Evaluation.Forcing
import DiceNotation.Proofs.Grammar.Derivation
import DiceNotation.Proofs.Token.Cutting

namespace DiceNotation

/-! ## 1. Values that read back -/

/-- A character that quoting leaves as it is. -/
def isPlain (c : Char) : Bool := c != '"' && c != '\\' && c != '\n'

namespace Value

mutual

/-- A value whose text says the value: integers of at most 64 bits, characters, and arrays of such
values of which those that are shown as quoted texts have plain characters only. -/
def readsBack : Value → Bool
  | scalar (.int n) => n.natAbs ≤ Token.maxNumber
  | scalar (.real _) => false
  | scalar (.char _) => true
  | array items => (chars? items).all (·.all isPlain) && allReadBack items

/-- Some values whose texts say the values. -/
def allReadBack : List Value → Bool
  | [] => true
  | v :: vs => readsBack v && allReadBack vs

end

mutual

/-- How deep the text of a value nests.  A minus sign is a level, a quoted text is none. -/
def levels : Value → Nat
  | scalar (.int n) => if n < 0 then 2 else 1
  | scalar _ => 1
  | array [] => 1
  | array (v :: vs) =>
    match chars? (v :: vs) with
    | some _ => 1
    | none => max (levels v) (levelsOf vs) + 1

/-- How deep the texts of some values nest. -/
def levelsOf : List Value → Nat
  | [] => 0
  | v :: vs => max (levels v) (levelsOf vs)

end

mutual

/-- The phrase that the text of a value is written for. -/
def phrase : Value → Phrase
  | scalar (.int n) =>
    if n < 0 then .unary .minus (.literal (.number n.natAbs)) else .literal (.number n.natAbs)
  | scalar (.real _) => .emptyArray
  | scalar (.char c) => .literal (.char c)
  | array [] => .emptyArray
  | array (v :: vs) =>
    match chars? (v :: vs) with
    | some cs => .literal (.string (String.ofList cs))
    | none => .array (phrase v) (phrases vs) false

/-- The phrases of some values. -/
def phrases : List Value → List Phrase
  | [] => []
  | v :: vs => phrase v :: phrases vs

end

/-! ## 2. The text of a value -/

/-- The text of the elements of an array behind the first one. -/
def furtherText : List Value → List Char
  | [] => []
  | v :: vs => ',' :: ' ' :: (v.text.toList ++ furtherText vs)

theorem toList_intercalate_texts (v : Value) (vs : List Value) :
    (", ".intercalate (text v :: texts vs)).toList = v.text.toList ++ furtherText vs := by
  induction vs generalizing v with
  | nil => simp [texts, furtherText]
  | cons w vs ih => simp [texts, furtherText, String.intercalate_cons_cons, ih]

theorem toList_text_array {v : Value} {vs : List Value} (h : chars? (v :: vs) = none) :
    (array (v :: vs)).text.toList = '[' :: (v.text.toList ++ (furtherText vs ++ [']'])) := by
  rw [text, h]
  simp only [String.toList_append, toList_intercalate_texts, List.append_assoc]
  rfl

theorem flatMap_quoteChar {cs : List Char} (h : cs.all isPlain = true) :
    cs.flatMap quoteChar = cs := by
  induction cs with
  | nil => rfl
  | cons c cs ih =>
    obtain ⟨hc, hcs⟩ := Bool.and_eq_true_iff.mp h
    have hquote : quoteChar c = [c] := by
      simp only [isPlain, Bool.and_eq_true, bne_iff_ne, ne_eq] at hc
      simp [quoteChar, hc]
    rw [List.flatMap_cons, hquote, ih hcs, List.singleton_append]

theorem toList_text_quoted {v : Value} {vs : List Value} {cs : List Char}
    (h : chars? (v :: vs) = some cs) :
    (array (v :: vs)).text.toList = '"' :: (cs.flatMap quoteChar ++ ['"']) := by
  simp [text, h, quote]

theorem toList_text_chars {v : Value} {vs : List Value} {cs : List Char}
    (h : chars? (v :: vs) = some cs) (hplain : cs.all isPlain = true) :
    (array (v :: vs)).text.toList = '"' :: (cs ++ ['"']) := by
  rw [toList_text_quoted h, flatMap_quoteChar hplain]

theorem toList_text_char (c : Char) : (scalar (.char c)).text.toList = ['\'', c, '\''] := by
  simp [text, Scalar.text, toString]

theorem isWritable_of_natAbs_le {n : Int} (h : n.natAbs ≤ Token.maxNumber) :
    DiceNotation.isWritable n = true := by
  have hsmall : Token.maxNumber < Nat.pow 10 20 := by decide
  have hbound : Nat.pow 10 20 ≤ numeralBound := by
    have hdigits : 20 ≤ maxNumeralDigits := by decide
    unfold numeralBound
    -- the power itself is not for evaluation
    generalize maxNumeralDigits = k at hdigits ⊢
    exact Nat.pow_le_pow_right (by decide) hdigits
  exact decide_eq_true (Nat.lt_of_le_of_lt h (Nat.lt_of_lt_of_le hsmall hbound))

theorem toList_text_int {n : Int} (h : DiceNotation.isWritable n = true) :
    (scalar (.int n)).text.toList =
      if n < 0 then '-' :: Nat.toDigits 10 n.natAbs else Nat.toDigits 10 n.natAbs := by
  rw [text, Scalar.text, integerText, if_pos h, Int.toString_eq_repr, Int.repr_eq_if]
  by_cases hn : n < 0
  · have hneg : ¬ 0 ≤ n := Int.not_le.mpr hn
    have habs : (-n).toNat = n.natAbs := by omega
    simp [hn, hneg, habs]
  · have hpos : 0 ≤ n := Int.not_lt.mp hn
    have habs : n.toNat = n.natAbs := by omega
    simp [hn, hpos, habs]

/-! ## 3. The tokens of the text -/

/-- What may stand behind a value in the text of a value: nothing, or a comma or bracket. -/
def Closes (rest : List Char) : Prop := ∀ c ∈ rest.head?, c = ',' ∨ c = ']'

theorem Closes.not_digit {rest : List Char} (h : Closes rest) :
    ∀ c ∈ rest.head?, c.isDigit = false := by
  intro c hc
  rcases h c hc with rfl | rfl <;> rfl

theorem closes_furtherText (vs : List Value) (rest : List Char) :
    Closes (furtherText vs ++ ']' :: rest) := by
  intro c hc
  cases vs with
  | nil => exact .inr (Option.some.inj hc).symm
  | cons v vs => exact .inl (Option.some.inj hc).symm

theorem tokensOf_int {n : Int} (h : n.natAbs ≤ Token.maxNumber) {rest : List Char}
    (hrest : Closes rest) :
    tokensOf ((scalar (.int n)).text.toList ++ rest) =
      (phrase (.scalar (.int n))).words ++ tokensOf rest := by
  rw [toList_text_int (isWritable_of_natAbs_le h), phrase]
  by_cases hn : n < 0
  · have hminus : Op.minus.text = String.ofList ['-'] := rfl
    rw [if_pos hn, if_pos hn, List.cons_append,
      tokensOf_lone hminus (by decide),
      tokensOf_number h hrest.not_digit]
    rfl
  · rw [if_neg hn, if_neg hn, tokensOf_number h hrest.not_digit]
    rfl

theorem tokensOf_chars {v : Value} {vs : List Value} {cs : List Char}
    (h : chars? (v :: vs) = some cs) (hplain : cs.all isPlain = true) (rest : List Char) :
    tokensOf ((array (v :: vs)).text.toList ++ rest) =
      (phrase (.array (v :: vs))).words ++ tokensOf rest := by
  have hquote : '"' ∉ cs := by
    intro hmem
    exact absurd (List.all_eq_true.mp hplain _ hmem) (by decide)
  rw [toList_text_chars h hplain, phrase, h, List.cons_append, List.append_assoc,
    List.singleton_append, tokensOf_string hquote]
  rfl

mutual

/-- The tokens of the text of a value are the words of its phrase. -/
theorem tokensOf_text : (v : Value) → v.readsBack = true → ∀ {rest : List Char}, Closes rest →
    tokensOf (v.text.toList ++ rest) = v.phrase.words ++ tokensOf rest
  | scalar (.int n), h, rest, hrest => tokensOf_int (by simpa [readsBack] using h) hrest
  | scalar (.real x), h, _, _ => by simp [readsBack] at h
  | scalar (.char c), _, rest, _ => by
    rw [toList_text_char]
    exact tokensOf_char c rest
  | array [], _, rest, _ => by
    have hopen : Op.openBracket.text = String.ofList ['['] := rfl
    have hclose : Op.closeBracket.text = String.ofList [']'] := rfl
    change tokensOf ('[' :: ']' :: rest) = _
    rw [tokensOf_lone hopen (by decide), tokensOf_lone hclose (by decide)]
    rfl
  | array (v :: vs), h, rest, hrest => by
    obtain ⟨hplain, hitems⟩ := Bool.and_eq_true_iff.mp h
    obtain ⟨hv, hvs⟩ := Bool.and_eq_true_iff.mp hitems
    cases hchars : chars? (v :: vs) with
    | some cs =>
      rw [hchars] at hplain
      exact tokensOf_chars hchars hplain rest
    | none =>
      have hopen : Op.openBracket.text = String.ofList ['['] := rfl
      rw [toList_text_array hchars, phrase, hchars, List.cons_append,
        tokensOf_lone hopen (by decide)]
      simp only [List.append_assoc, List.singleton_append]
      rw [tokensOf_text v hv (closes_furtherText vs rest), tokensOf_furtherText vs hvs rest]
      simp [Phrase.words, arrayClose]

theorem tokensOf_furtherText : (vs : List Value) → allReadBack vs = true → ∀ rest : List Char,
    tokensOf (furtherText vs ++ ']' :: rest) =
      furtherWords (phrases vs) ++ .op .closeBracket :: tokensOf rest
  | [], _, rest => by
    have hclose : Op.closeBracket.text = String.ofList [']'] := rfl
    rw [furtherText, List.nil_append, tokensOf_lone hclose (by decide)]
    rfl
  | v :: vs, h, rest => by
    obtain ⟨hv, hvs⟩ := Bool.and_eq_true_iff.mp h
    have hcomma : Op.comma.text = String.ofList [','] := rfl
    simp only [furtherText, List.cons_append, List.append_assoc]
    rw [tokensOf_lone hcomma (by decide), tokensOf_space rfl,
      tokensOf_text v hv (closes_furtherText vs rest), tokensOf_furtherText vs hvs rest]
    simp [phrases, furtherWords]

end

/-! ## 4. The phrase of a value -/

theorem fits_phrase_int (n : Int) (m : Nat) : (phrase (.scalar (.int n))).Fits m := by
  rw [phrase]
  split
  · exact .unary rfl (.literal rfl)
  · exact .literal rfl

mutual

/-- The phrase of a value belongs to the grammar, as an operand of any power. -/
theorem fits_phrase : (v : Value) → (m : Nat) → v.phrase.Fits m
  | scalar (.int n), m => fits_phrase_int n m
  | scalar (.real _), _ => .emptyArray
  | scalar (.char _), _ => .literal rfl
  | array [], _ => .emptyArray
  | array (v :: vs), m => by
    rw [phrase]
    split
    · exact .literal rfl
    · exact .array (fits_phrase v _) (fits_phrases vs)

theorem fits_phrases : (vs : List Value) → ∀ p ∈ phrases vs, p.Fits elementPower
  | [], _, hp => by simp [phrases] at hp
  | v :: vs, p, hp => by
    rcases List.mem_cons.mp hp with rfl | hp
    · exact fits_phrase v _
    · exact fits_phrases vs p hp

end

mutual

theorem nesting_phrase : (v : Value) → v.phrase.nesting = v.levels
  | scalar (.int n) => by
    rw [phrase, levels]
    split <;> rfl
  | scalar (.real _) => rfl
  | scalar (.char _) => rfl
  | array [] => rfl
  | array (v :: vs) => by
    rw [phrase, levels]
    split
    · rfl
    · rw [Phrase.nesting, nesting_phrase v, nestingOf_phrases vs]

theorem nestingOf_phrases : (vs : List Value) → nestingOf (phrases vs) = levelsOf vs
  | [] => rfl
  | v :: vs => by rw [phrases, nestingOf, nesting_phrase v, nestingOf_phrases vs, levelsOf]

end

/-- The text of a value is written for its phrase. -/
theorem derives_text {v : Value} (h : v.readsBack = true) :
    v.phrase.Derives (Token.ofText v.text) := by
  have htokens := tokensOf_text v h (by simp [Closes] : Closes [])
  rw [List.append_nil, tokensOf_nil, List.append_nil] at htokens
  rw [ofText_eq_tokensOf, htokens]
  exact ⟨fits_phrase v 0, .self _⟩

/-! ## 5. Evaluating the phrase of a value -/

/-- The elements of an array that is shown as a quoted text. -/
theorem eq_map_char_of_chars? : {vs : List Value} → {cs : List Char} → chars? vs = some cs →
    vs = cs.map char
  | [], cs, h => by
    obtain rfl := Option.some.inj h
    rfl
  | scalar (.char c) :: vs, cs, h => by
    obtain ⟨ds, hds, rfl⟩ := Option.map_eq_some_iff.mp h
    rw [List.map_cons, eq_map_char_of_chars? hds]
  | scalar (.int _) :: _, _, h => by simp [chars?] at h
  | scalar (.real _) :: _, _, h => by simp [chars?] at h
  | array _ :: _, _, h => by simp [chars?] at h

theorem ofValues_map_char (cs : List Char) :
    Operand.ofValues (cs.map char) = cs.map fun c => .scalar (.char c) := by
  rw [Operand.ofValues_eq_map, List.map_map]
  rfl

theorem fold_phrase_int (n : Int) :
    Actions.evaluation.fold (phrase (.scalar (.int n))).tree =
      pure (Operand.ofValue (.scalar (.int n))) := by
  rw [phrase]
  by_cases hn : n < 0
  · have hneg : -(n.natAbs : Int) = n := by omega
    have hminus : Meaning.unary (.scalar (.int n.natAbs)) .minus =
        pure (.scalar (.int (-(n.natAbs : Int)))) := rfl
    rw [if_pos hn]
    simp only [Phrase.tree, Actions.fold, Actions.evaluation, Meaning.literal, pure_bind, hminus,
      hneg, Operand.ofValue]
  · have hpos : (n.natAbs : Int) = n := by omega
    rw [if_neg hn]
    simp only [Phrase.tree, Actions.fold, Actions.evaluation, Meaning.literal, hpos,
      Operand.ofValue]

mutual

/-- Evaluating the phrase of a value gives the value, and does nothing. -/
theorem fold_phrase : (v : Value) → v.readsBack = true →
    Actions.evaluation.fold v.phrase.tree = pure (Operand.ofValue v)
  | scalar (.int n), _ => fold_phrase_int n
  | scalar (.real _), h => by simp [readsBack] at h
  | scalar (.char _), _ => rfl
  | array [], _ => rfl
  | array (v :: vs), h => by
    obtain ⟨-, hitems⟩ := Bool.and_eq_true_iff.mp h
    obtain ⟨hv, hvs⟩ := Bool.and_eq_true_iff.mp hitems
    rw [phrase]
    split
    · next cs hchars =>
      rw [eq_map_char_of_chars? hchars, Operand.ofValue, ofValues_map_char]
      simp [Phrase.tree, Actions.fold, Actions.evaluation, Meaning.literal]
    · have hfirst := fold_phrase v hv
      have hmore := foldAll_phrases vs hvs
      simp [Phrase.tree, Actions.fold, Actions.foldAll, hfirst, hmore]
      rfl

theorem foldAll_phrases : (vs : List Value) → allReadBack vs = true →
    Actions.evaluation.foldAll (treesOf (phrases vs)) = pure (Operand.ofValues vs)
  | [], _ => rfl
  | v :: vs, h => by
    obtain ⟨hv, hvs⟩ := Bool.and_eq_true_iff.mp h
    simp [phrases, treesOf, Actions.foldAll, fold_phrase v hv, foldAll_phrases vs hvs,
      Operand.ofValues]

end

mutual

/-- Every integer in a value that reads back can be written. -/
theorem isWritable_of_readsBack : (v : Value) → v.readsBack = true → v.isWritable = true
  | scalar (.int _), h => isWritable_of_natAbs_le (by simpa [readsBack] using h)
  | scalar (.real _), h => by simp [readsBack] at h
  | scalar (.char _), _ => rfl
  | array vs, h => areWritable_of_allReadBack vs (Bool.and_eq_true_iff.mp h).2

theorem areWritable_of_allReadBack : (vs : List Value) → allReadBack vs = true →
    areWritable vs = true
  | [], _ => rfl
  | v :: vs, h => by
    obtain ⟨hv, hvs⟩ := Bool.and_eq_true_iff.mp h
    exact Bool.and_eq_true_iff.mpr
      ⟨isWritable_of_readsBack v hv, areWritable_of_allReadBack vs hvs⟩

end

/-- **The text of a value reads back as the value**, in every session, which is left as it was: no
die is rolled and no variable is read. -/
theorem evaluate_text {v : Value} {depth : Nat} (h : v.readsBack = true)
    (hlevels : v.levels ≤ depth) (s : Session) : evaluate depth v.text s = .ok v s := by
  have hnest : v.phrase.nesting ≤ depth := by rwa [nesting_phrase]
  have hread : Actions.evaluation.readText depth v.text =
      liftM (pure (Operand.ofValue v) : Evaluating _) := by
    rw [← fold_phrase v h]
    exact (derives_text h).readTokens hnest _ _ _
  have hevaluate : evaluate depth v.text = pure v := by
    simp [evaluate, evaluateLazily, hread, forceAll_ofValue, isWritable_of_readsBack v h]
  rw [hevaluate]
  rfl

/-- Quotes inside characters, a negative number in front of a comma, a NUL in a quoted text and an
empty array. -/
theorem evaluate_text_nested :
    let v : Value := array [int (-5), char '"', array [char 'a', char '\x00'], array []]
    v.readsBack = true ∧ v.levels ≤ 100 ∧
      ∀ s : Session, evaluate 100 v.text s = .ok v s := by
  intro v
  have hback : v.readsBack = true := by decide
  have hlevels : v.levels ≤ 100 := by decide
  exact ⟨hback, hlevels, evaluate_text hback hlevels⟩

end Value

end DiceNotation
