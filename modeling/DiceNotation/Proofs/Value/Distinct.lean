/-
# Different values have different texts

Nothing is lost when a value is shown, as long as its integers are written in decimal and it has no
floating point numbers in it: values with the same text are the same (`text_eq_iff`).

A text begins with a character that says which form it has (`Form.of?`): a number, a character
between single quotes, a quoted text, or a list between brackets.  And whatever stands behind it, it
says itself where it ends.  A number ends where no digit follows; of a quoted character the third
character is the last one, even if it is a quote in the middle; a quoted text ends at the first
quote that has no backslash in front, and what the backslashes stand for can be read off one by one
(`quoted_append_inj`); and a list ends behind its last element, since neither a comma nor a bracket
is where an element would begin or go on.  So the text of a value can be told from that of any other
value, also in front of other text (`Recognizable`), and by induction this holds at any depth.
-/
import DiceNotation.Proofs.Value.Display
import DiceNotation.Proofs.Value.Broadcasting

namespace DiceNotation

/-! ## 1. Quoted texts -/

/-- The character that a backslash and `e` stand for. -/
def unquoteChar (e : Char) : Char := if e = 'n' then '\n' else e

/-- A character stands for itself, or a backslash is in front of what it is read back from. -/
theorem quoteChar_cases (c : Char) :
    quoteChar c = [c] ∧ c ≠ '\\' ∧ c ≠ '"' ∨ ∃ e, quoteChar c = ['\\', e] ∧ unquoteChar e = c := by
  unfold quoteChar
  split
  · exact .inr ⟨'\\', rfl, rfl⟩
  · exact .inr ⟨'"', rfl, rfl⟩
  · exact .inr ⟨'n', rfl, rfl⟩
  · next hbackslash hquote _ => exact .inl ⟨rfl, hbackslash, hquote⟩

theorem quoteChar_append_inj {c d : Char} {cs ds : List Char}
    (h : quoteChar c ++ cs = quoteChar d ++ ds) : c = d ∧ cs = ds := by
  rcases quoteChar_cases c with ⟨hc, hne, -⟩ | ⟨e, hc, rfl⟩
  · rcases quoteChar_cases d with ⟨hd, -, -⟩ | ⟨f, hd, rfl⟩
    · rw [hc, hd] at h
      exact List.cons.inj h
    · rw [hc, hd] at h
      exact absurd (List.cons.inj h).1 hne
  · rcases quoteChar_cases d with ⟨hd, hne, -⟩ | ⟨f, hd, rfl⟩
    · rw [hc, hd] at h
      exact absurd (List.cons.inj h).1.symm hne
    · rw [hc, hd] at h
      obtain ⟨rfl, hmore⟩ := List.cons.inj (List.cons.inj h).2
      exact ⟨rfl, hmore⟩

/-- No quoted character begins with the quote that ends a text. -/
theorem quoteChar_append_ne (c : Char) (cs rest : List Char) :
    quoteChar c ++ cs ≠ '"' :: rest := by
  intro h
  rcases quoteChar_cases c with ⟨hc, -, hne⟩ | ⟨e, hc, -⟩
  · rw [hc] at h
    exact hne (List.cons.inj h).1
  · rw [hc] at h
    exact absurd (List.cons.inj h).1 (by decide)

/-- **A quoted text can be read back**, and where it ends is the same whatever follows. -/
theorem quoted_append_inj {cs ds rest rest' : List Char}
    (h : cs.flatMap quoteChar ++ '"' :: rest = ds.flatMap quoteChar ++ '"' :: rest') :
    cs = ds ∧ rest = rest' := by
  induction cs generalizing ds with
  | nil =>
    cases ds with
    | nil => exact ⟨rfl, (List.cons.inj h).2⟩
    | cons d ds =>
      rw [List.flatMap_cons, List.append_assoc] at h
      exact absurd h.symm (quoteChar_append_ne d _ _)
  | cons c cs ih =>
    cases ds with
    | nil =>
      rw [List.flatMap_cons, List.append_assoc] at h
      exact absurd h (quoteChar_append_ne c _ _)
    | cons d ds =>
      rw [List.flatMap_cons, List.flatMap_cons, List.append_assoc, List.append_assoc] at h
      obtain ⟨rfl, hmore⟩ := quoteChar_append_inj h
      obtain ⟨rfl, hrest⟩ := ih hmore
      exact ⟨rfl, hrest⟩

/-! ## 2. Decimal integers -/

/-- The characters that decimal integers consist of. -/
def isNumeric (c : Char) : Bool := c.isDigit || c == '-'

theorem toDigits_ten_inj {m n : Nat} (h : Nat.toDigits 10 m = Nat.toDigits 10 n) : m = n := by
  calc
    m = Nat.ofDigitChars 10 (Nat.toDigits 10 m) 0 := Nat.ofDigitChars_ten_toDigits.symm
    _ = Nat.ofDigitChars 10 (Nat.toDigits 10 n) 0 := by rw [h]
    _ = n := Nat.ofDigitChars_ten_toDigits

theorem toDigits_ten_ne_minus (n : Nat) (cs : List Char) : Nat.toDigits 10 n ≠ '-' :: cs := by
  intro h
  have hmem : '-' ∈ Nat.toDigits 10 n := h ▸ List.mem_cons_self
  exact absurd (Nat.isDigit_of_mem_toDigits (by decide) (by decide) hmem) (by decide)

namespace Value

/-- A decimal integer ends where no digit follows. -/
theorem run_text_int {n : Int} (hn : DiceNotation.isWritable n = true) {rest : List Char}
    (hrest : Closes rest) : Run isNumeric (int n).text.toList rest := by
  have hdigits : ∀ c ∈ Nat.toDigits 10 n.natAbs, isNumeric c = true := by
    intro c hc
    have hdigit := Nat.isDigit_of_mem_toDigits (by decide) (by decide) hc
    simp [isNumeric, hdigit]
  rw [toList_text_int hn]
  refine ⟨?_, ?_, ?_⟩
  · split
    · exact List.cons_ne_nil _ _
    · exact Nat.toDigits_ne_nil
  · split
    · exact List.forall_mem_cons.mpr ⟨rfl, hdigits⟩
    · exact hdigits
  · intro c hc
    rcases hrest c hc with rfl | rfl <;> rfl

theorem text_int_inj {m n : Int} (hm : DiceNotation.isWritable m = true)
    (hn : DiceNotation.isWritable n = true)
    (h : (int m).text.toList = (int n).text.toList) : m = n := by
  rw [toList_text_int hm, toList_text_int hn] at h
  split at h
  · split at h
    · have habs := toDigits_ten_inj (List.cons.inj h).2
      omega
    · exact absurd h.symm (toDigits_ten_ne_minus _ _)
  · split at h
    · exact absurd h (toDigits_ten_ne_minus _ _)
    · have habs := toDigits_ten_inj h
      omega

end Value

/-! ## 3. Forms -/

/-- A scalar whose text says what it is: an integer that is written in decimal, or a character. -/
inductive Scalar.SpelledOut : Scalar → Prop
  | int {n : Int} (h : isWritable n = true) : SpelledOut (.int n)
  | char (c : Char) : SpelledOut (.char c)

/-- The forms that the text of a value can have. -/
inductive Form where
  | number
  | character
  | quoted
  | list
deriving DecidableEq

/-- The form of a text that begins with `c`. -/
def Form.of? (c : Char) : Option Form :=
  if isNumeric c then some .number
  else if c == '\'' then some .character
  else if c == '"' then some .quoted
  else if c == '[' then some .list
  else none

namespace Value

/-- The text of all elements of an array, without the brackets. -/
def itemsText : List Value → List Char
  | [] => []
  | v :: vs => v.text.toList ++ furtherText vs

/-- How a value is written in one of the forms. -/
inductive WrittenAs : Form → Value → List Char → Prop
  | number {n : Int} (h : DiceNotation.isWritable n = true) :
      WrittenAs .number (int n) (int n).text.toList
  | character (c : Char) : WrittenAs .character (char c) ['\'', c, '\'']
  | quoted {vs : List Value} {cs : List Char} (h : chars? vs = some cs) :
      WrittenAs .quoted (array vs) ('"' :: (cs.flatMap quoteChar ++ ['"']))
  | list (vs : List Value) : WrittenAs .list (array vs) ('[' :: (itemsText vs ++ [']']))

/-- The text of a value has one of the forms. -/
theorem exists_writtenAs {v : Value} (hv : v.All Scalar.SpelledOut) :
    ∃ form, WrittenAs form v v.text.toList := by
  cases hv with
  | scalar hs =>
    cases hs with
    | int hn => exact ⟨_, .number hn⟩
    | char c =>
      rw [toList_text_char]
      exact ⟨_, .character c⟩
  | @array vs _ =>
    cases vs with
    | nil => exact ⟨_, .list []⟩
    | cons v vs =>
      cases hchars : chars? (v :: vs) with
      | some cs =>
        rw [toList_text_quoted hchars]
        exact ⟨_, .quoted hchars⟩
      | none =>
        have htext := toList_text_array hchars
        rw [← List.append_assoc] at htext
        rw [htext]
        exact ⟨_, .list (v :: vs)⟩

theorem WrittenAs.begins {form : Form} {v : Value} {cs : List Char} (h : WrittenAs form v cs) :
    ∃ c more, cs = c :: more ∧ Form.of? c = some form := by
  cases h with
  | number hn =>
    have hrun : Run isNumeric (int _).text.toList [] := run_text_int hn nofun
    obtain ⟨c, more, htext, hc, -⟩ := hrun.exists_cons
    exact ⟨c, more, htext, if_pos hc⟩
  | character c => exact ⟨_, _, rfl, rfl⟩
  | quoted h => exact ⟨_, _, rfl, rfl⟩
  | list vs => exact ⟨_, _, rfl, rfl⟩

/-! ## 4. Texts in front of other text -/

/-- The text of `v` can be told from that of any other value, whatever stands behind the two. -/
def Recognizable (v : Value) : Prop :=
  ∀ (w : Value) (rest rest' : List Char), w.All Scalar.SpelledOut → Closes rest → Closes rest' →
    v.text.toList ++ rest = w.text.toList ++ rest' → v = w ∧ rest = rest'

theorem furtherText_append_inj {vs ws : List Value} {rest rest' : List Char}
    (hvs : ∀ v ∈ vs, v.Recognizable) (hws : ∀ w ∈ ws, w.All Scalar.SpelledOut)
    (h : furtherText vs ++ ']' :: rest = furtherText ws ++ ']' :: rest') :
    vs = ws ∧ rest = rest' := by
  induction vs generalizing ws with
  | nil =>
    cases ws with
    | nil => exact ⟨rfl, (List.cons.inj h).2⟩
    | cons w ws =>
      rw [furtherText, furtherText] at h
      cases h
  | cons v vs ih =>
    cases ws with
    | nil =>
      rw [furtherText, furtherText] at h
      cases h
    | cons w ws =>
      obtain ⟨hv, hmoreVs⟩ := List.forall_mem_cons.mp hvs
      obtain ⟨hw, hmoreWs⟩ := List.forall_mem_cons.mp hws
      simp only [furtherText, List.cons_append, List.append_assoc, List.cons.injEq, true_and] at h
      have hcloses := closes_furtherText vs rest
      have hcloses' := closes_furtherText ws rest'
      obtain ⟨rfl, hmore⟩ := hv w _ _ hw hcloses hcloses' h
      obtain ⟨rfl, hrest⟩ := ih hmoreVs hmoreWs hmore
      exact ⟨rfl, hrest⟩

/-- No element begins with the bracket that closes a list. -/
theorem text_append_ne_close {v : Value} (hv : v.All Scalar.SpelledOut) (cs rest : List Char) :
    v.text.toList ++ cs ≠ ']' :: rest := by
  intro h
  obtain ⟨form, hform⟩ := exists_writtenAs hv
  obtain ⟨c, more, htext, hc⟩ := hform.begins
  rw [htext, List.cons_append] at h
  obtain ⟨rfl, -⟩ := List.cons.inj h
  cases hc

theorem itemsText_append_inj {vs ws : List Value} {rest rest' : List Char}
    (hvs : ∀ v ∈ vs, v.All Scalar.SpelledOut) (hrec : ∀ v ∈ vs, v.Recognizable)
    (hws : ∀ w ∈ ws, w.All Scalar.SpelledOut)
    (h : itemsText vs ++ ']' :: rest = itemsText ws ++ ']' :: rest') : vs = ws ∧ rest = rest' := by
  cases vs with
  | nil =>
    cases ws with
    | nil => exact ⟨rfl, (List.cons.inj h).2⟩
    | cons w ws =>
      rw [itemsText, itemsText, List.append_assoc] at h
      exact absurd h.symm (text_append_ne_close (List.forall_mem_cons.mp hws).1 _ _)
  | cons v vs =>
    cases ws with
    | nil =>
      rw [itemsText, itemsText, List.append_assoc] at h
      exact absurd h (text_append_ne_close (List.forall_mem_cons.mp hvs).1 _ _)
    | cons w ws =>
      obtain ⟨hv, hmoreVs⟩ := List.forall_mem_cons.mp hrec
      obtain ⟨hw, hmoreWs⟩ := List.forall_mem_cons.mp hws
      rw [itemsText, itemsText, List.append_assoc, List.append_assoc] at h
      have hcloses := closes_furtherText vs rest
      have hcloses' := closes_furtherText ws rest'
      obtain ⟨rfl, hmore⟩ := hv w _ _ hw hcloses hcloses' h
      obtain ⟨rfl, hrest⟩ := furtherText_append_inj hmoreVs hmoreWs hmore
      exact ⟨rfl, hrest⟩

/-- Texts that agree have the same form. -/
theorem exists_common_form {v w : Value} (hv : v.All Scalar.SpelledOut)
    (hw : w.All Scalar.SpelledOut) {rest rest' : List Char}
    (h : v.text.toList ++ rest = w.text.toList ++ rest') :
    ∃ form cs ds, v.text.toList = cs ∧ w.text.toList = ds ∧ WrittenAs form v cs ∧
      WrittenAs form w ds := by
  obtain ⟨form, hform⟩ := exists_writtenAs hv
  obtain ⟨form', hform'⟩ := exists_writtenAs hw
  obtain ⟨c, more, htext, hc⟩ := hform.begins
  obtain ⟨d, more', htext', hd⟩ := hform'.begins
  rw [htext, htext'] at h
  obtain ⟨rfl, -⟩ := List.cons.inj h
  obtain rfl := Option.some.inj (hc.symm.trans hd)
  exact ⟨form, _, _, rfl, rfl, hform, hform'⟩

/-- **Every text says what it stands for and where it ends.** -/
theorem recognizable {v : Value} (hv : v.All Scalar.SpelledOut) : v.Recognizable := by
  induction hv with
  | scalar hs =>
    intro w rest rest' hw hrest hrest' h
    obtain ⟨form, cs, ds, htext, htext', hform, hform'⟩ := exists_common_form (.scalar hs) hw h
    rw [htext, htext'] at h
    cases hform with
    | number hm =>
      cases hform' with
      | number hn =>
        obtain ⟨hsame, hmore⟩ := (run_text_int hm hrest).append_inj (run_text_int hn hrest') h
        exact ⟨congrArg int (text_int_inj hm hn hsame), hmore⟩
    | character c =>
      cases hform' with
      | character d =>
        obtain ⟨rfl, hclose⟩ := List.cons.inj (List.cons.inj h).2
        exact ⟨rfl, (List.cons.inj hclose).2⟩
  | @array vs hvs ih =>
    intro w rest rest' hw hrest hrest' h
    obtain ⟨form, cs, ds, htext, htext', hform, hform'⟩ := exists_common_form (.array hvs) hw h
    rw [htext, htext'] at h
    cases hform with
    | quoted hcs =>
      cases hform' with
      | quoted hds =>
        rw [List.cons_append, List.cons_append, List.append_assoc, List.append_assoc] at h
        obtain ⟨rfl, hmore⟩ := quoted_append_inj (List.cons.inj h).2
        rw [eq_map_char_of_chars? hcs, eq_map_char_of_chars? hds]
        exact ⟨rfl, hmore⟩
    | list =>
      cases hform' with
      | list ws =>
        cases hw with
        | array hws =>
          rw [List.cons_append, List.cons_append, List.append_assoc, List.append_assoc] at h
          obtain ⟨rfl, hmore⟩ := itemsText_append_inj hvs ih hws (List.cons.inj h).2
          exact ⟨rfl, hmore⟩

/-! ## 5. Whole texts -/

/-- **Different values have different texts.** -/
theorem text_eq_iff {v w : Value} (hv : v.All Scalar.SpelledOut) (hw : w.All Scalar.SpelledOut) :
    v.text = w.text ↔ v = w := by
  constructor
  · intro h
    exact (recognizable hv w [] [] hw nofun nofun (by rw [h])).1
  · intro h
    rw [h]

/-- A backslash in front of an `n`, and a line feed: quoted, both are written with an `n`. -/
theorem text_eq_iff_escapes :
    let v : Value := .array [.array [.char '\\', .char 'n'], .char ',', .int (-1)]
    let w : Value := .array [.array [.char '\n'], .char ',', .int (-1)]
    v.All Scalar.SpelledOut ∧ w.All Scalar.SpelledOut ∧ v ≠ w ∧ v.text ≠ w.text := by
  intro v w
  have hchar (c : Char) : (Value.char c).All Scalar.SpelledOut := .scalar (.char c)
  have hint : (Value.int (-1)).All Scalar.SpelledOut :=
    .scalar (.int (isWritable_of_natAbs_le (by decide)))
  have hescape : (Value.array [.char '\\', .char 'n']).All Scalar.SpelledOut :=
    .array (by simp [hchar])
  have hfeed : (Value.array [.char '\n']).All Scalar.SpelledOut := .array (by simp [hchar])
  have hv : v.All Scalar.SpelledOut := .array (by simp [hchar, hint, hescape])
  have hw : w.All Scalar.SpelledOut := .array (by simp [hchar, hint, hfeed])
  have hne : v ≠ w := by decide
  exact ⟨hv, hw, hne, fun h => hne ((text_eq_iff hv hw).mp h)⟩

end Value

end DiceNotation
