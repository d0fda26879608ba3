/-
# Reading descriptions back

The description of a faithful tree is cut into the tokens of its phrase, one part after the other
(`Tree.spells_description`).  What follows a part has to leave its last token alone: no digit behind
a number, no letter behind a name, and no `!(` behind a parenthesis (`Tree.Seam`).  That `)` and a
following `!` are one token does no harm, because a group ends in the middle of it.

So the description of a text is accepted and has the same tree, and is its own description
(`describe_faithful`).  Where the tree is not faithful, that can fail
(`describe_not_faithful`).
-/
import Mathlib
import DiceNotation.Proofs.Description.Rendering

namespace DiceNotation

/-! ## 1. The characters of a description -/

/-- What stands between the operands of an operator. -/
def Op.between : Op → List Char
  | .semicolon => [';', ' ']
  | .comma => [',', ' ']
  | o => ' ' :: (o.text.toList ++ [' '])

namespace Tree

/-- The description of a tree. -/
def description (t : Tree) : String := Actions.description.fold t

/-- The descriptions of some trees. -/
def descriptions (trees : List Tree) : List String := Actions.description.foldAll trees

/-- The characters of the description of a tree. -/
def chars (t : Tree) : List Char := t.description.toList

theorem chars_literal (t : Token) : (literal t).chars = t.text.toList := rfl

theorem chars_sequence (left right : Tree) :
    (binary left right .semicolon).chars = left.chars ++ (';' :: ' ' :: right.chars) := by
  have h : (binary left right .semicolon).description =
    left.description ++ "; " ++ right.description := rfl
  simp [chars, h]

theorem chars_binary {left right : Tree} {o : Op} (ho : o ≠ .semicolon) :
    (binary left right o).chars =
      '(' :: (left.chars ++ (o.between ++ (right.chars ++ [')']))) := by
  by_cases hcomma : o = .comma
  · subst hcomma
    have h : (binary left right .comma).description =
      "(" ++ left.description ++ ", " ++ right.description ++ ")" := rfl
    simp [chars, h, Op.between]
  · have h : (binary left right o).description =
        "(" ++ left.description ++ " " ++ o.text ++ " " ++ right.description ++ ")" := by
      cases o <;> first | exact absurd rfl ho | exact absurd rfl hcomma | rfl
    have hbetween : o.between = ' ' :: (o.text.toList ++ [' ']) := by
      cases o <;> first | exact absurd rfl ho | exact absurd rfl hcomma | rfl
    simp [chars, h, hbetween]

theorem chars_unary (inner : Tree) (o : Op) :
    (unary inner o).chars = '(' :: (o.text.toList ++ (inner.chars ++ [')'])) := by
  have h : (unary inner o).description = "(" ++ o.text ++ inner.description ++ ")" := rfl
  simp [chars, h]

theorem chars_suffix (inner : Tree) (o : Op) :
    (suffix inner o).chars = '(' :: (inner.chars ++ (o.text.toList ++ [')'])) := by
  have h : (suffix inner o).description = "(" ++ inner.description ++ o.text ++ ")" := rfl
  simp [chars, h]

theorem chars_die (sides : Tree) :
    (dice none sides).chars = '(' :: 'd' :: (sides.chars ++ [')']) := by
  have h : (dice none sides).description = "(d" ++ sides.description ++ ")" := rfl
  simp [chars, h]

theorem chars_dice (num sides : Tree) :
    (dice (some num) sides).chars = '(' :: (num.chars ++ 'd' :: (sides.chars ++ [')'])) := by
  have h : (dice (some num) sides).description =
    "(" ++ num.description ++ "d" ++ sides.description ++ ")" := rfl
  simp [chars, h]

theorem chars_keep (k : Keep) (target amount : Tree) :
    (keep k target amount).chars =
      '(' :: (target.chars ++ (k.text.toList ++ (amount.chars ++ [')']))) := by
  have h : (keep k target amount).description =
    "(" ++ target.description ++ k.text ++ amount.description ++ ")" := rfl
  simp [chars, h]

theorem chars_explode (target faces : Tree) :
    (explode target faces).chars =
      '(' :: (target.chars ++ '!' :: '(' :: (faces.chars ++ [')', '!', ')'])) := by
  have h : (explode target faces).description =
    "(" ++ target.description ++ "!(" ++ faces.description ++ ")!)" := rfl
  simp [chars, h]

theorem chars_index (target position : Tree) :
    (index target position).chars = target.chars ++ '[' :: (position.chars ++ [']']) := by
  have h : (index target position).description =
    target.description ++ "[" ++ position.description ++ "]" := rfl
  simp [chars, h]

/-- The characters of the elements of an array literal behind the first one. -/
def furtherChars : List Tree → List Char
  | [] => []
  | t :: trees => ',' :: ' ' :: (t.chars ++ furtherChars trees)

theorem toList_intercalate_descriptions (t : Tree) (trees : List Tree) :
    (", ".intercalate (t.description :: descriptions trees)).toList =
      t.chars ++ furtherChars trees := by
  induction trees generalizing t with
  | nil =>
    have h : descriptions [] = [] := rfl
    simp [h, furtherChars, chars]
  | cons u trees ih =>
    have h : descriptions (u :: trees) = u.description :: descriptions trees := rfl
    simp [h, furtherChars, String.intercalate_cons_cons, ih, chars]

theorem chars_array (t : Tree) (trees : List Tree) :
    (array (t :: trees)).chars = '[' :: (t.chars ++ (furtherChars trees ++ [']'])) := by
  have h : (array (t :: trees)).description =
    "[" ++ ", ".intercalate (t.description :: descriptions trees) ++ "]" := rfl
  rw [chars, h]
  simp only [String.toList_append, toList_intercalate_descriptions, List.append_assoc]
  rfl

/-! ## 2. How a description begins -/

theorem exists_chars_literal {t : Token} (h : t.Legible) :
    ∃ c cs, t.text.toList = c :: cs ∧ (t.isWord = false → isWordChar c = false) := by
  cases t with
  | number n =>
    obtain ⟨c, cs, hdigits⟩ := List.exists_cons_of_ne_nil (Nat.toDigits_ne_nil (b := 10) (n := n))
    refine ⟨c, cs, (toList_text_number n).trans hdigits, fun _ => ?_⟩
    have hc : c.isDigit = true :=
      Nat.isDigit_of_mem_toDigits (by decide) (by decide) (hdigits ▸ List.mem_cons_self)
    cases hword : isWordChar c with
    | false => rfl
    | true =>
      rw [word_not_digit hword] at hc
      cases hc
  | word name =>
    obtain ⟨c, cs, hname⟩ := List.exists_cons_of_ne_nil h.1
    exact ⟨c, cs, hname, fun hword => by cases hword⟩
  | char c => exact ⟨'\'', [c, '\''], by simp [Token.text, toString], fun _ => rfl⟩
  | string content =>
    exact ⟨'"', content.toList ++ ['"'], by simp [Token.text, toString], fun _ => rfl⟩
  | _ => exact absurd h id

/-- A description is not empty, and its first character is a letter only if the tree says so. -/
theorem exists_chars_eq : (t : Tree) → t.WellFormed →
    ∃ c cs, t.chars = c :: cs ∧ (t.beginsWithLetter = false → isWordChar c = false)
  | literal t, hwf => exists_chars_literal hwf.2
  | binary left right o, hwf => by
    by_cases ho : o = .semicolon
    · subst ho
      obtain ⟨c, cs, hchars, hc⟩ := exists_chars_eq left hwf.2.1
      exact ⟨c, _, by rw [chars_sequence, hchars, List.cons_append], hc⟩
    · exact ⟨'(', _, chars_binary ho, fun _ => rfl⟩
  | unary inner o, _ => ⟨'(', _, chars_unary inner o, fun _ => rfl⟩
  | suffix inner o, _ => ⟨'(', _, chars_suffix inner o, fun _ => rfl⟩
  | dice none sides, _ => ⟨'(', _, chars_die sides, fun _ => rfl⟩
  | dice (some num) sides, _ => ⟨'(', _, chars_dice num sides, fun _ => rfl⟩
  | keep k target amount, _ => ⟨'(', _, chars_keep k target amount, fun _ => rfl⟩
  | explode target faces, _ => ⟨'(', _, chars_explode target faces, fun _ => rfl⟩
  | array [], _ => ⟨'[', [']'], rfl, fun _ => rfl⟩
  | array (t :: trees), _ => ⟨'[', _, chars_array t trees, fun _ => rfl⟩
  | index target position, hwf => by
    obtain ⟨c, cs, hchars, hc⟩ := exists_chars_eq target hwf.1
    exact ⟨c, _, by rw [chars_index, hchars, List.cons_append], hc⟩

theorem head?_chars {t : Tree} (hwf : t.WellFormed) (h : t.beginsWithLetter = false)
    (rest : List Char) : ∀ c ∈ (t.chars ++ rest).head?, isWordChar c = false := by
  obtain ⟨d, cs, hchars, hd⟩ := exists_chars_eq t hwf
  intro c hc
  rw [hchars, List.cons_append, List.head?_cons, Option.mem_some] at hc
  rw [← hc]
  exact hd h

/-! ## 3. What may follow a description -/

/-- What follows leaves the last token of the description of a tree alone. -/
structure Seam (t : Tree) (rest : List Char) : Prop where
  digit : t.endsWithDigit = true → ∀ c ∈ rest.head?, c.isDigit = false
  letter : t.endsWithLetter = true → ∀ c ∈ rest.head?, isWordChar c = false
  paren : t.endsWithParen = true → ∀ more, rest ≠ '!' :: '(' :: more

section Seams

variable {t : Tree} {c : Char}

theorem seam_nil : t.Seam [] where
  digit _ c hc := by cases hc
  letter _ c hc := by cases hc
  paren _ more hmore := by cases hmore

/-- Blanks, brackets and separators leave everything alone. -/
theorem seam_cons (hdigit : c.isDigit = false) (hletter : isWordChar c = false) (hbang : c ≠ '!')
    (rest : List Char) : t.Seam (c :: rest) where
  digit _ d hd := by
    cases hd
    exact hdigit
  letter _ d hd := by
    cases hd
    exact hletter
  paren _ more hmore := hbang (List.cons.inj hmore).1

/-- Letters leave everything alone that does not end with a letter. -/
theorem seam_letter (ht : t.endsWithLetter = false) (hletter : isWordChar c = true)
    (rest : List Char) : t.Seam (c :: rest) where
  digit _ d hd := by
    cases hd
    exact word_not_digit hletter
  letter hword := by
    rw [ht] at hword
    cases hword
  paren _ more hmore := by
    rw [(List.cons.inj hmore).1] at hletter
    exact absurd hletter (by decide)

theorem seam_bang (rest : List Char) : t.Seam ('!' :: ')' :: rest) where
  digit _ c hc := by
    cases hc
    rfl
  letter _ c hc := by
    cases hc
    rfl
  paren _ more hmore := absurd (List.cons.inj (List.cons.inj hmore).2).1 (by decide)

theorem seam_bangParen (ht : t.endsWithParen = false) (rest : List Char) :
    t.Seam ('!' :: '(' :: rest) where
  digit _ c hc := by
    cases hc
    rfl
  letter _ c hc := by
    cases hc
    rfl
  paren hparen := by
    rw [ht] at hparen
    cases hparen

/-- What stands between two operands leaves the left one alone. -/
theorem seam_between (o : Op) (rest : List Char) : t.Seam (o.between ++ rest) := by
  cases o <;> exact seam_cons rfl rfl (by decide) _

end Seams

/-! ## 4. The tokens of a description -/

theorem tokensOf_between (o : Op) (rest : List Char) :
    tokensOf (o.between ++ rest) = .op o :: tokensOf rest := by
  have hblank : tokensOf (' ' :: rest) = tokensOf rest := tokensOf_space rfl rest
  by_cases hsemicolon : o = .semicolon
  · subst hsemicolon
    exact (tokensOf_lone rfl (by decide) _).trans (by rw [← hblank]; rfl)
  by_cases hcomma : o = .comma
  · subst hcomma
    exact (tokensOf_lone rfl (by decide) _).trans (by rw [← hblank]; rfl)
  · have hbetween : o.between = ' ' :: (o.text.toList ++ [' ']) := by
      cases o <;> first | exact absurd rfl hsemicolon | exact absurd rfl hcomma | rfl
    rw [hbetween, List.cons_append, tokensOf_space rfl, List.append_assoc, List.singleton_append,
      tokensOf_op_blank]

/-- A parenthesis is closed by itself or by the first half of `)!`. -/
theorem spells_close {rest : List Char} (hrest : ∀ more, rest ≠ '!' :: '(' :: more) :
    Spells [.op .closeParen] (tokensOf (')' :: rest)) (tokensOf rest) := by
  have hpair : ∀ d, d ≠ '!' → isOpPair ')' d = false := by
    intro d hd
    simp [isOpPair, Op.all, Op.text, hd.symm]
  cases rest with
  | nil =>
    rw [tokensOf_op (o := .closeParen) rfl (by simp)]
    exact .word .nil
  | cons d more =>
    by_cases hd : d = '!'
    · subst hd
      have hbang : tokensOf ('!' :: more) = .op .bang :: tokensOf more := by
        refine tokensOf_op rfl fun e he => ?_
        cases more with
        | nil => cases he
        | cons f more =>
          cases he
          have hf : e ≠ '(' := fun hf => hrest more (hf ▸ rfl)
          simp [isOpPair, Op.all, Op.text, hf.symm]
      rw [tokensOf_pair (o := .parenBang) rfl, hbang]
      exact .half .nil
    · rw [tokensOf_op (o := .closeParen) rfl fun e he => by cases he; exact hpair d hd]
      exact .word .nil

/-- In front of whatever leaves it alone, the description of a tree is cut into the words of its
phrase. -/
def SpelledOut (t : Tree) : Prop := ∀ rest : List Char, t.Seam rest →
  Spells t.rendered.words (tokensOf (t.chars ++ rest)) (tokensOf rest)

section Constructs

variable {rest : List Char}

theorem spells_group {p : Phrase} {cs : List Char} (hrest : ∀ more, rest ≠ '!' :: '(' :: more)
    (hp : Spells p.words (tokensOf cs) (tokensOf (')' :: rest))) :
    Spells (Phrase.group p).words (tokensOf ('(' :: cs)) (tokensOf rest) := by
  rw [Phrase.words, tokensOf_lone (o := .openParen) rfl (by decide)]
  exact .word (hp.append (spells_close hrest))

/-- Behind the left operand come the first token of the tail and what the tail encloses. -/
theorem spells_extended {left : Tree} {tail : Tail} {cs : List Char} {tokens : List Token}
    (hleft : left.SpelledOut) (hseam : left.Seam cs)
    (hstart : tokensOf cs = tail.start :: tokens) {rest : List Token}
    (hbody : Spells tail.body tokens rest) :
    Spells (Phrase.extended left.rendered tail).words (tokensOf (left.chars ++ cs)) rest := by
  rw [Phrase.words]
  refine (hleft cs hseam).append ?_
  rw [hstart]
  exact .word hbody

theorem spells_binary {left right : Tree} (o : Op) (hleft : left.SpelledOut)
    (hright : right.SpelledOut) (hrest : right.Seam rest) :
    Spells (Phrase.extended left.rendered (.binary o right.rendered)).words
      (tokensOf (left.chars ++ (o.between ++ (right.chars ++ rest)))) (tokensOf rest) :=
  spells_extended hleft (seam_between o _) (tokensOf_between o _) (hright rest hrest)

theorem spells_unary {inner : Tree} {o : Op} (ho : o.unaryPower?.isSome = true)
    (hinner : inner.SpelledOut) :
    Spells (Phrase.unary o inner.rendered).words
      (tokensOf (o.text.toList ++ (inner.chars ++ ')' :: rest))) (tokensOf (')' :: rest)) := by
  have hstart : ∀ cs, tokensOf (o.text.toList ++ cs) = .op o :: tokensOf cs := by
    intro cs
    cases o <;> first | exact absurd ho (by decide) | exact tokensOf_lone rfl (by decide) cs
  rw [hstart]
  exact .word (hinner _ (seam_cons rfl rfl (by decide) rest))

theorem spells_suffix {inner : Tree} {o : Op} (ho : o.suffixPower?.isSome = true)
    (hinner : inner.SpelledOut) :
    Spells (Phrase.extended inner.rendered (.suffix o)).words
      (tokensOf (inner.chars ++ (o.text.toList ++ ')' :: rest))) (tokensOf (')' :: rest)) := by
  cases o with
  | percent =>
    refine spells_extended hinner (seam_cons rfl rfl (by decide) _) ?_ .nil
    exact tokensOf_lone rfl (by decide) _
  | bang =>
    have hbang : tokensOf ('!' :: ')' :: rest) = .op .bang :: tokensOf (')' :: rest) :=
      tokensOf_op rfl fun d hd => by cases hd; rfl
    refine spells_extended hinner (seam_bang rest) ?_ .nil
    exact hbang
  | _ => exact absurd ho (by decide)

/-- A word in front of an operand that does not begin with a letter. -/
theorem tokensOf_word_chars {name : List Char} (hne : name ≠ [])
    (hname : ∀ c ∈ name, isWordChar c = true) {t : Tree} (hwf : t.WellFormed)
    (ht : t.beginsWithLetter = false) (rest : List Char) :
    tokensOf (name ++ (t.chars ++ rest)) =
      .word (String.ofList name) :: tokensOf (t.chars ++ rest) :=
  tokensOf_word hne hname (head?_chars hwf ht rest)

theorem tokensOf_die {sides : Tree} (hwf : sides.WellFormed)
    (hsides : sides.beginsWithLetter = false) (rest : List Char) :
    tokensOf ('d' :: (sides.chars ++ rest)) = .word dieWord :: tokensOf (sides.chars ++ rest) := by
  have hd : ['d'].all isWordChar = true := by decide
  exact tokensOf_word_chars (List.cons_ne_nil 'd' []) (List.all_eq_true.mp hd) hwf hsides rest

theorem tokensOf_keep (k : Keep) {amount : Tree} (hwf : amount.WellFormed)
    (hamount : amount.beginsWithLetter = false) (rest : List Char) :
    tokensOf (k.text.toList ++ (amount.chars ++ rest)) =
      .word k.text :: tokensOf (amount.chars ++ rest) := by
  have hne : k.text.toList ≠ [] := by cases k <;> decide
  have hk : k.text.toList.all isWordChar = true := by cases k <;> decide
  have hone := tokensOf_word_chars hne (List.all_eq_true.mp hk) hwf hamount rest
  rwa [String.ofList_toList] at hone

theorem spells_die {sides : Tree} (hwf : sides.WellFormed)
    (hletter : sides.beginsWithLetter = false) (hsides : sides.SpelledOut) :
    Spells (Phrase.die sides.rendered).words (tokensOf ('d' :: (sides.chars ++ ')' :: rest)))
      (tokensOf (')' :: rest)) := by
  rw [tokensOf_die hwf hletter]
  exact .word (hsides _ (seam_cons rfl rfl (by decide) rest))

theorem spells_dice {num sides : Tree} (hnum : num.SpelledOut)
    (hlast : num.endsWithLetter = false) (hwf : sides.WellFormed)
    (hletter : sides.beginsWithLetter = false) (hsides : sides.SpelledOut) :
    Spells (Phrase.extended num.rendered (.dice sides.rendered)).words
      (tokensOf (num.chars ++ 'd' :: (sides.chars ++ ')' :: rest))) (tokensOf (')' :: rest)) :=
  spells_extended hnum (seam_letter hlast rfl _) (tokensOf_die hwf hletter _)
    (hsides _ (seam_cons rfl rfl (by decide) rest))

theorem spells_keep (k : Keep) {target amount : Tree} (htarget : target.SpelledOut)
    (hlast : target.endsWithLetter = false) (hwf : amount.WellFormed)
    (hletter : amount.beginsWithLetter = false) (hamount : amount.SpelledOut) :
    Spells (Phrase.extended target.rendered (.keep k.text amount.rendered)).words
      (tokensOf (target.chars ++ (k.text.toList ++ (amount.chars ++ ')' :: rest))))
      (tokensOf (')' :: rest)) := by
  have hseam : target.Seam (k.text.toList ++ (amount.chars ++ ')' :: rest)) := by
    cases k <;> exact seam_letter hlast rfl _
  exact spells_extended htarget hseam (tokensOf_keep k hwf hletter _)
    (hamount _ (seam_cons rfl rfl (by decide) rest))

theorem spells_explode {target faces : Tree} (htarget : target.SpelledOut)
    (hlast : target.endsWithParen = false) (hfaces : faces.SpelledOut) :
    Spells (Phrase.extended target.rendered (.explode faces.rendered)).words
      (tokensOf (target.chars ++ '!' :: '(' :: (faces.chars ++ ')' :: '!' :: ')' :: rest)))
      (tokensOf (')' :: rest)) := by
  have hclose : tokensOf (')' :: '!' :: ')' :: rest) = .op .parenBang :: tokensOf (')' :: rest) :=
    tokensOf_pair rfl _
  have hbody := hfaces (')' :: '!' :: ')' :: rest) (seam_cons rfl rfl (by decide) _)
  rw [hclose] at hbody
  exact spells_extended htarget (seam_bangParen hlast _) (tokensOf_pair rfl _)
    (hbody.append (.word .nil))

theorem spells_index {target position : Tree} (htarget : target.SpelledOut)
    (hposition : position.SpelledOut) :
    Spells (Phrase.extended target.rendered (.index position.rendered)).words
      (tokensOf (target.chars ++ '[' :: (position.chars ++ ']' :: rest))) (tokensOf rest) := by
  have hclose : tokensOf (']' :: rest) = .op .closeBracket :: tokensOf rest :=
    tokensOf_lone rfl (by decide) rest
  have hbody := hposition (']' :: rest) (seam_cons rfl rfl (by decide) rest)
  rw [hclose] at hbody
  exact spells_extended htarget (seam_cons rfl rfl (by decide) _) (tokensOf_lone rfl (by decide) _)
    (hbody.append (.word .nil))

/-- What follows an element is a comma or the closing bracket. -/
theorem seam_furtherChars (t : Tree) (trees : List Tree) (rest : List Char) :
    t.Seam (furtherChars trees ++ ']' :: rest) := by
  cases trees with
  | nil => exact (seam_cons rfl rfl (by decide) rest : t.Seam (']' :: rest))
  | cons u trees => exact (seam_cons rfl rfl (by decide) _ : t.Seam (',' :: _))

end Constructs

mutual

/-- **The description of a faithful tree is cut into the words of its phrase.** -/
theorem spells_description : (t : Tree) → t.WellFormed → t.faithful = true → t.SpelledOut
  | literal t, hwf, _, rest, hrest => by
    have hone := tokensOf_legible hwf.2 hrest.digit hrest.letter
    rw [chars_literal, hone]
    exact .word .nil
  | binary left right o, ⟨_, hwleft, hwright⟩, hf, rest, hrest => by
    simp only [faithful, Bool.and_eq_true, Bool.not_eq_true'] at hf
    obtain ⟨⟨⟨hfleft, hfright⟩, -⟩, -⟩ := hf
    have hleft := spells_description left hwleft hfleft
    have hright := spells_description right hwright hfright
    by_cases ho : o = .semicolon
    · subst ho
      have hseam : right.Seam rest := ⟨hrest.digit, hrest.letter, hrest.paren⟩
      rw [chars_sequence, List.append_assoc]
      exact spells_binary .semicolon hleft hright hseam
    · have hclosed : (binary left right o).endsWithParen = true := by
        cases o <;> first | rfl | exact absurd rfl ho
      rw [rendered_binary ho, chars_binary ho]
      simp only [List.cons_append, List.append_assoc, List.nil_append]
      exact spells_group (hrest.paren hclosed)
        (spells_binary o hleft hright (seam_cons rfl rfl (by decide) rest))
  | unary inner o, ⟨ho, hwf⟩, hf, rest, hrest => by
    simp only [faithful, Bool.and_eq_true, Bool.not_eq_true'] at hf
    rw [chars_unary]
    simp only [List.cons_append, List.append_assoc, List.nil_append]
    exact spells_group (hrest.paren rfl) (spells_unary ho (spells_description inner hwf hf.1))
  | suffix inner o, ⟨ho, hwf⟩, hf, rest, hrest => by
    simp only [faithful, Bool.and_eq_true, Bool.not_eq_true'] at hf
    rw [chars_suffix]
    simp only [List.cons_append, List.append_assoc, List.nil_append]
    exact spells_group (hrest.paren rfl) (spells_suffix ho (spells_description inner hwf hf.1))
  | dice none sides, hwf, hf, rest, hrest => by
    simp only [faithful, Bool.and_eq_true, Bool.not_eq_true'] at hf
    obtain ⟨⟨hfsides, -⟩, hletter⟩ := hf
    rw [chars_die]
    simp only [List.cons_append, List.append_assoc, List.nil_append]
    exact spells_group (hrest.paren rfl)
      (spells_die hwf hletter (spells_description sides hwf hfsides))
  | dice (some num) sides, ⟨hwnum, hwsides⟩, hf, rest, hrest => by
    simp only [faithful, Bool.and_eq_true, Bool.not_eq_true'] at hf
    obtain ⟨⟨⟨hfnum, -⟩, hlast⟩, ⟨hfsides, -⟩, hletter⟩ := hf
    rw [chars_dice]
    simp only [List.cons_append, List.append_assoc, List.nil_append]
    exact spells_group (hrest.paren rfl) (spells_dice (spells_description num hwnum hfnum) hlast
      hwsides hletter (spells_description sides hwsides hfsides))
  | keep k target amount, ⟨hwtarget, hwamount⟩, hf, rest, hrest => by
    simp only [faithful, Bool.and_eq_true, Bool.not_eq_true'] at hf
    obtain ⟨⟨⟨hftarget, -⟩, hlast⟩, ⟨hfamount, -⟩, hletter⟩ := hf
    rw [chars_keep]
    simp only [List.cons_append, List.append_assoc, List.nil_append]
    exact spells_group (hrest.paren rfl) (spells_keep k
      (spells_description target hwtarget hftarget) hlast hwamount hletter
      (spells_description amount hwamount hfamount))
  | explode target faces, ⟨hwtarget, hwfaces⟩, hf, rest, hrest => by
    simp only [faithful, Bool.and_eq_true, Bool.not_eq_true'] at hf
    obtain ⟨⟨⟨hftarget, -⟩, hlast⟩, hffaces⟩ := hf
    rw [chars_explode]
    simp only [List.cons_append, List.append_assoc, List.nil_append]
    exact spells_group (hrest.paren rfl) (spells_explode
      (spells_description target hwtarget hftarget) hlast
      (spells_description faces hwfaces hffaces))
  | array [], _, _, rest, _ => by
    change Spells _ (tokensOf ('[' :: ']' :: rest)) _
    rw [tokensOf_lone (o := .openBracket) rfl (by decide),
      tokensOf_lone (o := .closeBracket) rfl (by decide)]
    exact .word (.word .nil)
  | array (t :: trees), ⟨hwf, hwfs⟩, hf, rest, _ => by
    simp only [faithful, allFaithful, Bool.and_eq_true, Bool.not_eq_true'] at hf
    obtain ⟨⟨hft, -⟩, hftrees⟩ := hf
    have ht := spells_description t hwf hft _ (seam_furtherChars t trees rest)
    rw [chars_array]
    simp only [List.cons_append, List.append_assoc, List.nil_append]
    rw [tokensOf_lone (o := .openBracket) rfl (by decide)]
    exact .word (ht.append (spells_furtherChars trees hwfs hftrees rest))
  | index target position, ⟨hwtarget, hwposition⟩, hf, rest, _ => by
    simp only [faithful, Bool.and_eq_true, Bool.not_eq_true'] at hf
    obtain ⟨⟨hftarget, -⟩, hfposition⟩ := hf
    rw [chars_index]
    simp only [List.cons_append, List.append_assoc, List.nil_append]
    exact spells_index (spells_description target hwtarget hftarget)
      (spells_description position hwposition hfposition)

theorem spells_furtherChars : (trees : List Tree) → AllWellFormed trees →
    allFaithful trees = true → ∀ rest : List Char,
    Spells (furtherWords (allRendered trees) ++ arrayClose false)
      (tokensOf (furtherChars trees ++ ']' :: rest)) (tokensOf rest)
  | [], _, _, rest => by
    change Spells _ (tokensOf (']' :: rest)) _
    rw [tokensOf_lone (o := .closeBracket) rfl (by decide)]
    exact .word .nil
  | t :: trees, ⟨hwf, hwfs⟩, hf, rest => by
    simp only [allFaithful, Bool.and_eq_true, Bool.not_eq_true'] at hf
    obtain ⟨⟨hft, -⟩, hftrees⟩ := hf
    have ht := spells_description t hwf hft _ (seam_furtherChars t trees rest)
    rw [allRendered, furtherWords_cons_append, furtherChars]
    simp only [List.cons_append, List.append_assoc]
    rw [tokensOf_lone (o := .comma) rfl (by decide), tokensOf_space rfl]
    exact .word (ht.append (spells_furtherChars trees hwfs hftrees rest))

end

/-- The description of a tree is written for its phrase. -/
theorem derives_description {t : Tree} (hwf : t.WellFormed) (hf : t.faithful = true) :
    t.rendered.Derives (Token.ofText t.description) := by
  have hspells := spells_description t hwf hf [] seam_nil
  rw [List.append_nil, tokensOf_nil] at hspells
  exact ⟨fits_rendered t hwf hf 0 (Nat.zero_le _) (.inl rfl), hspells⟩

end Tree

/-! ## 5. Descriptions of texts -/

/-- **The description of a faithful tree reads back as that tree**, and is its own description, if
it does not nest deeper than the reader goes. -/
theorem describe_faithful {depth : Nat} {text d : String} (h : describe depth text = .ok d) :
    ∃ t, Tree.ofText depth text = .ok t ∧
      ∀ limit : Nat, t.faithful = true → t.rendered.nesting ≤ limit →
        Tree.ofText limit d = .ok t ∧ describe limit d = .ok d := by
  rcases readTokens_outcome depth (endOfInput_notMem_ofText text) with
    ⟨p, -, -, hread⟩ | ⟨done, e, hread⟩
  · have ht : Tree.ofText depth text = .ok p.tree := by
      rw [Tree.ofText, Actions.readText, hread Id Tree Actions.tree, Actions.fold_tree]
      rfl
    have hd : describe depth text = .ok p.tree.description := by
      rw [describe, Actions.readText, hread Id String Actions.description]
      rfl
    obtain rfl := Except.ok.inj (hd.symm.trans h)
    refine ⟨p.tree, ht, fun limit hf hnest => ?_⟩
    have hderives := Tree.derives_description (Tree.wellFormed_of_ofText ht) hf
    have htree : Tree.ofText limit p.tree.description = .ok p.tree.rendered.tree :=
      tree_ofTokens_eq_ok hderives hnest
    have hagain : describe limit p.tree.description = .ok p.tree.rendered.tree.description := by
      rw [describe, Actions.readText, hderives.readTokens hnest Id String Actions.description]
      rfl
    rw [p.tree.tree_rendered] at htree hagain
    exact ⟨htree, hagain⟩
  · have herror : describe depth text = .error e := by
      rw [describe, Actions.readText, hread Id String Actions.description]
      rfl
    rw [herror] at h
    cases h

/-- Keeps, explosions, an index and a sequence. -/
theorem describe_faithful_sequence :
    let t : Tree := .binary
      (.suffix (.keep .highest (.dice (some (.literal (.number 4))) (.literal (.number 6)))
        (.literal (.number 3))) .bang)
      (.explode (.index (.literal (.word "x")) (.literal (.number 0))) (.literal (.char 'a')))
      .semicolon
    describe 100 "4d6K3!; x[0]!('a')!" = .ok "(((4d6)kh3)!); (x[0]!('a')!)" ∧
      t.faithful = true ∧ t.rendered.nesting ≤ 100 ∧
      Tree.ofText 100 "(((4d6)kh3)!); (x[0]!('a')!)" = .ok t ∧
      describe 100 "(((4d6)kh3)!); (x[0]!('a')!)" = .ok "(((4d6)kh3)!); (x[0]!('a')!)" := by
  intro t
  have hd : describe 100 "4d6K3!; x[0]!('a')!" = .ok "(((4d6)kh3)!); (x[0]!('a')!)" := by cbv
  have ht : Tree.ofText 100 "4d6K3!; x[0]!('a')!" = .ok t := by cbv
  have hf : t.faithful = true := by decide
  have hnest : t.rendered.nesting ≤ 100 := by decide
  obtain ⟨t', ht', hback⟩ := describe_faithful hd
  obtain rfl := Except.ok.inj (ht.symm.trans ht')
  exact ⟨hd, hf, hnest, hback 100 hf hnest⟩

/-- A name makes one word with a `d` behind it or in front of it; the parenthesis of a die makes one
operator with the `!` of the faces on which it explodes; and a sequence inside another operator
loses its end. -/
theorem describe_not_faithful :
    ¬ (∀ (text d : String) (t : Tree), describe 100 text = .ok d → Tree.ofText 100 text = .ok t →
      Tree.ofText 100 d = .ok t) ∧
    (describe 100 "x d 6" = .ok "(xd6)" ∧
      Tree.ofText 100 "(xd6)" = .error (.unexpected (.number 6))) ∧
    (describe 100 "d x" = .ok "(dx)" ∧ describe 100 "(dx)" = .ok "dx") ∧
    (describe 100 "2d6!(6)!" = .ok "((2d6)!(6)!)" ∧
      Tree.ofText 100 "((2d6)!(6)!)" = .error (.expected .closeParen (.op .openParen))) ∧
    (describe 100 "(1; 2) + 3" = .ok "(1; 2 + 3)" ∧
      describe 100 "(1; 2 + 3)" = .ok "1; (2 + 3)") := by
  have hname : describe 100 "x d 6" = .ok "(xd6)" := by cbv
  have hread : Tree.ofText 100 "(xd6)" = .error (.unexpected (.number 6)) := by cbv
  have htree : Tree.ofText 100 "x d 6" =
      .ok (.dice (some (.literal (.word "x"))) (.literal (.number 6))) := by cbv
  refine ⟨fun hall => ?_, ⟨hname, hread⟩, ⟨by cbv, by cbv⟩, ⟨by cbv, by cbv⟩, by cbv, by cbv⟩
  have hback := hall _ _ _ hname htree
  rw [hread] at hback
  cases hback

end DiceNotation
