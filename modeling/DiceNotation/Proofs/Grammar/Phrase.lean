/-
# Phrases: the grammar of binding powers

A **phrase** is a derivation: an expression with everything that its tokens say, groups and trailing
commas included.  Which phrases belong to the grammar is a matter of binding powers alone, and it
is said here without the reader:

* `Phrase.words`: the tokens that a phrase is written with;
* `Phrase.openPowers`: the right powers of the operators that are still open on its right edge,
  where no bracket encloses them;
* `Phrase.Fits m p`: the phrase `p` is an operand of least power `m`.  A construct of left power
  `b` extends a left operand only if `m ≤ b`, and only if `b` is below every power that is open on
  the right edge of that operand;
* `Spells`: tokens write words.  There is one case in which they are not the same: the token `)!`
  writes the word `)` and leaves a `!` in front of what follows.

`Phrase.Derives p tokens` puts them together.  Trees forget what a phrase says beyond its constructs
(`Phrase.tree`).
-/
import DiceNotation.Tree

namespace DiceNotation

/-! ## 1. Phrases -/

mutual

/-- A derivation.  An array literal that is not empty has a first element, so that only such a one
can have a comma behind its last element. -/
inductive Phrase where
  | literal (t : Token)
  | group (inner : Phrase)
  | emptyArray
  | array (first : Phrase) (more : List Phrase) (comma : Bool)
  | unary (o : Op) (inner : Phrase)
  | die (sides : Phrase)
  | extended (left : Phrase) (tail : Tail)

/-- What a construct adds behind its left operand. -/
inductive Tail where
  | suffix (o : Op)
  | explode (faces : Phrase)
  | index (position : Phrase)
  | binary (o : Op) (right : Phrase)
  | dice (sides : Phrase)
  | keep (word : String) (amount : Phrase)

end

/-- The first token of a tail. -/
def Tail.start : Tail → Token
  | suffix o => .op o
  | explode _ => .op .bangParen
  | index _ => .op .openBracket
  | binary o _ => .op o
  | dice _ => .word dieWord
  | keep word _ => .word word

/-- The tokens that close an array literal. -/
def arrayClose (comma : Bool) : List Token :=
  if comma then [.op .comma, .op .closeBracket] else [.op .closeBracket]

mutual

/-- The tokens that a phrase is written with. -/
def Phrase.words : Phrase → List Token
  | .literal t => [t]
  | .group inner => .op .openParen :: (inner.words ++ [.op .closeParen])
  | .emptyArray => [.op .openBracket, .op .closeBracket]
  | .array first more comma =>
    .op .openBracket :: (first.words ++ (furtherWords more ++ arrayClose comma))
  | .unary o inner => .op o :: inner.words
  | .die sides => .word dieWord :: sides.words
  | .extended left tail => left.words ++ tail.start :: tail.body

/-- The tokens of a tail behind its first one. -/
def Tail.body : Tail → List Token
  | .suffix _ => []
  | .explode faces => faces.words ++ [.op .parenBang]
  | .index position => position.words ++ [.op .closeBracket]
  | .binary _ right => right.words
  | .dice sides => sides.words
  | .keep _ amount => amount.words

/-- The tokens of the elements of an array literal behind the first one. -/
def furtherWords : List Phrase → List Token
  | [] => []
  | p :: more => .op .comma :: (p.words ++ furtherWords more)

end

/-! ## 2. Trees and nesting -/

mutual

/-- The tree of a phrase.  Groups and trailing commas leave no node. -/
def Phrase.tree : Phrase → Tree
  | .literal t => .literal t
  | .group inner => inner.tree
  | .emptyArray => .array []
  | .array first more _ => .array (first.tree :: treesOf more)
  | .unary o inner => .unary inner.tree o
  | .die sides => .dice none sides.tree
  | .extended left tail => tail.onto left.tree

/-- The tree of a left operand with a tail. -/
def Tail.onto : Tail → Tree → Tree
  | .suffix o, left => .suffix left o
  | .explode faces, left => .explode left faces.tree
  | .index position, left => .index left position.tree
  | .binary o right, left => .binary left right.tree o
  | .dice sides, left => .dice (some left) sides.tree
  | .keep word amount, left => .keep ((Keep.ofWord? word).getD .highest) left amount.tree

/-- The trees of some phrases. -/
def treesOf : List Phrase → List Tree
  | [] => []
  | p :: more => p.tree :: treesOf more

end

mutual

/-- How many operands are read one inside the other. -/
def Phrase.nesting : Phrase → Nat
  | .literal _ => 1
  | .group inner => inner.nesting + 1
  | .emptyArray => 1
  | .array first more _ => max first.nesting (nestingOf more) + 1
  | .unary _ inner => inner.nesting + 1
  | .die sides => sides.nesting + 1
  | .extended left tail => max left.nesting (tail.nesting + 1)

/-- The nesting of what stands in a tail. -/
def Tail.nesting : Tail → Nat
  | .suffix _ => 0
  | .explode faces => faces.nesting
  | .index position => position.nesting
  | .binary _ right => right.nesting
  | .dice sides => sides.nesting
  | .keep _ amount => amount.nesting

/-- The greatest nesting of some phrases. -/
def nestingOf : List Phrase → Nat
  | [] => 0
  | p :: more => max p.nesting (nestingOf more)

end

/-! ## 3. The grammar -/

mutual

/-- The right powers of the operators that are open on the right edge of a phrase. -/
def Phrase.openPowers : Phrase → List Nat
  | .literal _ => []
  | .group _ => []
  | .emptyArray => []
  | .array _ _ _ => []
  | .unary o inner => o.unaryPower?.toList ++ inner.openPowers
  | .die sides => sidesPower :: sides.openPowers
  | .extended _ tail => tail.openPowers

/-- The right powers of the operators that are open on the right edge of a tail. -/
def Tail.openPowers : Tail → List Nat
  | .suffix _ => []
  | .explode _ => []
  | .index _ => []
  | .binary o right => (o.binaryPowers?.map Prod.snd).toList ++ right.openPowers
  | .dice sides => sidesPower :: sides.openPowers
  | .keep _ amount => keepPower :: amount.openPowers

end

/-- The tokens that are operands by themselves.  A word is one whatever it is, except for `d`. -/
def Token.isLiteral : Token → Bool
  | .number _ => true
  | .char _ => true
  | .string _ => true
  | .word name => name != dieWord
  | _ => false

mutual

/-- `Fits m p`: the phrase `p` is an operand of least power `m`. -/
inductive Phrase.Fits : Nat → Phrase → Prop
  | literal {m : Nat} {t : Token} : t.isLiteral = true → Phrase.Fits m (.literal t)
  | group {m : Nat} {p : Phrase} : Phrase.Fits 0 p → Phrase.Fits m (.group p)
  | emptyArray {m : Nat} : Phrase.Fits m .emptyArray
  | array {m : Nat} {first : Phrase} {more : List Phrase} {comma : Bool} :
      Phrase.Fits elementPower first → (∀ p ∈ more, Phrase.Fits elementPower p) →
      Phrase.Fits m (.array first more comma)
  | unary {m r : Nat} {o : Op} {p : Phrase} :
      o.unaryPower? = some r → Phrase.Fits r p → Phrase.Fits m (.unary o p)
  | die {m : Nat} {p : Phrase} : Phrase.Fits sidesPower p → Phrase.Fits m (.die p)
  | extended {m : Nat} {left : Phrase} {tail : Tail} {e : Extension} :
      Phrase.Fits m left → Tail.Fits e tail → m ≤ e.power → (∀ r ∈ left.openPowers, e.power < r) →
      Phrase.Fits m (.extended left tail)

/-- `Fits e tail`: the tail is that of the extension `e`, its right operand an operand of the right
power.  What stands between brackets may have any power. -/
inductive Tail.Fits : Extension → Tail → Prop
  | suffix {o : Op} : o.suffixPower?.isSome = true → Tail.Fits (.suffix o) (.suffix o)
  | explode {p : Phrase} : Phrase.Fits 0 p → Tail.Fits .explode (.explode p)
  | index {p : Phrase} : Phrase.Fits 0 p → Tail.Fits .index (.index p)
  | binary {l r : Nat} {o : Op} {p : Phrase} :
      o.binaryPowers? = some (l, r) → Phrase.Fits r p → Tail.Fits (.binary o l r) (.binary o p)
  | dice {p : Phrase} : Phrase.Fits sidesPower p → Tail.Fits .dice (.dice p)
  | keep {k : Keep} {word : String} {p : Phrase} :
      Keep.ofWord? word = some k → Phrase.Fits keepPower p → Tail.Fits (.keep k) (.keep word p)

end

/-- `Spells words tokens rest`: the tokens write the words and go on with `rest`.  The token `)!`
may write the word `)`, with its second half left over. -/
inductive Spells : List Token → List Token → List Token → Prop
  | nil {rest : List Token} : Spells [] rest rest
  | word {t : Token} {words tokens rest : List Token} :
      Spells words tokens rest → Spells (t :: words) (t :: tokens) rest
  | half {words tokens rest : List Token} :
      Spells words (.op .bang :: tokens) rest →
      Spells (.op .closeParen :: words) (.op .parenBang :: tokens) rest

/-- `p.Derives tokens`: the phrase is a derivation of the tokens as a whole. -/
def Phrase.Derives (p : Phrase) (tokens : List Token) : Prop :=
  p.Fits 0 ∧ Spells p.words tokens []

/-! ## 4. Spelling -/

theorem Spells.append {ws₁ ws₂ tokens mid rest : List Token} (h₁ : Spells ws₁ tokens mid)
    (h₂ : Spells ws₂ mid rest) : Spells (ws₁ ++ ws₂) tokens rest := by
  induction h₁ with
  | nil => exact h₂
  | word _ ih => exact .word (ih h₂)
  | half _ ih => exact .half (ih h₂)

/-- Words spell themselves. -/
theorem Spells.self : (words : List Token) → Spells words words []
  | [] => .nil
  | _ :: words => .word (Spells.self words)

/-- Words in two parts are written by tokens in two parts. -/
theorem spells_append_iff {ws₁ ws₂ tokens rest : List Token} :
    Spells (ws₁ ++ ws₂) tokens rest ↔ ∃ mid, Spells ws₁ tokens mid ∧ Spells ws₂ mid rest := by
  constructor
  · intro h
    induction ws₁ generalizing tokens with
    | nil => exact ⟨tokens, .nil, h⟩
    | cons w ws ih =>
      cases h with
      | word h =>
        obtain ⟨mid, h₁, h₂⟩ := ih h
        exact ⟨mid, .word h₁, h₂⟩
      | half h =>
        obtain ⟨mid, h₁, h₂⟩ := ih h
        exact ⟨mid, .half h₁, h₂⟩
  · rintro ⟨mid, h₁, h₂⟩
    exact h₁.append h₂

theorem spells_nil_iff {tokens rest : List Token} : Spells [] tokens rest ↔ tokens = rest :=
  ⟨fun h => by cases h; rfl, fun h => h ▸ .nil⟩

/-- Any word but `)` is written by itself. -/
theorem spells_cons_iff {t : Token} {words tokens rest : List Token}
    (ht : t ≠ .op .closeParen) :
    Spells (t :: words) tokens rest ↔ ∃ more, tokens = t :: more ∧ Spells words more rest := by
  constructor
  · intro h
    cases h with
    | word h => exact ⟨_, rfl, h⟩
    | half => exact absurd rfl ht
  · rintro ⟨more, rfl, h⟩
    exact .word h

theorem spells_cons_cons_iff {t u : Token} {words tokens rest : List Token}
    (ht : t ≠ .op .closeParen) :
    Spells (t :: words) (u :: tokens) rest ↔ t = u ∧ Spells words tokens rest := by
  rw [spells_cons_iff ht]
  constructor
  · rintro ⟨_, heq, h⟩
    obtain ⟨rfl, rfl⟩ := List.cons.inj heq
    exact ⟨rfl, h⟩
  · rintro ⟨rfl, h⟩
    exact ⟨tokens, rfl, h⟩

/-- A `)` is written by itself or by the first half of `)!`. -/
theorem spells_closeParen_iff {tokens rest : List Token} :
    Spells [.op .closeParen] tokens rest ↔
      tokens = .op .closeParen :: rest ∨
        ∃ more, tokens = .op .parenBang :: more ∧ rest = .op .bang :: more := by
  constructor
  · intro h
    cases h with
    | word h => exact .inl (by rw [spells_nil_iff.mp h])
    | half h => exact .inr ⟨_, rfl, (spells_nil_iff.mp h).symm⟩
  · rintro (rfl | ⟨more, rfl, rfl⟩)
    · exact .word .nil
    · exact .half .nil

/-- Every word takes away some weight, also the one that is half of a token. -/
theorem Spells.weight_le {words tokens rest : List Token} (h : Spells words tokens rest) :
    weight rest + words.length ≤ weight tokens := by
  induction h with
  | nil => simp
  | @word t words tokens rest _ ih =>
    have := t.weight_pos
    simp only [weight_cons, List.length_cons]
    omega
  | half _ ih =>
    simp only [weight_cons, Token.weight, List.length_cons] at ih ⊢
    omega

theorem Phrase.words_ne_nil : (p : Phrase) → p.words ≠ []
  | .literal _ => by simp [words]
  | .group _ => by simp [words]
  | .emptyArray => by simp [words]
  | .array _ _ _ => by simp [words]
  | .unary _ _ => by simp [words]
  | .die _ => by simp [words]
  | .extended _ _ => by simp [words]

theorem Phrase.weight_lt {p : Phrase} {tokens rest : List Token}
    (h : Spells p.words tokens rest) : weight rest < weight tokens := by
  have := h.weight_le
  have := List.length_pos_iff.mpr p.words_ne_nil
  omega

/-! ## 5. Where an operand ends -/

/-- Behind an operand of least power `power` the tokens do not go on with a construct that would
extend it. -/
def Stops (power : Nat) : List Token → Prop
  | [] => True
  | t :: _ =>
    match t.extension? with
    | some e => e.power < power
    | none => t.endsOperand = true

/-- Behind a phrase the tokens extend none of the operands that are open on its right edge. -/
def Phrase.Seals (p : Phrase) (rest : List Token) : Prop := ∀ r ∈ p.openPowers, Stops r rest

/-- The phrase stands at the front of some tokens as an operand of least power `power`, and nothing
behind it extends it or an operand inside it. -/
structure Phrase.Stands (p : Phrase) (power : Nat) (tokens rest : List Token) : Prop where
  fits : p.Fits power
  spells : Spells p.words tokens rest
  stops : Stops power rest
  seals : p.Seals rest

@[simp] theorem stops_nil (power : Nat) : Stops power [] := trivial

theorem stops_cons_of_extension {power : Nat} {t : Token} {e : Extension} (rest : List Token)
    (h : t.extension? = some e) : Stops power (t :: rest) ↔ e.power < power := by
  simp [Stops, h]

/-- An operator that starts no construct ends every operand. -/
theorem stops_op {o : Op} (h : o.extension? = none) (power : Nat) (rest : List Token) :
    Stops power (.op o :: rest) := by
  simp [Stops, Token.extension?, h, Token.endsOperand]

/-- A tail of an extension starts with a token that starts the extension. -/
theorem Tail.Fits.extension?_start {e : Extension} {tail : Tail} (h : Tail.Fits e tail) :
    tail.start.extension? = some e := by
  cases h with
  | @suffix o ho => cases o <;> simp_all [Op.suffixPower?, Tail.start, Token.extension?,
      Op.extension?]
  | explode => rfl
  | index => rfl
  | @binary l r o p ho => cases o <;> simp_all [Op.binaryPowers?, Tail.start, Token.extension?,
      Op.extension?]
  | dice => rfl
  | @keep k word p hk =>
    have hd : word ≠ dieWord := by
      rintro rfl
      exact absurd (hk.symm.trans (by decide : Keep.ofWord? dieWord = none)) (by simp)
    simp [Tail.start, Token.extension?, hd, hk]

/-- No tail starts with a closing parenthesis. -/
theorem Tail.Fits.start_ne {e : Extension} {tail : Tail} (h : Tail.Fits e tail) :
    tail.start ≠ .op .closeParen := by
  intro heq
  have hnone : (Token.op .closeParen).extension? = none := by decide
  have hstart := h.extension?_start
  rw [heq, hnone] at hstart
  cases hstart

/-! ## 6. Elements -/

/-- No phrase begins with a closing bracket. -/
theorem Phrase.Fits.head?_words_ne {p : Phrase} {power : Nat} :
    p.Fits power → p.words.head? ≠ some (.op .closeBracket)
  | @Fits.literal _ t ht => by
    rintro h
    obtain rfl : t = .op .closeBracket := by simpa [words] using h
    simp [Token.isLiteral] at ht
  | .group _ => by simp [words]
  | .emptyArray => by simp [words]
  | .array _ _ => by simp [words]
  | @Fits.unary _ _ o _ ho _ => by
    rintro h
    obtain rfl : o = .closeBracket := by simpa [words] using h
    simp [Op.unaryPower?] at ho
  | .die _ => by simp [words]
  | @Fits.extended _ left _ _ hleft _ _ _ => by
    obtain ⟨w, ws, hw⟩ := List.exists_cons_of_ne_nil left.words_ne_nil
    have ih := hleft.head?_words_ne
    simpa [words, hw] using ih

mutual

/-- An operand of an element has no operator open on its right edge that a comma would extend. -/
theorem Phrase.Fits.elementPower_le {p : Phrase} {power : Nat} :
    p.Fits power → elementPower ≤ power → ∀ r ∈ p.openPowers, elementPower ≤ r
  | .literal _, _ => by simp [Phrase.openPowers]
  | .group _, _ => by simp [Phrase.openPowers]
  | .emptyArray, _ => by simp [Phrase.openPowers]
  | .array _ _, _ => by simp [Phrase.openPowers]
  | @Phrase.Fits.unary _ r o _ ho hp, _ => by
    have hr : elementPower ≤ r := by cases o <;> simp_all [Op.unaryPower?, elementPower] <;> omega
    simpa [Phrase.openPowers, ho, hr] using hp.elementPower_le hr
  | .die hp, _ => by
    simpa [Phrase.openPowers, sidesPower, elementPower] using hp.elementPower_le (by decide)
  | .extended _ htail he _, hpower => htail.elementPower_le (Nat.le_trans hpower he)

theorem Tail.Fits.elementPower_le {tail : Tail} {e : Extension} :
    Tail.Fits e tail → elementPower ≤ e.power → ∀ r ∈ tail.openPowers, elementPower ≤ r
  | .suffix _, _ => by simp [Tail.openPowers]
  | .explode _, _ => by simp [Tail.openPowers]
  | .index _, _ => by simp [Tail.openPowers]
  | @Tail.Fits.binary l r o _ ho hp, hl => by
    have hr : elementPower ≤ r := by
      cases o <;> simp_all [Op.binaryPowers?, elementPower, Extension.power] <;> omega
    simpa [Tail.openPowers, ho, hr] using hp.elementPower_le hr
  | .dice hp, _ => by
    simpa [Tail.openPowers, sidesPower, elementPower] using hp.elementPower_le (by decide)
  | .keep _ hp, _ => by
    simpa [Tail.openPowers, keepPower, elementPower] using hp.elementPower_le (by decide)

end

/-- Tokens that spell a phrase do not begin with a closing bracket. -/
theorem Phrase.Fits.ne_closeBracket {p : Phrase} {power : Nat} (h : p.Fits power)
    {words tokens rest : List Token} (hspells : Spells (p.words ++ words) tokens rest)
    (r : List Token) : tokens ≠ .op .closeBracket :: r := by
  rintro rfl
  have hhead := h.head?_words_ne
  obtain ⟨w, ws, hw⟩ := List.exists_cons_of_ne_nil p.words_ne_nil
  rw [hw] at hspells hhead
  cases hspells with
  | word => exact hhead rfl

theorem stops_comma {r : Nat} (hr : elementPower ≤ r) (rest : List Token) :
    Stops r (.op .comma :: rest) := by
  have h : (Token.op .comma).extension? = some (.binary .comma 5 6) := rfl
  refine (stops_cons_of_extension rest h).mpr (Nat.lt_of_lt_of_le ?_ hr)
  decide

/-- Neither a comma nor the closing bracket extends an element or an operand inside it. -/
theorem Phrase.Fits.seals_element {p : Phrase} (h : p.Fits elementPower) {t : Token}
    (ht : t = .op .comma ∨ t = .op .closeBracket) (rest : List Token) :
    Stops elementPower (t :: rest) ∧ p.Seals (t :: rest) := by
  have hstops : ∀ r, elementPower ≤ r → Stops r (t :: rest) := by
    intro r hr
    rcases ht with rfl | rfl
    · exact stops_comma hr rest
    · exact stops_op rfl r rest
  exact ⟨hstops _ (Nat.le_refl _), fun r hr => hstops r (h.elementPower_le (Nat.le_refl _) r hr)⟩

theorem furtherWords_cons_append (p : Phrase) (more : List Phrase) (words : List Token) :
    furtherWords (p :: more) ++ words =
      .op .comma :: (p.words ++ (furtherWords more ++ words)) := by
  simp [furtherWords]

/-- What stands behind an element: the end of the array literal, with or without a comma, or a comma
and the next element. -/
theorem spells_behind_element {more : List Phrase} {comma : Bool} {tokens rest : List Token}
    (hmore : ∀ p ∈ more, p.Fits elementPower)
    (h : Spells (furtherWords more ++ arrayClose comma) tokens rest) :
    (more = [] ∧ comma = false ∧ tokens = .op .closeBracket :: rest) ∨
    (more = [] ∧ comma = true ∧ tokens = .op .comma :: .op .closeBracket :: rest) ∨
    ∃ p further body, more = p :: further ∧ tokens = .op .comma :: body ∧
      (∀ r, body ≠ .op .closeBracket :: r) ∧
      Spells (p.words ++ (furtherWords further ++ arrayClose comma)) body rest := by
  cases more with
  | nil =>
    cases comma with
    | false =>
      obtain ⟨_, rfl, hnil⟩ := (spells_cons_iff (by decide)).mp h
      exact .inl ⟨rfl, rfl, by rw [spells_nil_iff.mp hnil]⟩
    | true =>
      obtain ⟨_, rfl, hbracket⟩ := (spells_cons_iff (by decide)).mp h
      obtain ⟨_, rfl, hnil⟩ := (spells_cons_iff (by decide)).mp hbracket
      exact .inr (.inl ⟨rfl, rfl, by rw [spells_nil_iff.mp hnil]⟩)
  | cons p further =>
    rw [furtherWords_cons_append] at h
    obtain ⟨body, rfl, hbody⟩ := (spells_cons_iff (by decide)).mp h
    have hp := hmore p List.mem_cons_self
    exact .inr (.inr ⟨p, further, body, rfl, rfl, hp.ne_closeBracket hbody, hbody⟩)

/-- An element of an array literal stands where it is. -/
theorem Phrase.Fits.stands_element {p : Phrase} {more : List Phrase} {comma : Bool}
    {tokens mid rest : List Token} (h : p.Fits elementPower)
    (hmore : ∀ p ∈ more, p.Fits elementPower) (hwords : Spells p.words tokens mid)
    (hbehind : Spells (furtherWords more ++ arrayClose comma) mid rest) :
    p.Stands elementPower tokens mid := by
  rcases spells_behind_element hmore hbehind with ⟨-, -, rfl⟩ | ⟨-, -, rfl⟩ | ⟨_, _, _, -, rfl, -⟩
  · obtain ⟨hstops, hseals⟩ := h.seals_element (.inr rfl) rest
    exact ⟨h, hwords, hstops, hseals⟩
  · obtain ⟨hstops, hseals⟩ := h.seals_element (.inl rfl) (.op .closeBracket :: rest)
    exact ⟨h, hwords, hstops, hseals⟩
  · obtain ⟨hstops, hseals⟩ := h.seals_element (.inl rfl) _
    exact ⟨h, hwords, hstops, hseals⟩

end DiceNotation
