/-
# The reader accepts its grammar

Tokens are read to their end exactly if they have a derivation that nests no deeper than the reader
goes, and then the derivation is the only one and the reader builds its tree
(`accepts_iff_derives`).  That is soundness, completeness and unambiguity put together, for an
operand of least power 0 that is followed by nothing.

The end mark is no word of a derivation.  A text has none among its tokens
(`endOfInput_notMem_ofText`), and other tokens are not read if it is among them.
-/
import DiceNotation.Proofs.Grammar.Completeness
import DiceNotation.Proofs.Grammar.Unambiguity

namespace DiceNotation

/-! ## 1. Tokens to their end -/

theorem Phrase.stands_of_derives {p : Phrase} {tokens : List Token} (h : p.Derives tokens) :
    p.Stands 0 tokens [] :=
  ⟨h.1, h.2, stops_nil 0, fun r _ => stops_nil r⟩

/-- What is left over is there from the start, except for the second half of `)!`. -/
theorem Spells.mem_of_mem_rest {words tokens rest : List Token} (h : Spells words tokens rest)
    {t : Token} (ht : t ∈ rest) : t ∈ tokens ∨ t = .op .bang := by
  induction h with
  | nil => exact .inl ht
  | word _ ih => exact (ih ht).imp_left (List.mem_cons_of_mem _)
  | half _ ih =>
    rcases ih ht with hmem | hbang
    · rcases List.mem_cons.mp hmem with rfl | hmem
      · exact .inr rfl
      · exact .inl (List.mem_cons_of_mem _ hmem)
    · exact .inr hbang

/-- No piece of text says the end mark. -/
theorem Token.ofPiece?_ne_endOfInput (piece : List Char) : ofPiece? piece ≠ some .endOfInput := by
  unfold ofPiece? ofDigits ofQuoted
  grind

theorem endOfInput_notMem_ofText (text : String) : Token.endOfInput ∉ Token.ofText text := by
  intro hmem
  obtain ⟨piece, _, hpiece⟩ := List.mem_filterMap.mp hmem
  exact Token.ofPiece?_ne_endOfInput piece hpiece

/-- What becomes of tokens as a whole, for all actions at once: they are a phrase, and its tree is
folded, or they are none, and the trees that are complete are folded before the error. -/
theorem readTokens_outcome (depth : Nat) {tokens : List Token} (hend : .endOfInput ∉ tokens) :
    (∃ p : Phrase, p.Derives tokens ∧ p.nesting ≤ depth ∧
      ∀ (m : Type → Type) [Monad m] [LawfulMonad m] (α : Type) (acts : Actions m α),
        acts.readTokens depth tokens = acts.fold p.tree) ∨
    ∃ (done : List Tree) (e : SyntaxError),
      ∀ (m : Type → Type) [Monad m] [LawfulMonad m] (α : Type) (acts : Actions m α),
        acts.readTokens depth tokens = (do
          let _ ← acts.foldAll done
          throw e) := by
  rcases operandReaders_sound depth 0 tokens with ⟨p, rest, hp, h, hread⟩ | ⟨done, e, hread⟩
  · match rest with
    | [] =>
      refine .inl ⟨p, ⟨hp.fits, hp.spells⟩, hp.nesting_le, fun m _ _ α acts => ?_⟩
      have hone := hread m α acts
      simp only [operandReaders] at hone
      simp [Actions.readTokens, hone, frontToken]
    | t :: rest =>
      have ht : t ≠ .endOfInput := by
        rintro rfl
        rcases hp.spells.mem_of_mem_rest List.mem_cons_self with hmem | hbang
        · exact hend hmem
        · simp at hbang
      refine .inr ⟨[p.tree], t.misplaced, fun m _ _ α acts => ?_⟩
      have hone := hread m α acts
      simp only [operandReaders] at hone
      simp [Actions.readTokens, hone, frontToken, Actions.foldAll]
  · refine .inr ⟨done, e, fun m _ _ α acts => ?_⟩
    have hone := hread m α acts
    simp only [operandReaders] at hone
    simp [Actions.readTokens, hone]

/-- Every phrase is read, and nothing else is done. -/
theorem Phrase.Derives.readTokens {p : Phrase} {tokens : List Token} {depth : Nat}
    (h : p.Derives tokens) (hnest : p.nesting ≤ depth) (m : Type → Type) [Monad m] [LawfulMonad m]
    (α : Type) (acts : Actions m α) : acts.readTokens depth tokens = acts.fold p.tree := by
  have hread : p.ReadAs depth 0 tokens [] := ⟨p.stands_of_derives h, hnest⟩
  obtain ⟨_, hgives⟩ := hread.gives
  have hone := hgives m α acts
  simp only [operandReaders] at hone
  simp [Actions.readTokens, hone, frontToken]

/-! ## 2. Trees -/

mutual

/-- The actions that build trees build each tree again. -/
theorem Actions.fold_tree : (t : Tree) → Actions.tree.fold t = t
  | .literal _ => rfl
  | .binary left right _ => by rw [fold, fold_tree left, fold_tree right]; rfl
  | .unary inner _ => by rw [fold, fold_tree inner]; rfl
  | .suffix inner _ => by rw [fold, fold_tree inner]; rfl
  | .dice none sides => by rw [fold, fold_tree sides]; rfl
  | .dice (some num) sides => by rw [fold, fold_tree num, fold_tree sides]; rfl
  | .keep _ target amount => by rw [fold, fold_tree target, fold_tree amount]; rfl
  | .explode target faces => by rw [fold, fold_tree target, fold_tree faces]; rfl
  | .array items => by rw [fold, foldAll_tree items]; rfl
  | .index target position => by rw [fold, fold_tree target, fold_tree position]; rfl

theorem Actions.foldAll_tree : (trees : List Tree) → Actions.tree.foldAll trees = trees
  | [] => rfl
  | t :: trees => by rw [foldAll, fold_tree t, foldAll_tree trees]; rfl

end

/-- The tree of some tokens that are one expression and nothing else. -/
def Tree.ofTokens (depth : Nat) (tokens : List Token) : Except SyntaxError Tree :=
  (Actions.tree.readTokens depth tokens).run

theorem tree_ofTokens_eq_ok {p : Phrase} {tokens : List Token} {depth : Nat}
    (h : p.Derives tokens) (hnest : p.nesting ≤ depth) :
    Tree.ofTokens depth tokens = .ok p.tree := by
  rw [Tree.ofTokens, h.readTokens hnest Id Tree Actions.tree, Actions.fold_tree]
  rfl

/-- **The reader accepts exactly its grammar and builds the only tree.** -/
theorem accepts_iff_derives (depth : Nat) {tokens : List Token} (hend : .endOfInput ∉ tokens) :
    ((∃ t, Tree.ofTokens depth tokens = .ok t) ↔
      ∃ p : Phrase, p.Derives tokens ∧ p.nesting ≤ depth) ∧
    (∀ p q : Phrase, p.Derives tokens → q.Derives tokens → p = q) ∧
    ∀ p : Phrase, p.Derives tokens → p.nesting ≤ depth →
      Tree.ofTokens depth tokens = .ok p.tree := by
  refine ⟨⟨?_, fun ⟨p, hp, hnest⟩ => ⟨p.tree, tree_ofTokens_eq_ok hp hnest⟩⟩, ?_,
    fun p hp hnest => tree_ofTokens_eq_ok hp hnest⟩
  · rintro ⟨t, ht⟩
    rcases readTokens_outcome depth hend with ⟨p, hp, hnest, -⟩ | ⟨done, e, hbreaks⟩
    · exact ⟨p, hp, hnest⟩
    · have herror : Tree.ofTokens depth tokens = .error e := by
        rw [Tree.ofTokens, hbreaks Id Tree Actions.tree]
        rfl
      exact absurd (herror.symm.trans ht) (by simp)
  · intro p q hp hq
    exact ((p.stands_of_derives hp).unique (q.stands_of_derives hq)).1

/-- `(2)!+3*4`, where the group ends in the middle of a token, and of the two operators between
operands the second one holds its operands more tightly. -/
theorem accepts_iff_derives_sum_of_product :
    let tokens : List Token :=
      [.op .openParen, .number 2, .op .parenBang, .op .plus, .number 3, .op .star, .number 4]
    let factorial : Phrase := .extended (.group (.literal (.number 2))) (.suffix .bang)
    let product : Phrase := .extended (.literal (.number 3)) (.binary .star (.literal (.number 4)))
    let p : Phrase := .extended factorial (.binary .plus product)
    Token.endOfInput ∉ tokens ∧ p.Derives tokens ∧ p.nesting ≤ 3 ∧
      Tree.ofTokens 3 tokens = .ok (.binary (.suffix (.literal (.number 2)) .bang)
        (.binary (.literal (.number 3)) (.literal (.number 4)) .star) .plus) := by
  intro tokens factorial product p
  have hend : Token.endOfInput ∉ tokens := by decide
  have hfactorial : factorial.Fits 0 :=
    .extended (.group (.literal rfl)) (.suffix rfl) (by decide) nofun
  have hproduct : product.Fits 14 :=
    .extended (.literal rfl) (.binary rfl (.literal rfl)) (by decide) nofun
  have hsum : p.Fits 0 := .extended hfactorial (.binary rfl hproduct) (by decide) nofun
  have hspells : Spells p.words tokens [] :=
    .word (.word (.half (.word (.word (.word (.word (.word .nil)))))))
  have hnest : p.nesting ≤ 3 := by decide
  obtain ⟨-, -, hbuilds⟩ := accepts_iff_derives 3 hend
  exact ⟨hend, ⟨hsum, hspells⟩, hnest, hbuilds p ⟨hsum, hspells⟩ hnest⟩

end DiceNotation
