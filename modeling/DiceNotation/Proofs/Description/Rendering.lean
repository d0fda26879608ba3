/-
# The phrase that a description writes

A description is the text of a phrase that can be told from the tree: `Tree.rendered` puts every
construct into a group, except that literals, array literals and indices stand for themselves and a
sequence stands open.  The groups make the phrase belong to the grammar, whatever the powers of the
operators are (`Tree.fits_rendered`), and leave the tree as it is (`Tree.tree_rendered`), as long as
no sequence stands where its semicolon is out of place.  `Tree.Faithful` says where that is, and
which constructs may not be neighbours in the text because their characters would fuse.

What a tree needs to be written down, operators that are defined where they stand and legible
literals (`Tree.WellFormed`), every tree of a text has (`Tree.wellFormed_of_ofText`).
-/
import DiceNotation.Description
import DiceNotation.Proofs.Grammar.Derivation
import DiceNotation.Proofs.Token.Legible

namespace DiceNotation

/-! ## 1. Faithful trees -/

namespace Tree

/-- A tree whose description stands open: a sequence. -/
def isSequence : Tree → Bool
  | binary _ _ .semicolon => true
  | _ => false

/-- Whether the description of a tree begins with a letter. -/
def beginsWithLetter : Tree → Bool
  | literal t => t.isWord
  | binary left _ .semicolon => left.beginsWithLetter
  | index target _ => target.beginsWithLetter
  | _ => false

/-- Whether the description of a tree ends with a letter. -/
def endsWithLetter : Tree → Bool
  | literal t => t.isWord
  | binary _ right .semicolon => right.endsWithLetter
  | _ => false

/-- Whether the description of a tree ends with a digit. -/
def endsWithDigit : Tree → Bool
  | literal t => t.isNumber
  | binary _ right .semicolon => right.endsWithDigit
  | _ => false

/-- Whether the description of a tree ends with a closing parenthesis. -/
def endsWithParen : Tree → Bool
  | literal _ => false
  | binary _ right .semicolon => right.endsWithParen
  | array _ => false
  | index _ _ => false
  | _ => true

mutual

/-- A tree whose description can be read back.  A sequence stands in no construct, except on the
left of another sequence and between the brackets of an index or an explosion; no letter stands next
to a `d` or a keep; and what explodes on given faces does not end with a parenthesis, which would
make one operator with the `!` behind it. -/
def faithful : Tree → Bool
  | literal _ => true
  | binary left right o =>
    left.faithful && right.faithful && !right.isSequence && (o == .semicolon || !left.isSequence)
  | unary inner _ => inner.faithful && !inner.isSequence
  | suffix inner _ => inner.faithful && !inner.isSequence
  | dice none sides => sides.faithful && !sides.isSequence && !sides.beginsWithLetter
  | dice (some num) sides =>
    num.faithful && !num.isSequence && !num.endsWithLetter &&
      (sides.faithful && !sides.isSequence && !sides.beginsWithLetter)
  | keep _ target amount =>
    target.faithful && !target.isSequence && !target.endsWithLetter &&
      (amount.faithful && !amount.isSequence && !amount.beginsWithLetter)
  | explode target faces =>
    target.faithful && !target.isSequence && !target.endsWithParen && faces.faithful
  | array items => allFaithful items
  | index target position => target.faithful && !target.isSequence && position.faithful

/-- Trees that can be the elements of an array literal. -/
def allFaithful : List Tree → Bool
  | [] => true
  | t :: trees => t.faithful && !t.isSequence && allFaithful trees

end

/-! ## 2. Well-formed trees -/

mutual

/-- A tree of legible literals and operators that are defined where they stand. -/
def WellFormed : Tree → Prop
  | literal t => t.isLiteral = true ∧ t.Legible
  | binary left right o => o.binaryPowers?.isSome = true ∧ left.WellFormed ∧ right.WellFormed
  | unary inner o => o.unaryPower?.isSome = true ∧ inner.WellFormed
  | suffix inner o => o.suffixPower?.isSome = true ∧ inner.WellFormed
  | dice none sides => sides.WellFormed
  | dice (some num) sides => num.WellFormed ∧ sides.WellFormed
  | keep _ target amount => target.WellFormed ∧ amount.WellFormed
  | explode target faces => target.WellFormed ∧ faces.WellFormed
  | array items => AllWellFormed items
  | index target position => target.WellFormed ∧ position.WellFormed

/-- Trees that are well-formed, one and all. -/
def AllWellFormed : List Tree → Prop
  | [] => True
  | t :: trees => t.WellFormed ∧ AllWellFormed trees

end

end Tree

mutual

/-- The tree of a phrase of the grammar is well-formed if its literals are legible. -/
theorem Phrase.Fits.wellFormed {p : Phrase} {m : Nat} : p.Fits m →
    (∀ t ∈ p.words, t.isLiteral = true → t.Legible) → p.tree.WellFormed
  | .literal ht, hwords => ⟨ht, hwords _ List.mem_cons_self ht⟩
  | .group hp, hwords =>
    hp.wellFormed fun t ht => hwords t (List.mem_cons_of_mem _ (List.mem_append_left _ ht))
  | .emptyArray, _ => trivial
  | @Phrase.Fits.array _ first more comma hfirst hmore, hwords => by
    have hone : ∀ t ∈ first.words, t.isLiteral = true → t.Legible := fun t ht =>
      hwords t (List.mem_cons_of_mem _ (List.mem_append_left _ ht))
    have hrest : ∀ t ∈ furtherWords more, t.isLiteral = true → t.Legible := fun t ht =>
      hwords t (List.mem_cons_of_mem _
        (List.mem_append_right _ (List.mem_append_left _ ht)))
    exact ⟨hfirst.wellFormed hone, allWellFormed_of_fits more hmore hrest⟩
  | .unary ho hp, hwords =>
    ⟨by rw [ho]; rfl, hp.wellFormed fun t ht => hwords t (List.mem_cons_of_mem _ ht)⟩
  | .die hp, hwords => hp.wellFormed fun t ht => hwords t (List.mem_cons_of_mem _ ht)
  | .extended hleft htail _ _, hwords =>
    htail.wellFormed (hleft.wellFormed fun t ht => hwords t (List.mem_append_left _ ht))
      fun t ht => hwords t (List.mem_append_right _ (List.mem_cons_of_mem _ ht))

theorem Tail.Fits.wellFormed {tail : Tail} {e : Extension} {left : Tree} : Tail.Fits e tail →
    left.WellFormed → (∀ t ∈ tail.body, t.isLiteral = true → t.Legible) →
    (tail.onto left).WellFormed
  | .suffix ho, hleft, _ => ⟨ho, hleft⟩
  | .explode hp, hleft, hbody =>
    ⟨hleft, hp.wellFormed fun t ht => hbody t (List.mem_append_left _ ht)⟩
  | .index hp, hleft, hbody =>
    ⟨hleft, hp.wellFormed fun t ht => hbody t (List.mem_append_left _ ht)⟩
  | .binary ho hp, hleft, hbody => ⟨by rw [ho]; rfl, hleft, hp.wellFormed hbody⟩
  | .dice hp, hleft, hbody => ⟨hleft, hp.wellFormed hbody⟩
  | .keep _ hp, hleft, hbody => ⟨hleft, hp.wellFormed hbody⟩

theorem allWellFormed_of_fits : (more : List Phrase) → (∀ p ∈ more, p.Fits elementPower) →
    (∀ t ∈ furtherWords more, t.isLiteral = true → t.Legible) → Tree.AllWellFormed (treesOf more)
  | [], _, _ => trivial
  | p :: more, hmore, hwords => by
    obtain ⟨hp, hmore⟩ := List.forall_mem_cons.mp hmore
    have hone : ∀ t ∈ p.words, t.isLiteral = true → t.Legible := fun t ht =>
      hwords t (List.mem_cons_of_mem _ (List.mem_append_left _ ht))
    have hrest : ∀ t ∈ furtherWords more, t.isLiteral = true → t.Legible := fun t ht =>
      hwords t (List.mem_cons_of_mem _ (List.mem_append_right _ ht))
    exact ⟨hp.wellFormed hone, allWellFormed_of_fits more hmore hrest⟩

end

/-- A word that is written is there as a token, unless it is an operator. -/
theorem Spells.mem_tokens {words tokens rest : List Token} (h : Spells words tokens rest)
    {t : Token} (ht : t ∈ words) (hop : ∀ o, t ≠ .op o) : t ∈ tokens := by
  induction h with
  | nil => exact absurd ht List.not_mem_nil
  | word _ ih =>
    rcases List.mem_cons.mp ht with rfl | ht
    · exact List.mem_cons_self
    · exact List.mem_cons_of_mem _ (ih ht)
  | half _ ih =>
    rcases List.mem_cons.mp ht with rfl | ht
    · exact absurd rfl (hop _)
    · rcases List.mem_cons.mp (ih ht) with rfl | hmem
      · exact absurd rfl (hop _)
      · exact List.mem_cons_of_mem _ hmem

/-- **The tree of a text is well-formed.** -/
theorem Tree.wellFormed_of_ofText {depth : Nat} {text : String} {t : Tree}
    (h : Tree.ofText depth text = .ok t) : t.WellFormed := by
  rcases readTokens_outcome depth (endOfInput_notMem_ofText text) with
    ⟨p, hp, hnest, -⟩ | ⟨done, e, hread⟩
  · have ht : Tree.ofText depth text = .ok p.tree := tree_ofTokens_eq_ok hp hnest
    obtain rfl := Except.ok.inj (ht.symm.trans h)
    refine hp.1.wellFormed fun t hmem hliteral => ?_
    have hop : ∀ o, t ≠ .op o := by
      rintro o rfl
      cases hliteral
    exact Token.legible_of_mem_ofText (hp.2.mem_tokens hmem hop) hliteral
  · have herror : Tree.ofText depth text = .error e := by
      rw [Tree.ofText, Actions.readText, hread Id Tree Actions.tree]
      rfl
    rw [herror] at h
    cases h

/-! ## 3. The phrase of a description -/

namespace Tree

mutual

/-- The phrase that the description of a tree writes. -/
def rendered : Tree → Phrase
  | literal t => .literal t
  | binary left right .semicolon => .extended left.rendered (.binary .semicolon right.rendered)
  | binary left right o => .group (.extended left.rendered (.binary o right.rendered))
  | unary inner o => .group (.unary o inner.rendered)
  | suffix inner o => .group (.extended inner.rendered (.suffix o))
  | dice none sides => .group (.die sides.rendered)
  | dice (some num) sides => .group (.extended num.rendered (.dice sides.rendered))
  | keep k target amount => .group (.extended target.rendered (.keep k.text amount.rendered))
  | explode target faces => .group (.extended target.rendered (.explode faces.rendered))
  | array [] => .emptyArray
  | array (t :: trees) => .array t.rendered (allRendered trees) false
  | index target position => .extended target.rendered (.index position.rendered)

/-- The phrases of the elements of an array literal. -/
def allRendered : List Tree → List Phrase
  | [] => []
  | t :: trees => t.rendered :: allRendered trees

end

theorem ofWord?_text (k : Keep) : Keep.ofWord? k.text = some k := by
  cases k <;> decide

theorem isSequence_iff {left right : Tree} {o : Op} :
    (binary left right o).isSequence = true ↔ o = .semicolon := by
  cases o <;> simp [isSequence]

theorem rendered_binary {left right : Tree} {o : Op} (ho : o ≠ .semicolon) :
    (binary left right o).rendered =
      .group (.extended left.rendered (.binary o right.rendered)) := by
  cases o <;> first | rfl | exact absurd rfl ho

mutual

/-- Rendering a tree keeps the tree. -/
theorem tree_rendered : (t : Tree) → t.rendered.tree = t
  | literal _ => rfl
  | binary left right o => by
    by_cases ho : o = .semicolon
    · subst ho
      rw [rendered, Phrase.tree, Tail.onto, tree_rendered left, tree_rendered right]
    · rw [rendered_binary ho, Phrase.tree, Phrase.tree, Tail.onto, tree_rendered left,
        tree_rendered right]
  | unary inner _ => by rw [rendered, Phrase.tree, Phrase.tree, tree_rendered inner]
  | suffix inner _ => by rw [rendered, Phrase.tree, Phrase.tree, Tail.onto, tree_rendered inner]
  | dice none sides => by rw [rendered, Phrase.tree, Phrase.tree, tree_rendered sides]
  | dice (some num) sides => by
    rw [rendered, Phrase.tree, Phrase.tree, Tail.onto, tree_rendered num, tree_rendered sides]
  | keep k target amount => by
    rw [rendered, Phrase.tree, Phrase.tree, Tail.onto, tree_rendered target, tree_rendered amount,
      ofWord?_text, Option.getD_some]
  | explode target faces => by
    rw [rendered, Phrase.tree, Phrase.tree, Tail.onto, tree_rendered target, tree_rendered faces]
  | array [] => rfl
  | array (t :: trees) => by
    rw [rendered, Phrase.tree, tree_rendered t, treesOf_allRendered trees]
  | index target position => by
    rw [rendered, Phrase.tree, Tail.onto, tree_rendered target, tree_rendered position]

theorem treesOf_allRendered : (trees : List Tree) → treesOf (allRendered trees) = trees
  | [] => rfl
  | t :: trees => by rw [allRendered, treesOf, tree_rendered t, treesOf_allRendered trees]

end

/-- Only in a sequence an operator stands open on the right edge. -/
theorem openPowers_rendered {t : Tree} (h : t.isSequence = false) : t.rendered.openPowers = [] := by
  cases t with
  | binary left right o =>
    have ho : o ≠ .semicolon := fun ho => by
      rw [isSequence_iff.mpr ho] at h
      cases h
    rw [rendered_binary ho, Phrase.openPowers]
  | dice num sides => cases num <;> rfl
  | array items => cases items <;> rfl
  | _ => rfl

/-- Behind a sequence another semicolon goes on with the next one. -/
theorem lt_of_mem_openPowers_rendered {t : Tree} (h : t.faithful = true) :
    ∀ r ∈ t.rendered.openPowers, 1 < r := by
  intro r hr
  cases hseq : t.isSequence with
  | false =>
    rw [openPowers_rendered hseq] at hr
    exact absurd hr List.not_mem_nil
  | true =>
    cases t with
    | binary left right o =>
      obtain rfl := isSequence_iff.mp hseq
      simp only [faithful, Bool.and_eq_true, Bool.not_eq_true'] at h
      have hright := openPowers_rendered h.1.2
      simp only [rendered, Phrase.openPowers, Tail.openPowers, hright, Op.binaryPowers?,
        Option.map_some, Option.toList_some, List.append_nil, List.mem_singleton] at hr
      omega
    | _ => cases hseq

/-- The left power of an index.  Any construct but a sequence is an operand of this power. -/
def topPower : Nat := Extension.index.power

theorem binaryPower_le {o : Op} {l r : Nat} (h : o.binaryPowers? = some (l, r)) :
    r ≤ topPower := by
  cases o <;> simp_all [Op.binaryPowers?, topPower, Extension.power] <;> omega

theorem unaryPower_le {o : Op} {r : Nat} (h : o.unaryPower? = some r) : r ≤ topPower := by
  cases o <;> simp_all [Op.unaryPower?, topPower, Extension.power] <;> omega

/-- Both operands of an operator fit, given that each of them does where it stands. -/
theorem fits_rendered_binary {left right : Tree} {o : Op} {l r : Nat}
    (hpowers : o.binaryPowers? = some (l, r)) (hleft : left.rendered.Fits 0)
    (hright : right.rendered.Fits r) (hf : left.faithful = true)
    (hseq : o = .semicolon ∨ left.isSequence = false) :
    (Phrase.extended left.rendered (.binary o right.rendered)).Fits 0 := by
  refine .extended hleft (.binary hpowers hright) (Nat.zero_le _) ?_
  intro p hp
  rcases hseq with rfl | hseq
  · obtain ⟨rfl, -⟩ : 1 = l ∧ 2 = r := by simpa [Op.binaryPowers?] using hpowers
    exact lt_of_mem_openPowers_rendered hf p hp
  · rw [openPowers_rendered hseq] at hp
    exact absurd hp List.not_mem_nil

/-- A construct that is no sequence can be extended by anything. -/
theorem fits_rendered_extended {left : Tree} {tail : Tail} {e : Extension} {m : Nat}
    (hseq : left.isSequence = false) (hleft : left.rendered.Fits m) (htail : Tail.Fits e tail)
    (hm : m ≤ e.power) : (Phrase.extended left.rendered tail).Fits m := by
  refine .extended hleft htail hm ?_
  intro p hp
  rw [openPowers_rendered hseq] at hp
  exact absurd hp List.not_mem_nil

mutual

/-- **The phrase of a description belongs to the grammar**, as an operand of any power unless it is
a sequence. -/
theorem fits_rendered : (t : Tree) → t.WellFormed → t.faithful = true → (m : Nat) → m ≤ topPower →
    (m = 0 ∨ t.isSequence = false) → t.rendered.Fits m
  | literal t, hwf, _, m, _, _ => .literal hwf.1
  | binary left right o, hwf, hf, m, _, hseq => by
    obtain ⟨ho, hwleft, hwright⟩ := hwf
    simp only [faithful, Bool.and_eq_true, Bool.not_eq_true', Bool.or_eq_true, beq_iff_eq] at hf
    obtain ⟨⟨⟨hfleft, hfright⟩, hright⟩, hleft⟩ := hf
    obtain ⟨⟨l, r⟩, hpowers⟩ := Option.isSome_iff_exists.mp ho
    have hfits := fits_rendered_binary hpowers
      (left.fits_rendered hwleft hfleft 0 (Nat.zero_le _) (.inl rfl))
      (right.fits_rendered hwright hfright r (binaryPower_le hpowers) (.inr hright)) hfleft hleft
    by_cases ho : o = .semicolon
    · subst ho
      rcases hseq with rfl | hseq
      · exact hfits
      · cases hseq
    · rw [rendered_binary ho]
      exact .group hfits
  | unary inner o, ⟨ho, hwf⟩, hf, m, _, _ => by
    simp only [faithful, Bool.and_eq_true, Bool.not_eq_true'] at hf
    obtain ⟨r, hpower⟩ := Option.isSome_iff_exists.mp ho
    exact .group (.unary hpower
      (inner.fits_rendered hwf hf.1 r (unaryPower_le hpower) (.inr hf.2)))
  | suffix inner o, ⟨ho, hwf⟩, hf, m, _, _ => by
    simp only [faithful, Bool.and_eq_true, Bool.not_eq_true'] at hf
    exact .group (fits_rendered_extended hf.2
      (inner.fits_rendered hwf hf.1 0 (Nat.zero_le _) (.inl rfl)) (.suffix ho) (Nat.zero_le _))
  | dice none sides, hwf, hf, m, _, _ => by
    simp only [faithful, Bool.and_eq_true, Bool.not_eq_true'] at hf
    obtain ⟨⟨hfsides, hsides⟩, -⟩ := hf
    exact .group (.die (sides.fits_rendered hwf hfsides sidesPower (by decide) (.inr hsides)))
  | dice (some num) sides, ⟨hwnum, hwsides⟩, hf, m, _, _ => by
    simp only [faithful, Bool.and_eq_true, Bool.not_eq_true'] at hf
    obtain ⟨⟨⟨hfnum, hnum⟩, -⟩, ⟨hfsides, hsides⟩, -⟩ := hf
    exact .group (fits_rendered_extended hnum
      (num.fits_rendered hwnum hfnum 0 (Nat.zero_le _) (.inl rfl))
      (.dice (sides.fits_rendered hwsides hfsides sidesPower (by decide) (.inr hsides)))
      (Nat.zero_le _))
  | keep k target amount, ⟨hwtarget, hwamount⟩, hf, m, _, _ => by
    simp only [faithful, Bool.and_eq_true, Bool.not_eq_true'] at hf
    obtain ⟨⟨⟨hftarget, htarget⟩, -⟩, ⟨hfamount, hamount⟩, -⟩ := hf
    exact .group (fits_rendered_extended htarget
      (target.fits_rendered hwtarget hftarget 0 (Nat.zero_le _) (.inl rfl))
      (.keep (ofWord?_text k)
        (amount.fits_rendered hwamount hfamount keepPower (by decide) (.inr hamount)))
      (Nat.zero_le _))
  | explode target faces, ⟨hwtarget, hwfaces⟩, hf, m, _, _ => by
    simp only [faithful, Bool.and_eq_true, Bool.not_eq_true'] at hf
    obtain ⟨⟨⟨hftarget, htarget⟩, -⟩, hffaces⟩ := hf
    exact .group (fits_rendered_extended htarget
      (target.fits_rendered hwtarget hftarget 0 (Nat.zero_le _) (.inl rfl))
      (.explode (faces.fits_rendered hwfaces hffaces 0 (Nat.zero_le _) (.inl rfl)))
      (Nat.zero_le _))
  | array [], _, _, m, _, _ => .emptyArray
  | array (t :: trees), ⟨hwf, hwfs⟩, hf, m, _, _ => by
    simp only [faithful, allFaithful, Bool.and_eq_true, Bool.not_eq_true'] at hf
    obtain ⟨⟨hft, ht⟩, hftrees⟩ := hf
    exact .array (t.fits_rendered hwf hft elementPower (by decide) (.inr ht))
      (fits_allRendered trees hwfs hftrees)
  | index target position, ⟨hwtarget, hwposition⟩, hf, m, hm, _ => by
    simp only [faithful, Bool.and_eq_true, Bool.not_eq_true'] at hf
    obtain ⟨⟨hftarget, htarget⟩, hfposition⟩ := hf
    have hfits := target.fits_rendered hwtarget hftarget m hm (.inr htarget)
    exact fits_rendered_extended htarget hfits
      (.index (position.fits_rendered hwposition hfposition 0 (Nat.zero_le _) (.inl rfl))) hm

theorem fits_allRendered : (trees : List Tree) → AllWellFormed trees → allFaithful trees = true →
    ∀ p ∈ allRendered trees, p.Fits elementPower
  | [], _, _, _, hp => absurd hp List.not_mem_nil
  | t :: trees, ⟨hwf, hwfs⟩, hf, p, hp => by
    simp only [allFaithful, Bool.and_eq_true, Bool.not_eq_true'] at hf
    obtain ⟨⟨hft, ht⟩, hftrees⟩ := hf
    rcases List.mem_cons.mp hp with rfl | hp
    · exact t.fits_rendered hwf hft elementPower (by decide) (.inr ht)
    · exact fits_allRendered trees hwfs hftrees p hp

end

end Tree

end DiceNotation
