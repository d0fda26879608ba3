/-
# Where a syntax error arises

The reader goes from left to right and never waits with an error.  Where an error arises is said
without following the reader.  The tokens in front of it are viable, so there has been no error yet;
and the error is the same whatever stands behind the token in question, and however deep the reader
may go, so nothing further has been looked at.  Work that fails in such a way is `Located`.

Errors that arise inside an operand are located where the operand stands (`Located.behind`), and
those that arise behind an operand are so because a phrase is read in the same way whatever follows
the next token (`Phrase.ReadAs.located`).  A split `)!` needs no care.  What is left of it is a `!`,
which extends every operand that stands between brackets, so no error ever arises there, and
wherever one arises the tokens in front of it are those of the text (`Spells.exists_front`).
-/
import DiceNotation.Fault
import DiceNotation.Proofs.Grammar.Derivation
import DiceNotation.Proofs.Grammar.Viability

namespace DiceNotation

/-! ## 1. What an error names -/

/-- Whether a token is a malformed piece of text. -/
def Token.isMalformed : Token → Bool
  | .malformed _ => true
  | .stray _ => true
  | _ => false

/-- The token that an error is about.  Only a malformed token is blamed for its text. -/
inductive SyntaxError.Names : SyntaxError → Token → Prop
  | malformed {t : Token} : t.isMalformed = true → Names (.malformed t.text) t
  | unexpected {t : Token} : t.isMalformed = false → Names (.unexpected t) t
  | expected {o : Op} {t : Token} : t.isMalformed = false → Names (.expected o t) t
  | notUnary {o : Op} : Names (.notUnary o) (.op o)
  | incomplete : Names .incomplete .endOfInput

theorem Token.names_misplaced (t : Token) : t.misplaced.Names t := by
  cases t with
  | malformed piece => exact .malformed (t := .malformed piece) rfl
  | stray c => exact .malformed (t := .stray c) rfl
  | _ => exact .unexpected rfl

/-- The token where an operand ends is not malformed. -/
theorem isMalformed_of_stops {power : Nat} {rest : List Token} (h : Stops power rest) :
    (frontToken rest).isMalformed = false := by
  match rest with
  | [] => rfl
  | t :: rest =>
    cases t with
    | malformed piece => simp [Stops, Token.extension?, Token.endsOperand] at h
    | stray c => simp [Stops, Token.extension?, Token.endsOperand] at h
    | _ => rfl

/-- No operand of power 30 or less ends at a `!`, which would extend it. -/
theorem ne_bang_of_stops {power : Nat} {rest : List Token} (h : Stops power rest)
    (hpower : power ≤ 30) : frontToken rest ≠ .op .bang := by
  match rest with
  | [] => nofun
  | t :: rest =>
    rintro rfl
    have hext : (Token.op .bang).extension? = some (.suffix .bang) := rfl
    have hlt := (stops_cons_of_extension rest hext).mp h
    exact absurd hpower (Nat.not_le.mpr hlt)

/-! ## 2. Work that only builds trees -/

theorem bind_eq_throw_iff {α β : Type} {x : ExceptT SyntaxError Id α}
    {f : α → ExceptT SyntaxError Id β} {e : SyntaxError} :
    x >>= f = throw e ↔ x = throw e ∨ ∃ a, x = pure a ∧ f a = throw e := by
  cases hx : x.run with
  | error e' =>
    obtain rfl : x = throw e' := hx
    constructor
    · intro h
      cases h
      exact .inl rfl
    · rintro (h | ⟨a, h, -⟩)
      · cases h
        rfl
      · cases h
  | ok a =>
    obtain rfl : x = pure a := hx
    constructor
    · intro h
      exact .inr ⟨a, rfl, h⟩
    · rintro (h | ⟨b, h, hf⟩)
      · cases h
      · cases h
        exact hf

/-- If what comes behind never fails, only the first work can. -/
theorem bind_eq_throw_iff_left {α β : Type} {x : ExceptT SyntaxError Id α}
    {f : α → ExceptT SyntaxError Id β} {e : SyntaxError} (hf : ∀ a, f a ≠ throw e) :
    x >>= f = throw e ↔ x = throw e := by
  rw [bind_eq_throw_iff]
  constructor
  · rintro (h | ⟨a, -, h⟩)
    · exact h
    · exact absurd h (hf a)
  · exact .inl

theorem liftM_eq_throw_iff {α : Type} {x : Except SyntaxError α} {e : SyntaxError} :
    (liftM x : ExceptT SyntaxError Id α) = throw e ↔ x = .error e := by
  cases x with
  | error e' =>
    constructor
    · intro h
      cases h
      rfl
    · intro h
      cases h
      rfl
  | ok a =>
    constructor
    · intro h
      cases h
    · intro h
      cases h

/-- The reader of operands that builds trees. -/
abbrev treeReader (depth : Nat) : OperandReader Id Tree := readOperand Actions.tree depth

theorem Work.Gives.tree_eq {bound : Nat} {x : Work (Reading · bound)} {t : Tree}
    {rest : List Token} (h : x.Gives t rest) :
    ∃ hlt : weight rest < bound, x Id Tree Actions.tree = pure ⟨t, rest, hlt⟩ := by
  obtain ⟨hlt, hgives⟩ := h
  refine ⟨hlt, (hgives Id Tree Actions.tree).trans ?_⟩
  rw [Actions.fold_tree]
  rfl

theorem Phrase.ReadAs.treeReader_eq {p : Phrase} {depth power : Nat} {tokens rest : List Token}
    (h : p.ReadAs depth power tokens rest) :
    ∃ hlt : weight rest < weight tokens,
      treeReader depth power tokens = pure ⟨p.tree, rest, hlt⟩ :=
  h.gives.tree_eq

/-- Work that gives a tree or breaks gives that tree if it succeeds. -/
theorem Work.Gives.eq_of_tree_eq {bound : Nat} {x : Work (Reading · bound)} {t : Tree}
    {rest : List Token} (h : x.Gives t rest) {r : Reading Tree bound}
    (hread : x Id Tree Actions.tree = pure r) : r.value = t ∧ r.rest = rest := by
  obtain ⟨_, hgives⟩ := h.tree_eq
  cases hread.symm.trans hgives
  exact ⟨rfl, rfl⟩

theorem Work.Breaks.tree_ne {γ : Type → Type} {x : Work γ} (h : x.Breaks) (r : γ Tree) :
    x Id Tree Actions.tree ≠ pure r := by
  obtain ⟨done, e, hbreaks⟩ := h
  rw [hbreaks Id Tree Actions.tree, Actions.foldAll_tree]
  nofun

/-- What has been read is a phrase, with its tree as the value. -/
theorem readAs_of_treeReader_eq {depth power : Nat} {tokens : List Token}
    {r : Reading Tree (weight tokens)} (h : treeReader depth power tokens = pure r) :
    ∃ p : Phrase, p.ReadAs depth power tokens r.rest ∧ r.value = p.tree := by
  rcases operandReaders_sound depth power tokens with ⟨p, rest, hp, hgives⟩ | hbreaks
  · obtain ⟨hvalue, rfl⟩ := hgives.eq_of_tree_eq h
    exact ⟨p, hp, hvalue⟩
  · exact absurd h (hbreaks.tree_ne r)

theorem readAs_of_readPrimary_eq {depth : Nat} {tokens : List Token}
    {r : Reading Tree (weight tokens)}
    (h : readPrimary Actions.tree (treeReader depth) tokens = pure r) :
    ∃ p : Phrase, p.PrimaryReadAs depth tokens r.rest ∧ r.value = p.tree := by
  rcases readPrimary_outcome (operandReaders_sound depth) tokens with
    ⟨p, rest, hp, hgives⟩ | hbreaks
  · obtain ⟨hvalue, rfl⟩ := hgives.eq_of_tree_eq h
    exact ⟨p, hp, hvalue⟩
  · exact absurd h (hbreaks.tree_ne r)

theorem readAs_of_readExtension_eq {depth : Nat} {tokens : List Token} {t : Token}
    {x : Extension} (ht : t.extension? = some x) {left : Tree}
    {r : Reading Tree (weight tokens + 1)}
    (h : readExtension Actions.tree (treeReader depth) left x tokens = pure r) :
    ∃ tail : Tail, tail.ReadAs t x depth tokens r.rest ∧ r.value = tail.onto left := by
  have hwork :
      extensionWork (operandReaders depth) left x tokens Id Tree Actions.tree = pure r := by
    rw [extensionWork, Actions.fold_tree]
    exact h
  rcases readExtension_outcome (operandReaders_sound depth) ht left tokens with
    ⟨tail, rest, htail, hgives⟩ | hbreaks
  · obtain ⟨hvalue, rfl⟩ := hgives.eq_of_tree_eq hwork
    exact ⟨tail, htail, hvalue⟩
  · exact absurd hwork (hbreaks.tree_ne r)

/-! ## 3. Located errors -/

/-- The work, given by when it fails on some tokens with `depth` levels left, fails at the token in
front of some rest.  The tokens before that one are viable, and the failure depends neither on what
stands behind it nor on how many more levels there are. -/
def Located (fails : (depth : Nat) → (tokens : List Token) → Prop) (viable : List Token → Prop)
    (depth : Nat) (tokens : List Token) (e : SyntaxError) : Prop :=
  ∃ front rest, tokens = front ++ rest ∧ e.Names (frontToken rest) ∧ viable front ∧
    ∀ depth' rest', depth ≤ depth' → frontToken rest' = frontToken rest →
      fails depth' (front ++ rest')

theorem frontToken_append {front rest rest' : List Token}
    (h : frontToken rest' = frontToken rest) :
    frontToken (front ++ rest') = frontToken (front ++ rest) := by
  cases front with
  | nil => exact h
  | cons t front => rfl

theorem exists_cons_of_frontToken {t : Token} {tokens : List Token} (h : frontToken tokens = t)
    (ht : t ≠ .endOfInput) : ∃ rest, tokens = t :: rest := by
  match tokens with
  | [] => exact absurd h.symm ht
  | u :: rest => exact ⟨rest, congrArg (· :: rest) h⟩

section Located

variable {fails fails' : Nat → List Token → Prop} {viable viable' : List Token → Prop}
  {depth power : Nat} {tokens : List Token} {e : SyntaxError}

/-- An error at the first token. -/
theorem Located.here (hnames : e.Names (frontToken tokens)) (hviable : viable [])
    (hfails : ∀ depth' rest', depth ≤ depth' → frontToken rest' = frontToken tokens →
      fails depth' rest') : Located fails viable depth tokens e :=
  ⟨[], tokens, rfl, hnames, hviable, hfails⟩

/-- An error in work that stands behind some tokens within other work. -/
theorem Located.behind (h : Located fails viable depth tokens e) (before : List Token)
    (hviable : ∀ front, viable front → viable' (before ++ front))
    (hfails : ∀ depth' rest', depth ≤ depth' → frontToken rest' = frontToken tokens →
      fails depth' rest' → fails' depth' (before ++ rest')) :
    Located fails' viable' depth (before ++ tokens) e := by
  obtain ⟨front, rest, rfl, hnames, hfront, hwork⟩ := h
  refine ⟨before ++ front, rest, (List.append_assoc ..).symm, hnames, hviable front hfront, ?_⟩
  intro depth' rest' hdepth hrest
  rw [List.append_assoc]
  exact hfails depth' _ hdepth (frontToken_append hrest) (hwork depth' rest' hdepth hrest)

/-- A phrase that is read in front of some rest is read there whatever that rest is, as long as it
begins with the same token. -/
theorem Phrase.ReadAs.elsewhere {p : Phrase} {rest : List Token}
    (h : p.ReadAs depth power tokens rest) {front : List Token} (hfront : Spells p.words front [])
    {depth' : Nat} (hdepth : depth ≤ depth') {rest' : List Token}
    (hrest : frontToken rest' = frontToken rest) :
    p.ReadAs depth' power (front ++ rest') rest' where
  fits := h.fits
  spells := hfront.behind rest'
  stops := stops_congr hrest h.stops
  seals r hr := stops_congr hrest (h.seals r hr)
  nesting_le := Nat.le_trans h.nesting_le hdepth

/-- An error behind an operand that has been read. -/
theorem Phrase.ReadAs.located {p : Phrase} {rest : List Token}
    (h : p.ReadAs depth power tokens rest) (hpower : power ≤ 30)
    (hnames : e.Names (frontToken rest))
    (hviable : ∀ front, Spells p.words front [] → viable front)
    (hfails : ∀ depth' tokens' rest' (hlt : weight rest' < weight tokens'),
      frontToken rest' = frontToken rest →
      treeReader depth' power tokens' = pure ⟨p.tree, rest', hlt⟩ → fails depth' tokens') :
    Located fails viable depth tokens e := by
  obtain ⟨front, rfl, hfront⟩ := h.spells.exists_front (ne_bang_of_stops h.stops hpower)
  refine ⟨front, rest, rfl, hnames, hviable front hfront, ?_⟩
  intro depth' rest' hdepth hrest
  obtain ⟨hlt, hread⟩ := (h.elsewhere hfront hdepth hrest).treeReader_eq
  exact hfails depth' _ rest' hlt hrest hread

end Located

/-- Every error of an operand with `depth` levels is located. -/
def OperandsLocated (depth : Nat) : Prop :=
  ∀ (power : Nat) (tokens : List Token) (e : SyntaxError),
    treeReader depth power tokens = throw e → e ≠ .tooDeep →
    Located (fun depth' tokens' => treeReader depth' power tokens' = throw e)
      (Phrase.Viable depth power) depth tokens e

section Parts

variable {depth : Nat} {tokens : List Token} {e : SyntaxError}

/-! ## 4. The ends of brackets -/

theorem passOver_eq_error {o : Op} (h : frontToken tokens ≠ .op o) :
    passOver o tokens = .error (.expected o (frontToken tokens)) := by
  match tokens with
  | [] => rfl
  | t :: rest => simp [passOver, show t ≠ .op o from h, frontToken]

theorem passGroupEnd_eq_error (hclose : frontToken tokens ≠ .op .closeParen)
    (hbang : frontToken tokens ≠ .op .parenBang) :
    passGroupEnd tokens = .error (.expected .closeParen (frontToken tokens)) := by
  have heq : passGroupEnd tokens = passOver .closeParen tokens := by
    rw [passGroupEnd]
    rintro rest rfl
    exact hbang rfl
  rw [heq, passOver_eq_error hclose]

/-- How a closing token is missed: there is another one, and it does not matter what follows. -/
theorem passOver_error_cases {o : Op} (h : passOver o tokens = .error e) :
    e = .expected o (frontToken tokens) ∧
      ∀ tokens', frontToken tokens' = frontToken tokens → passOver o tokens' = .error e := by
  have hne : frontToken tokens ≠ .op o := by
    intro hfront
    match tokens with
    | [] => cases hfront
    | t :: rest =>
      obtain rfl : t = .op o := hfront
      rw [passOver_self] at h
      cases h
  obtain rfl : e = .expected o (frontToken tokens) :=
    (Except.error.inj ((passOver_eq_error hne).symm.trans h)).symm
  refine ⟨rfl, fun tokens' hfront => ?_⟩
  rw [← hfront] at hne ⊢
  exact passOver_eq_error hne

theorem passGroupEnd_error_cases (h : passGroupEnd tokens = .error e) :
    e = .expected .closeParen (frontToken tokens) ∧
      ∀ tokens', frontToken tokens' = frontToken tokens → passGroupEnd tokens' = .error e := by
  have hbang : frontToken tokens ≠ .op .parenBang := by
    intro hfront
    match tokens with
    | [] => cases hfront
    | t :: rest =>
      obtain rfl : t = .op .parenBang := hfront
      cases h
  have hclose : frontToken tokens ≠ .op .closeParen := by
    intro hfront
    match tokens with
    | [] => cases hfront
    | t :: rest =>
      obtain rfl : t = .op .closeParen := hfront
      rw [passGroupEnd_closeParen] at h
      cases h
  obtain rfl : e = .expected .closeParen (frontToken tokens) :=
    (Except.error.inj ((passGroupEnd_eq_error hclose hbang).symm.trans h)).symm
  refine ⟨rfl, fun tokens' hfront => ?_⟩
  rw [← hfront] at hbang hclose ⊢
  exact passGroupEnd_eq_error hclose hbang

/-! ## 5. Operands in other work -/

/-- Work that fails exactly if an operand does. -/
theorem OperandsLocated.operand (located : OperandsLocated depth) {power : Nat}
    {fails : Nat → List Token → Prop} {viable : List Token → Prop}
    (hfails : ∀ depth' tokens', fails depth' tokens' ↔
      treeReader depth' power tokens' = throw e)
    (hviable : ∀ front, Phrase.Viable depth power front → viable front)
    (h : fails depth tokens) (hdeep : e ≠ .tooDeep) : Located fails viable depth tokens e :=
  (located power tokens e ((hfails depth tokens).mp h) hdeep).behind [] hviable
    fun depth' tokens' _ _ => (hfails depth' tokens').mpr

/-- Work that fails exactly if the operand between two brackets does, or if the closing one,
`wanted`, is missed. -/
theorem OperandsLocated.bracketed (located : OperandsLocated depth) {wanted : Op}
    {close : (tokens : List Token) → Except SyntaxError (Reading Unit (weight tokens))}
    (hclose : ∀ {tokens}, close tokens = .error e → e = .expected wanted (frontToken tokens) ∧
      ∀ tokens', frontToken tokens' = frontToken tokens → close tokens' = .error e)
    {fails : Nat → List Token → Prop} {viable : List Token → Prop}
    (hfails : ∀ depth' tokens', fails depth' tokens' ↔ treeReader depth' 0 tokens' = throw e ∨
      ∃ inner, treeReader depth' 0 tokens' = pure inner ∧ close inner.rest = .error e)
    (hviable : ∀ front, Phrase.Viable depth 0 front → viable front)
    (h : fails depth tokens) (hdeep : e ≠ .tooDeep) : Located fails viable depth tokens e := by
  rcases (hfails depth tokens).mp h with hinner | ⟨inner, hread, hmissed⟩
  · exact (located 0 tokens e hinner hdeep).behind [] hviable
      fun depth' tokens' _ _ hinner' => (hfails depth' tokens').mpr (.inl hinner')
  · obtain ⟨p, hp, hvalue⟩ := readAs_of_treeReader_eq hread
    obtain ⟨he, hmissed'⟩ := hclose hmissed
    refine hp.located (Nat.zero_le 30) ?_ ?_ ?_
    · rw [he]
      exact .expected (isMalformed_of_stops hp.stops)
    · exact fun front hfront => hviable front (hp.fits.viable hp.nesting_le hfront)
    · intro depth' tokens' rest' hlt hrest hread'
      exact (hfails depth' tokens').mpr (.inr ⟨_, hread', hmissed' rest' hrest⟩)

end Parts

end DiceNotation
