/-
# Syntax errors arise at the first impossible token

For each part of an operand that can fail there is one lemma which says that its errors are located
if those of the operands inside it are.  `operands_located` is the result for whole operands, by
induction on the levels, and over the extensions of an operand by the weight of what is left.

For a text this means that the tokens in front of an error are the beginning of an expression, and
with the next token they are none (`Tree.ofText_error_at_first_impossible`).
-/
import DiceNotation.Proofs.Grammar.Located
import Mathlib

namespace DiceNotation

section Parts

variable {depth : Nat} {tokens : List Token} {e : SyntaxError}

/-! ## 1. Elements -/

/-- How an array literal goes on behind an element decides whether it fails. -/
theorem readElements_close_eq {t : Tree} {rest : List Token}
    {h : weight (.op .closeBracket :: rest) < weight tokens}
    (hread : treeReader depth elementPower tokens = pure ⟨t, .op .closeBracket :: rest, h⟩) :
    readElements (treeReader depth) tokens ≠ throw e := by
  rw [readElements_close (x := pure t) hread]
  nofun

theorem readElements_comma_close_eq {t : Tree} {rest : List Token}
    {h : weight (.op .comma :: .op .closeBracket :: rest) < weight tokens}
    (hread : treeReader depth elementPower tokens =
      pure ⟨t, .op .comma :: .op .closeBracket :: rest, h⟩) :
    readElements (treeReader depth) tokens ≠ throw e := by
  rw [readElements_comma_close (x := pure t) hread]
  nofun

theorem readElements_comma_eq {t : Tree} {rest : List Token}
    {h : weight (.op .comma :: rest) < weight tokens}
    (hread : treeReader depth elementPower tokens = pure ⟨t, .op .comma :: rest, h⟩)
    (hrest : frontToken rest ≠ .op .closeBracket) :
    readElements (treeReader depth) tokens = throw e ↔
      readElements (treeReader depth) rest = throw e := by
  have hnot : ∀ r, rest ≠ .op .closeBracket :: r := by
    rintro r rfl
    exact hrest rfl
  rw [readElements_comma (x := pure t) hread hnot, pure_bind, bind_eq_throw_iff]
  constructor
  · rintro (h | ⟨more, -, h⟩)
    · exact h
    · cases h
  · exact .inl

theorem readElements_fails_eq {t : Tree} {mid : List Token} {h : weight mid < weight tokens}
    (hread : treeReader depth elementPower tokens = pure ⟨t, mid, h⟩)
    (hclose : frontToken mid ≠ .op .closeBracket) (hcomma : frontToken mid ≠ .op .comma) :
    readElements (treeReader depth) tokens = throw (.expected .comma (frontToken mid)) := by
  refine (readElements_fails (x := pure t) hread ?_ ?_).trans rfl
  · rintro r rfl
    exact hclose rfl
  · rintro r rfl
    exact hcomma rfl

/-- The error of the elements of an array literal is located. -/
def ElementsLocated (depth : Nat) (tokens : List Token) (e : SyntaxError) : Prop :=
  Located (fun depth' tokens' => readElements (treeReader depth') tokens' = throw e)
    (Phrase.ViableElements depth) depth tokens e

/-- An error behind a comma is one of all the elements, and the one in front of the comma is read as
before. -/
theorem ElementsLocated.behind_comma {p : Phrase} {rest : List Token}
    (h : ElementsLocated depth rest e)
    (hp : p.ReadAs depth elementPower tokens (.op .comma :: rest))
    (hlast : frontToken rest ≠ .op .closeBracket) : ElementsLocated depth tokens e := by
  have hbang : frontToken (.op .comma :: rest) ≠ .op .bang := by simp [frontToken]
  obtain ⟨element, rfl, helement⟩ := hp.spells.exists_front hbang
  have hwhole : ElementsLocated depth ((element ++ [.op .comma]) ++ rest) e := by
    refine h.behind _ ?_ ?_
    · intro front hfront
      simpa using hfront.cons hp.fits hp.nesting_le helement
    · intro depth' rest' hdepth hfront hfails
      have hsame : frontToken (.op .comma :: rest') = frontToken (.op .comma :: rest) := rfl
      obtain ⟨hlt', hread'⟩ := (hp.elsewhere helement hdepth hsame).treeReader_eq
      rw [List.append_assoc]
      exact (readElements_comma_eq hread' (hfront ▸ hlast)).mpr hfails
  rwa [List.append_assoc] at hwhole

/-- The error of an array literal is that of an element, or what follows an element is wrong. -/
theorem readElements_located (located : OperandsLocated depth) (tokens : List Token)
    (h : readElements (treeReader depth) tokens = throw e) (hdeep : e ≠ .tooDeep) :
    ElementsLocated depth tokens e := by
  cases hrun : (treeReader depth elementPower tokens).run with
  | error e' =>
    have hread : treeReader depth elementPower tokens = throw e' := hrun
    have hfirst : ∀ {depth' : Nat} {tokens' : List Token},
        treeReader depth' elementPower tokens' = throw e' →
        readElements (treeReader depth') tokens' = throw e' := by
      intro depth' tokens' h
      rw [readElements, h]
      rfl
    obtain rfl : e' = e := Except.error.inj ((hfirst hread).symm.trans h)
    exact (located _ _ _ hread hdeep).behind [] (fun _ hfront => hfront.elements)
      fun _ _ _ _ hfails => hfirst hfails
  | ok r =>
    have hread : treeReader depth elementPower tokens = pure r := hrun
    obtain ⟨value, mid, hlt⟩ := r
    obtain ⟨p, hp, rfl⟩ := readAs_of_treeReader_eq hread
    by_cases hclose : frontToken mid = .op .closeBracket
    · obtain ⟨rest, rfl⟩ := exists_cons_of_frontToken hclose (by decide)
      exact absurd h (readElements_close_eq hread)
    by_cases hcomma : frontToken mid = .op .comma
    · obtain ⟨rest, rfl⟩ := exists_cons_of_frontToken hcomma (by decide)
      by_cases hlast : frontToken rest = .op .closeBracket
      · obtain ⟨rest', rfl⟩ := exists_cons_of_frontToken hlast (by decide)
        exact absurd h (readElements_comma_close_eq hread)
      -- the error is one of the elements behind the comma
      have hmore := (readElements_comma_eq hread hlast).mp h
      have hrest : weight rest < weight tokens := Nat.lt_trans (weight_lt_cons _ rest) hlt
      exact (readElements_located located rest hmore hdeep).behind_comma hp hlast
    · obtain rfl : e = .expected .comma (frontToken mid) :=
        Except.error.inj (h.symm.trans (readElements_fails_eq hread hclose hcomma))
      refine hp.located (by decide) (.expected (isMalformed_of_stops hp.stops)) ?_ ?_
      · exact fun front hfront => (hp.fits.viable hp.nesting_le hfront).elements
      · intro depth' tokens' rest' hlt' hrest hread'
        rw [← hrest] at hclose hcomma ⊢
        exact readElements_fails_eq hread' hclose hcomma
termination_by weight tokens

/-! ## 2. Primaries -/

/-- The error of a primary is located. -/
def PrimaryLocated (depth : Nat) (tokens : List Token) (e : SyntaxError) : Prop :=
  Located (fun depth' tokens' => readPrimary Actions.tree (treeReader depth') tokens' = throw e)
    (Phrase.ViablePrimary depth) depth tokens e

/-- A primary that fails at its first token. -/
theorem PrimaryLocated.at_front {e' : SyntaxError} (hnames : e'.Names (frontToken tokens))
    (hfails : ∀ depth' tokens', frontToken tokens' = frontToken tokens →
      readPrimary Actions.tree (treeReader depth') tokens' = throw e')
    (h : readPrimary Actions.tree (treeReader depth) tokens = throw e) :
    PrimaryLocated depth tokens e := by
  obtain rfl : e' = e := Except.error.inj ((hfails depth tokens rfl).symm.trans h)
  exact .here hnames (Phrase.viablePrimary_nil depth) fun depth' tokens' _ => hfails depth' tokens'

theorem readPrimary_incomplete_located (hend : frontToken tokens = .endOfInput)
    (h : readPrimary Actions.tree (treeReader depth) tokens = throw e) :
    PrimaryLocated depth tokens e := by
  have hnames : SyntaxError.incomplete.Names (frontToken tokens) := hend ▸ .incomplete
  refine .at_front hnames (fun depth' tokens' hfront => ?_) h
  rw [hend] at hfront
  match tokens' with
  | [] => rw [readPrimary]
  | t :: rest =>
    obtain rfl : t = .endOfInput := hfront
    rw [readPrimary]

/-- A primary that begins with the token `t` and fails there, whatever comes behind it. -/
theorem readPrimary_front_located {t : Token} {e' : SyntaxError} (ht : t ≠ .endOfInput)
    (hnames : e'.Names t)
    (hfails : ∀ depth' rest, readPrimary Actions.tree (treeReader depth') (t :: rest) = throw e')
    (h : readPrimary Actions.tree (treeReader depth) (t :: tokens) = throw e) :
    PrimaryLocated depth (t :: tokens) e := by
  refine .at_front hnames (fun depth' tokens' hfront => ?_) h
  obtain ⟨rest, rfl⟩ := exists_cons_of_frontToken hfront ht
  exact hfails depth' rest

theorem readGroup_located (located : OperandsLocated depth)
    (h : readPrimary Actions.tree (treeReader depth) (.op .openParen :: tokens) = throw e)
    (hdeep : e ≠ .tooDeep) : PrimaryLocated depth (.op .openParen :: tokens) e := by
  have hfails (depth' : Nat) (tokens' : List Token) :
      readPrimary Actions.tree (treeReader depth') (.op .openParen :: tokens') = throw e ↔
        treeReader depth' 0 tokens' = throw e ∨
        ∃ inner, treeReader depth' 0 tokens' = pure inner ∧
          passGroupEnd inner.rest = .error e := by
    rw [readPrimary_group, bind_eq_throw_iff]
    refine or_congr_right (exists_congr fun inner => and_congr_right fun _ => ?_)
    rw [bind_eq_throw_iff_left nofun, liftM_eq_throw_iff]
  exact (located.bracketed passGroupEnd_error_cases hfails
    (fun _ hfront => hfront.group) h hdeep).behind [.op .openParen] (fun _ hfront => hfront)
    fun _ _ _ _ hfails => hfails

theorem readUnary_located (located : OperandsLocated depth) {o : Op} {power : Nat}
    (ho : o.unaryPower? = some power)
    (h : readPrimary Actions.tree (treeReader depth) (.op o :: tokens) = throw e)
    (hdeep : e ≠ .tooDeep) : PrimaryLocated depth (.op o :: tokens) e := by
  have hfails (depth' : Nat) (tokens' : List Token) :
      readPrimary Actions.tree (treeReader depth') (.op o :: tokens') = throw e ↔
        treeReader depth' power tokens' = throw e := by
    rw [readPrimary_unary ho, bind_eq_throw_iff_left nofun]
  exact (located.operand hfails (fun _ hfront => hfront.unary ho) h hdeep).behind [.op o]
    (fun _ hfront => hfront) fun _ _ _ _ hfails => hfails

theorem readDie_located (located : OperandsLocated depth)
    (h : readPrimary Actions.tree (treeReader depth) (.word dieWord :: tokens) = throw e)
    (hdeep : e ≠ .tooDeep) : PrimaryLocated depth (.word dieWord :: tokens) e := by
  have hfails (depth' : Nat) (tokens' : List Token) :
      readPrimary Actions.tree (treeReader depth') (.word dieWord :: tokens') = throw e ↔
        treeReader depth' sidesPower tokens' = throw e := by
    rw [readPrimary_die, bind_eq_throw_iff_left nofun]
  exact (located.operand hfails (fun _ hfront => hfront.die) h hdeep).behind [.word dieWord]
    (fun _ hfront => hfront) fun _ _ _ _ hfails => hfails

theorem readArray_located (located : OperandsLocated depth)
    (h : readPrimary Actions.tree (treeReader depth) (.op .openBracket :: tokens) = throw e)
    (hdeep : e ≠ .tooDeep) : PrimaryLocated depth (.op .openBracket :: tokens) e := by
  by_cases hempty : frontToken tokens = .op .closeBracket
  · obtain ⟨rest, rfl⟩ := exists_cons_of_frontToken hempty (by decide)
    rw [readPrimary_emptyArray] at h
    cases h
  have hfails (depth' : Nat) {tokens' : List Token}
      (hfront : frontToken tokens' = frontToken tokens) :
      readPrimary Actions.tree (treeReader depth') (.op .openBracket :: tokens') = throw e ↔
        readElements (treeReader depth') tokens' = throw e := by
    have hnot : ∀ r, tokens' ≠ .op .closeBracket :: r := by
      rintro r rfl
      exact hempty hfront.symm
    rw [readPrimary_array hnot, bind_eq_throw_iff_left nofun]
  exact (readElements_located located tokens ((hfails depth rfl).mp h) hdeep).behind
    [.op .openBracket] (fun _ hfront => hfront.array)
    fun depth' _ _ hfront => (hfails depth' hfront).mpr

/-- A literal never fails. -/
theorem readLiteral_ne_throw {t : Token} (ht : t.isLiteral = true) :
    readPrimary Actions.tree (treeReader depth) (t :: tokens) ≠ throw e := by
  rw [readPrimary_literal ht]
  nofun

/-- The first token of a primary decides how it can fail. -/
theorem readPrimary_located (located : OperandsLocated depth) : (tokens : List Token) →
    readPrimary Actions.tree (treeReader depth) tokens = throw e → e ≠ .tooDeep →
    PrimaryLocated depth tokens e
  | [], h, _ => readPrimary_incomplete_located rfl h
  | .endOfInput :: _, h, _ => readPrimary_incomplete_located rfl h
  | .malformed piece :: _, h, _ =>
    readPrimary_front_located (by simp) (Token.names_misplaced _) (fun _ _ => by rw [readPrimary]) h
  | .stray c :: _, h, _ =>
    readPrimary_front_located (by simp) (Token.names_misplaced _) (fun _ _ => by rw [readPrimary]) h
  | .number n :: tokens, h, _ => absurd h (readLiteral_ne_throw rfl)
  | .char c :: tokens, h, _ => absurd h (readLiteral_ne_throw rfl)
  | .string content :: tokens, h, _ => absurd h (readLiteral_ne_throw rfl)
  | .word name :: tokens, h, hdeep => by
    by_cases hname : name = dieWord
    · subst hname
      exact readDie_located located h hdeep
    · exact absurd h (readLiteral_ne_throw (by simpa [Token.isLiteral] using hname))
  | .op o :: tokens, h, hdeep => by
    by_cases hbracket : o = .openBracket
    · subst hbracket
      exact readArray_located located h hdeep
    by_cases hparen : o = .openParen
    · subst hparen
      exact readGroup_located located h hdeep
    cases ho : o.unaryPower? with
    | some r => exact readUnary_located located ho h hdeep
    | none =>
      exact readPrimary_front_located (by simp) .notUnary
        (fun _ _ => readPrimary_notUnary hbracket hparen ho) h

/-! ## 3. Extensions -/

/-- The error of an extension, which stands behind the token `t`, is located. -/
def ExtensionLocated (left : Tree) (t : Token) (x : Extension) (depth : Nat)
    (tokens : List Token) (e : SyntaxError) : Prop :=
  Located
    (fun depth' tokens' => readExtension Actions.tree (treeReader depth') left x tokens' = throw e)
    (Tail.Viable depth t x) depth tokens e

/-- A suffix never fails. -/
theorem readSuffix_ne_throw {left : Tree} {o : Op} :
    readExtension Actions.tree (treeReader depth) left (.suffix o) tokens ≠ throw e :=
  nofun

theorem readExplosion_located (located : OperandsLocated depth) {left : Tree}
    (h : readExtension Actions.tree (treeReader depth) left .explode tokens = throw e)
    (hdeep : e ≠ .tooDeep) :
    ExtensionLocated left (.op .bangParen) .explode depth tokens e := by
  refine located.bracketed (passOver_error_cases (o := .parenBang)) (fun depth' tokens' => ?_)
    (fun _ => Tail.viable_explode) h hdeep
  rw [readExtension, bind_eq_throw_iff]
  refine or_congr_right (exists_congr fun inner => and_congr_right fun _ => ?_)
  rw [bind_eq_throw_iff_left, liftM_eq_throw_iff]
  intro _ hfails
  cases hfails

theorem readIndex_located (located : OperandsLocated depth) {left : Tree}
    (h : readExtension Actions.tree (treeReader depth) left .index tokens = throw e)
    (hdeep : e ≠ .tooDeep) :
    ExtensionLocated left (.op .openBracket) .index depth tokens e := by
  refine located.bracketed (passOver_error_cases (o := .closeBracket)) (fun depth' tokens' => ?_)
    (fun _ => Tail.viable_index) h hdeep
  rw [readExtension, bind_eq_throw_iff]
  refine or_congr_right (exists_congr fun inner => and_congr_right fun _ => ?_)
  rw [bind_eq_throw_iff_left, liftM_eq_throw_iff]
  intro _ hfails
  cases hfails

theorem readBinary_located (located : OperandsLocated depth) {left : Tree} {o : Op} {l r : Nat}
    (ho : o.binaryPowers? = some (l, r))
    (h : readExtension Actions.tree (treeReader depth) left (.binary o l r) tokens = throw e)
    (hdeep : e ≠ .tooDeep) : ExtensionLocated left (.op o) (.binary o l r) depth tokens e := by
  refine located.operand (fun depth' tokens' => ?_) (fun _ => Tail.viable_binary ho) h hdeep
  rw [readExtension, bind_eq_throw_iff_left]
  intro _ hfails
  cases hfails

theorem readDice_located (located : OperandsLocated depth) {left : Tree}
    (h : readExtension Actions.tree (treeReader depth) left .dice tokens = throw e)
    (hdeep : e ≠ .tooDeep) : ExtensionLocated left (.word dieWord) .dice depth tokens e := by
  refine located.operand (fun depth' tokens' => ?_) (fun _ => Tail.viable_dice) h hdeep
  rw [readExtension, bind_eq_throw_iff_left]
  intro _ hfails
  cases hfails

theorem readKeep_located (located : OperandsLocated depth) {left : Tree} {k : Keep} {word : String}
    (hk : Keep.ofWord? word = some k)
    (h : readExtension Actions.tree (treeReader depth) left (.keep k) tokens = throw e)
    (hdeep : e ≠ .tooDeep) : ExtensionLocated left (.word word) (.keep k) depth tokens e := by
  refine located.operand (fun depth' tokens' => ?_) (fun _ => Tail.viable_keep hk) h hdeep
  rw [readExtension, bind_eq_throw_iff_left]
  intro _ hfails
  cases hfails

/-- The token that starts an extension decides how it can fail.  It is never `!`. -/
theorem readExtension_located (located : OperandsLocated depth) {left : Tree} {t : Token}
    {x : Extension} (ht : t.extension? = some x)
    (h : readExtension Actions.tree (treeReader depth) left x tokens = throw e)
    (hdeep : e ≠ .tooDeep) :
    t ≠ .op .bang ∧ ExtensionLocated left t x depth tokens e := by
  cases t with
  | word name =>
    refine ⟨by simp, ?_⟩
    simp only [Token.extension?] at ht
    split at ht
    · next hname =>
      cases ht
      subst hname
      exact readDice_located located h hdeep
    · obtain ⟨k, hk, rfl⟩ := Option.map_eq_some_iff.mp ht
      exact readKeep_located located hk h hdeep
  | op o =>
    simp only [Token.extension?, Op.extension?] at ht
    split at ht
    · cases ht
      exact absurd h readSuffix_ne_throw
    · cases ht
      exact absurd h readSuffix_ne_throw
    · cases ht
      exact ⟨by decide, readExplosion_located located h hdeep⟩
    · cases ht
      exact ⟨by decide, readIndex_located located h hdeep⟩
    · next hbang _ _ =>
      obtain ⟨⟨l, r⟩, ho, rfl⟩ := Option.map_eq_some_iff.mp ht
      refine ⟨?_, readBinary_located located ho h hdeep⟩
      rintro ⟨⟩
      exact hbang rfl
  | number n => simp [Token.extension?] at ht
  | char c => simp [Token.extension?] at ht
  | string content => simp [Token.extension?] at ht
  | malformed piece => simp [Token.extension?] at ht
  | stray c => simp [Token.extension?] at ht
  | endOfInput => simp [Token.extension?] at ht

/-! ## 4. Operands -/

/-- The levels that an operand needs above those of its parts. -/
theorem Located.succ {fails : Nat → List Token → Prop} {viable : List Token → Prop}
    (h : Located (fun depth' => fails (depth' + 1)) viable depth tokens e) :
    Located fails viable (depth + 1) tokens e := by
  obtain ⟨front, rest, htokens, hnames, hviable, hfails⟩ := h
  refine ⟨front, rest, htokens, hnames, hviable, fun depth' rest' hdepth hfront => ?_⟩
  obtain ⟨d, rfl⟩ : ∃ d, depth' = d + 1 := ⟨depth' - 1, by omega⟩
  exact hfails d rest' (Nat.le_of_succ_le_succ hdepth) hfront

/-- Having read the words of a phrase, the reader is in the loop with the phrase's tree. -/
theorem Phrase.Fits.treeReader_eq {l : Phrase} {power : Nat} {rest : List Token}
    (hfits : l.Fits power) (hnest : l.nesting ≤ depth + 1) (hl : Spells l.words tokens rest)
    (hseals : l.Seals rest) :
    treeReader (depth + 1) power tokens =
      readExtensions Actions.tree (treeReader depth) power ⟨l.tree, rest, l.weight_lt hl⟩ := by
  refine (hfits.readable hnest hl hseals (l.weight_lt hl) Id Tree Actions.tree).trans ?_
  rw [extensionsWork, Actions.fold_tree]
  rfl

theorem Phrase.Seals.congr {l : Phrase} {rest rest' : List Token} (h : l.Seals rest)
    (hfront : frontToken rest' = frontToken rest) : l.Seals rest' :=
  fun r hr => stops_congr hfront (h r hr)

/-- The words of a phrase are read in the same way whatever follows the token behind them, and with
more levels. -/
theorem Phrase.Fits.treeReader_append_eq {l : Phrase} {power : Nat} {front rest : List Token}
    {t : Token} (hfits : l.Fits power) (hnest : l.nesting ≤ depth + 1)
    (hfront : Spells l.words front []) (hseals : l.Seals (t :: rest)) {depth' : Nat}
    (hdepth : depth ≤ depth') (rest' : List Token) :
    treeReader (depth' + 1) power (front ++ t :: rest') =
      readExtensions Actions.tree (treeReader depth') power
        ⟨l.tree, t :: rest', l.weight_lt (hfront.behind _)⟩ :=
  hfits.treeReader_eq (Nat.le_trans hnest (Nat.succ_le_succ hdepth)) (hfront.behind _)
    (hseals.congr rfl)

/-- A token behind a phrase `l` that can neither go on with an operand nor end one. -/
theorem misplaced_located {power : Nat} {l : Phrase} {t : Token} {rest : List Token}
    (hfits : l.Fits power) (hnest : l.nesting ≤ depth + 1) (hl : Spells l.words tokens (t :: rest))
    (hseals : l.Seals (t :: rest)) (ht : t.extension? = none) (hends : ¬ t.endsOperand = true) :
    Located (fun depth' tokens' => treeReader (depth' + 1) power tokens' = throw t.misplaced)
      (Phrase.Viable (depth + 1) power) depth tokens t.misplaced := by
  have hbang : t ≠ .op .bang := by
    rintro rfl
    cases ht
  have hend : t ≠ .endOfInput := by
    rintro rfl
    exact hends rfl
  obtain ⟨front, rfl, hfront⟩ := hl.exists_front hbang
  refine ⟨front, t :: rest, rfl, t.names_misplaced, hfits.viable hnest hfront, ?_⟩
  intro depth' rest' hdepth hsame
  obtain ⟨more, rfl⟩ := exists_cons_of_frontToken (t := t) hsame hend
  rw [hfits.treeReader_append_eq hnest hfront hseals hdepth, readExtensions_none _ ht,
    if_neg hends]

/-- An extension of a phrase `l` fails, and the phrase in front of it is read as before. -/
theorem ExtensionLocated.behind_phrase {power : Nat} {l : Phrase} {t : Token} {x : Extension}
    {rest : List Token} (h : ExtensionLocated l.tree t x depth rest e) (hbang : t ≠ .op .bang)
    (hfits : l.Fits power) (hnest : l.nesting ≤ depth + 1) (hl : Spells l.words tokens (t :: rest))
    (hseals : l.Seals (t :: rest)) (ht : t.extension? = some x) (hx : power ≤ x.power)
    (hopen : ∀ r ∈ l.openPowers, x.power < r) :
    Located (fun depth' tokens' => treeReader (depth' + 1) power tokens' = throw e)
      (Phrase.Viable (depth + 1) power) depth tokens e := by
  obtain ⟨front, rfl, hfront⟩ := hl.exists_front hbang
  have hwhole : Located
      (fun depth' tokens' => treeReader (depth' + 1) power tokens' = throw e)
      (Phrase.Viable (depth + 1) power) depth ((front ++ [t]) ++ rest) e := by
    refine h.behind _ ?_ ?_
    · intro inner hinner
      simpa using hinner.extended hfits hx hopen hnest hfront
    · intro depth' rest' hdepth _ hfails
      rw [List.append_assoc]
      refine (hfits.treeReader_append_eq hnest hfront hseals hdepth rest').trans ?_
      rw [readExtensions_some _ ht hx, hfails]
      rfl
  rwa [List.append_assoc] at hwhole

/-- The loop over the extensions of a phrase `l` that has been read off `tokens` fails at a token
that cannot stand behind an operand, or within an extension. -/
theorem readExtensions_located (located : OperandsLocated depth) {power bound : Nat} {l : Phrase}
    {rest : List Token} (hrest : weight rest < bound) (hfits : l.Fits power)
    (hnest : l.nesting ≤ depth + 1) (hl : Spells l.words tokens rest) (hseals : l.Seals rest)
    (h : readExtensions Actions.tree (treeReader depth) power ⟨l.tree, rest, hrest⟩ = throw e)
    (hdeep : e ≠ .tooDeep) :
    Located (fun depth' tokens' => treeReader (depth' + 1) power tokens' = throw e)
      (Phrase.Viable (depth + 1) power) depth tokens e := by
  by_cases hstop : Stops power rest
  · rw [readExtensions_of_stops hstop] at h
    cases h
  match rest with
  | [] => exact absurd trivial hstop
  | t :: rest =>
    cases ht : t.extension? with
    | none =>
      have hends : ¬ t.endsOperand = true := by simpa [Stops, ht] using hstop
      obtain rfl : e = t.misplaced := by
        rw [readExtensions_none hrest ht, if_neg hends] at h
        exact (Except.error.inj h).symm
      exact misplaced_located hfits hnest hl hseals ht hends
    | some x =>
      rw [stops_cons_of_extension rest ht] at hstop
      have hx : power ≤ x.power := Nat.not_lt.mp hstop
      have hopen : ∀ r ∈ l.openPowers, x.power < r := fun r hr =>
        (stops_cons_of_extension rest ht).mp (hseals r hr)
      rw [readExtensions_some hrest ht hx, bind_eq_throw_iff] at h
      rcases h with h | ⟨wider, hwider, h⟩
      · obtain ⟨hbang, hext⟩ := readExtension_located located ht h hdeep
        exact hext.behind_phrase hbang hfits hnest hl hseals ht hx hopen
      · obtain ⟨value, mid, hmid⟩ := wider
        obtain ⟨tail, htail, rfl⟩ := readAs_of_readExtension_eq ht hwider
        have hlt : weight mid < weight (t :: rest) := by
          have := t.weight_pos
          simp only [weight_cons]
          omega
        have hwords : Spells (l.extended tail).words tokens mid := by
          refine hl.append ?_
          rw [htail.start]
          exact .word htail.spells
        have hnest' : (l.extended tail).nesting ≤ depth + 1 :=
          Nat.max_le.mpr ⟨hnest, Nat.succ_le_succ htail.nesting_le⟩
        exact readExtensions_located located (Nat.lt_trans hlt hrest)
          (.extended hfits htail.fits hx hopen) hnest' hwords htail.seals h hdeep
termination_by weight rest

/-- **Every syntax error of an operand is located.** -/
theorem operands_located (depth : Nat) : OperandsLocated depth := by
  induction depth with
  | zero =>
    intro power tokens e h hdeep
    exact absurd (Except.error.inj h).symm hdeep
  | succ depth ih =>
    intro power tokens e h hdeep
    refine Located.succ ?_
    rw [treeReader, readOperand, bind_eq_throw_iff] at h
    rcases h with h | ⟨first, hfirst, h⟩
    · refine (readPrimary_located ih tokens h hdeep).behind [] (fun _ hfront => hfront.viable) ?_
      exact fun depth' rest' _ _ hfails => bind_eq_throw_iff.mpr (.inl hfails)
    · obtain ⟨value, rest, hlt⟩ := first
      obtain ⟨l, hl, rfl⟩ := readAs_of_readPrimary_eq hfirst
      exact readExtensions_located ih hlt (hl.fits power) hl.nesting_le hl.spells hl.seals h hdeep

/-! ## 5. Whole inputs -/

/-- The error of a whole input is that of its operand, or there is a token behind the operand. -/
theorem Tree.ofTokens_located (h : Tree.ofTokens depth tokens = .error e) (hdeep : e ≠ .tooDeep) :
    Located (fun depth' tokens' => Tree.ofTokens depth' tokens' = .error e)
      (Phrase.Viable depth 0) depth tokens e := by
  have hthrow : Actions.tree.readTokens depth tokens = throw e := h
  rw [Actions.readTokens, bind_eq_throw_iff] at hthrow
  rcases hthrow with hread | ⟨whole, hread, hend⟩
  · exact (operands_located depth 0 tokens e hread hdeep).behind [] (fun _ hfront => hfront)
      fun depth' rest' _ _ hfails => bind_eq_throw_iff.mpr (.inl hfails)
  · obtain ⟨p, hp, -⟩ := readAs_of_treeReader_eq hread
    have hne : frontToken whole.rest ≠ .endOfInput := by
      intro hfront
      rw [hfront] at hend
      cases hend
    have hmisplaced : e = (frontToken whole.rest).misplaced := by
      split at hend
      · exact absurd ‹_› hne
      · exact (Except.error.inj hend).symm
    subst hmisplaced
    refine hp.located (Nat.zero_le 30) (Token.names_misplaced _)
      (fun _ hfront => hp.fits.viable hp.nesting_le hfront) ?_
    intro depth' tokens' rest' hlt hrest hread'
    refine bind_eq_throw_iff.mpr (.inr ⟨_, hread', ?_⟩)
    rw [← hrest] at hne ⊢
    split
    · exact absurd ‹_› hne
    · rfl

/-- With more levels, an error that is not about the levels stays what it is. -/
theorem Tree.ofTokens_error_mono (h : Tree.ofTokens depth tokens = .error e) (hdeep : e ≠ .tooDeep)
    {depth' : Nat} (hdepth : depth ≤ depth') : Tree.ofTokens depth' tokens = .error e := by
  obtain ⟨front, rest, rfl, -, -, hfails⟩ := Tree.ofTokens_located h hdeep
  exact hfails depth' rest hdepth rfl

end Parts

/-! ## 6. Malformed tokens -/

theorem furtherWords_wellFormed {more : List Phrase}
    (h : ∀ p ∈ more, ∀ t ∈ p.words, t.isMalformed = false) :
    ∀ t ∈ furtherWords more, t.isMalformed = false := by
  induction more with
  | nil => simp [furtherWords]
  | cons p more ih =>
    obtain ⟨hp, hmore⟩ := List.forall_mem_cons.mp h
    simp only [furtherWords, List.forall_mem_cons, List.forall_mem_append]
    exact ⟨rfl, hp, ih hmore⟩

mutual

/-- No phrase is written with a malformed token. -/
theorem Phrase.Fits.words_wellFormed {p : Phrase} {power : Nat} :
    p.Fits power → ∀ t ∈ p.words, t.isMalformed = false
  | @Phrase.Fits.literal _ t ht => by
    cases t <;> simp [Token.isLiteral] at ht <;> simp [Phrase.words, Token.isMalformed]
  | .group hp => by
    simp only [Phrase.words, List.forall_mem_cons, List.forall_mem_append]
    exact ⟨rfl, hp.words_wellFormed, rfl, nofun⟩
  | .emptyArray => by simp [Phrase.words, Token.isMalformed]
  | @Phrase.Fits.array _ _ _ comma hfirst hmore => by
    simp only [Phrase.words, List.forall_mem_cons, List.forall_mem_append]
    refine ⟨rfl, hfirst.words_wellFormed,
      furtherWords_wellFormed fun p hp => (hmore p hp).words_wellFormed, ?_⟩
    cases comma <;> simp [arrayClose, Token.isMalformed]
  | .unary _ hp => by
    simp only [Phrase.words, List.forall_mem_cons]
    exact ⟨rfl, hp.words_wellFormed⟩
  | .die hp => by
    simp only [Phrase.words, List.forall_mem_cons]
    exact ⟨rfl, hp.words_wellFormed⟩
  | @Phrase.Fits.extended _ _ tail _ hleft htail _ _ => by
    simp only [Phrase.words, List.forall_mem_cons, List.forall_mem_append]
    refine ⟨hleft.words_wellFormed, ?_, htail.body_wellFormed⟩
    cases tail <;> rfl

theorem Tail.Fits.body_wellFormed {tail : Tail} {e : Extension} :
    Tail.Fits e tail → ∀ t ∈ tail.body, t.isMalformed = false
  | .suffix _ => by simp [Tail.body]
  | .explode hp => by
    simp only [Tail.body, List.forall_mem_cons, List.forall_mem_append]
    exact ⟨hp.words_wellFormed, rfl, nofun⟩
  | .index hp => by
    simp only [Tail.body, List.forall_mem_cons, List.forall_mem_append]
    exact ⟨hp.words_wellFormed, rfl, nofun⟩
  | .binary _ hp => hp.words_wellFormed
  | .dice hp => hp.words_wellFormed
  | .keep _ hp => hp.words_wellFormed

end

/-- Where words are written, no other token is malformed either. -/
theorem Spells.tokens_wellFormed {words tokens rest : List Token} (h : Spells words tokens rest)
    (hwords : ∀ t ∈ words, t.isMalformed = false) (hrest : ∀ t ∈ rest, t.isMalformed = false) :
    ∀ t ∈ tokens, t.isMalformed = false := by
  induction h with
  | nil => exact hrest
  | word _ ih =>
    obtain ⟨ht, hwords⟩ := List.forall_mem_cons.mp hwords
    exact List.forall_mem_cons.mpr ⟨ht, ih hwords hrest⟩
  | half _ ih =>
    obtain ⟨-, hwords⟩ := List.forall_mem_cons.mp hwords
    obtain ⟨-, htokens⟩ := List.forall_mem_cons.mp (ih hwords hrest)
    exact List.forall_mem_cons.mpr ⟨rfl, htokens⟩

/-- What is accepted has no malformed token. -/
theorem Tree.isMalformed_of_ofTokens_eq_ok {depth : Nat} {tokens : List Token} {t : Tree}
    (hend : .endOfInput ∉ tokens) (h : Tree.ofTokens depth tokens = .ok t) :
    ∀ u ∈ tokens, u.isMalformed = false := by
  obtain ⟨p, ⟨hfits, hspells⟩, -⟩ := (accepts_iff_derives depth hend).1.mp ⟨t, h⟩
  exact hspells.tokens_wellFormed hfits.words_wellFormed nofun

/-- The kind of an error tells whether the token that it names is malformed. -/
theorem SyntaxError.Names.category {e : SyntaxError} {t : Token} (h : e.Names t) :
    (EvalError.form e).category = if t.isMalformed then .malformed else .grammar := by
  cases h with
  | malformed ht => rw [if_pos ht]; rfl
  | unexpected ht => rw [ht]; rfl
  | expected ht => rw [ht]; rfl
  | notUnary => rfl
  | incomplete => rfl

theorem SyntaxError.Names.eq_malformed {e : SyntaxError} {t : Token} (h : e.Names t)
    (ht : t.isMalformed = true) : e = .malformed t.text := by
  cases h with
  | malformed => rfl
  | unexpected hnot => exact absurd ht (by simp [hnot])
  | expected hnot => exact absurd ht (by simp [hnot])
  | notUnary => cases ht
  | incomplete => cases ht

theorem mem_of_isMalformed_frontToken {tokens : List Token}
    (h : (frontToken tokens).isMalformed = true) : frontToken tokens ∈ tokens := by
  match tokens with
  | [] => cases h
  | t :: rest => exact List.mem_cons_self

/-! ## 7. Texts -/

/-- **Syntax errors arise at the first impossible token.**  What stands in front of it can be
completed to an expression, and what goes on with it is none, whatever follows.  Only a malformed
token makes an error of the kind `malformed`, and it is named by it.  Hence a text with such a token
is never accepted, and a text without one never has an error of that kind. -/
theorem Tree.ofText_error_at_first_impossible (depth : Nat) (text : String) :
    (∀ e, Tree.ofText depth text = .error e → e ≠ .tooDeep →
      ∃ front rest, Token.ofText text = front ++ rest ∧ e.Names (frontToken rest) ∧
        (∃ more t, (∀ u ∈ more, u.WellFormed) ∧
          Tree.ofTokens depth (front ++ more) = .ok t) ∧
        (∀ limit rest', depth ≤ limit → frontToken rest' = frontToken rest →
          Tree.ofTokens limit (front ++ rest') = .error e) ∧
        ((EvalError.form e).category = .malformed ↔ (frontToken rest).isMalformed = true) ∧
        ((EvalError.form e).category = .grammar ↔ (frontToken rest).isMalformed = false) ∧
        ((frontToken rest).isMalformed = true → e = .malformed (frontToken rest).text)) ∧
    ((∃ u ∈ Token.ofText text, u.isMalformed = true) → ∀ t, Tree.ofText depth text ≠ .ok t) ∧
    ((∀ u ∈ Token.ofText text, u.isMalformed = false) →
      ∀ e, Tree.ofText depth text = .error e → (EvalError.form e).category ≠ .malformed) := by
  have hfirst (e : SyntaxError) (h : Tree.ofTokens depth (Token.ofText text) = .error e)
      (hdeep : e ≠ .tooDeep) := Tree.ofTokens_located h hdeep
  refine ⟨?_, ?_, ?_⟩
  · intro e h hdeep
    obtain ⟨front, rest, htokens, hnames, ⟨p, more, hfits, hnest, hmore, hwords⟩, hfails⟩ :=
      hfirst e h hdeep
    refine ⟨front, rest, htokens, hnames, ⟨more, p.tree, hmore, ?_⟩, hfails, ?_, ?_,
      hnames.eq_malformed⟩
    · exact tree_ofTokens_eq_ok ⟨hfits, hwords⟩ hnest
    · rw [hnames.category]
      split <;> simp_all
    · rw [hnames.category]
      split <;> simp_all
  · rintro ⟨u, hu, hmalformed⟩ t ht
    have hwell := Tree.isMalformed_of_ofTokens_eq_ok (endOfInput_notMem_ofText text) ht u hu
    exact absurd (hmalformed.symm.trans hwell) nofun
  · intro hwell e h hcategory
    have hdeep : e ≠ .tooDeep := by
      rintro rfl
      cases hcategory
    obtain ⟨front, rest, htokens, hnames, -⟩ := hfirst e h hdeep
    rw [hnames.category] at hcategory
    cases hmalformed : (frontToken rest).isMalformed with
    | false =>
      rw [hmalformed] at hcategory
      cases hcategory
    | true =>
      have hmem : frontToken rest ∈ Token.ofText text := by
        rw [htokens]
        exact List.mem_append_right front (mem_of_isMalformed_frontToken hmalformed)
      exact absurd (hmalformed.symm.trans (hwell _ hmem)) nofun

/-- An element is not assigned to, and a dollar sign is no token. -/
theorem Tree.ofText_error_at_first_impossible_element :
    (Tree.ofText 100 "[1 = 2]" = .error (.expected .comma (.op .assign)) ∧
      SyntaxError.expected .comma (.op .assign) ≠ .tooDeep ∧
      ∃ front rest, Token.ofText "[1 = 2]" = front ++ rest ∧
        (SyntaxError.expected .comma (.op .assign)).Names (frontToken rest)) ∧
    (.stray '$' ∈ Token.ofText "1 $" ∧ ∀ t, Tree.ofText 100 "1 $" ≠ .ok t) ∧
    (∀ u ∈ Token.ofText "[1 = 2]", u.isMalformed = false) ∧
    (EvalError.form (.expected .comma (.op .assign))).category ≠ .malformed := by
  have helement : Tree.ofText 100 "[1 = 2]" = .error (.expected .comma (.op .assign)) := by cbv
  have hstray : Token.ofText "1 $" = [.number 1, .stray '$'] := by cbv
  have htokens : Token.ofText "[1 = 2]" =
      [.op .openBracket, .number 1, .op .assign, .number 2, .op .closeBracket] := by cbv
  obtain ⟨front, rest, hfront, hnames, -⟩ :=
    (Tree.ofText_error_at_first_impossible 100 "[1 = 2]").1 _ helement (by decide)
  have hwell : ∀ u ∈ Token.ofText "[1 = 2]", u.isMalformed = false := by
    simp [htokens, Token.isMalformed]
  have hmem : .stray '$' ∈ Token.ofText "1 $" := by simp [hstray]
  exact ⟨⟨helement, by decide, front, rest, hfront, hnames⟩,
    ⟨hmem, (Tree.ofText_error_at_first_impossible 100 "1 $").2.1 ⟨_, hmem, rfl⟩⟩,
    hwell, (Tree.ofText_error_at_first_impossible 100 "[1 = 2]").2.2 hwell _ helement⟩

end DiceNotation
