/-
# What reading comes to

Whatever the actions are, the reader goes through the tokens in the same way: the tokens alone
decide which constructs it reports, in which order, and how it ends.  For each part of the reader
there are two outcomes, and this module says them for all actions at once:

* it reads a phrase of the grammar, and the effects are those of folding the tree of the phrase
  (`Work.Gives`);
* it stops with a syntax error, and the effects are those of folding the trees that were complete at
  that point, one after the other (`Work.Breaks`).

The first outcome is the soundness of the reader: `Phrase.ReadAs` has the grammar, the spelling and
the reason why the operand ended where it did.  `operandReaders_sound` is the result, by induction
on the number of levels that are left; the lemmas before it are one for each part of an operand.
-/
import DiceNotation.Proofs.Grammar.Fold
import DiceNotation.Proofs.Grammar.Steps

namespace DiceNotation

/-! ## 1. Outcomes -/

/-- A part of the reader, given for all effects, values and actions. -/
abbrev Work (γ : Type → Type) : Type 1 :=
  ∀ (m : Type → Type) [Monad m] (α : Type), Actions m α → ExceptT SyntaxError m (γ α)

namespace Work

/-- The work reads a tree, carries out its actions and goes on with `rest`. -/
def Gives {bound : Nat} (x : Work (Reading · bound)) (t : Tree) (rest : List Token) : Prop :=
  ∃ h : weight rest < bound, ∀ (m : Type → Type) [Monad m] [LawfulMonad m] (α : Type)
    (acts : Actions m α), x m α acts = do
      let v ← acts.fold t
      return ⟨v, rest, h⟩

/-- The work reads some trees, carries out their actions and goes on with `rest`. -/
def GivesAll {bound : Nat} (x : Work fun α => Reading (List α) bound) (trees : List Tree)
    (rest : List Token) : Prop :=
  ∃ h : weight rest < bound, ∀ (m : Type → Type) [Monad m] [LawfulMonad m] (α : Type)
    (acts : Actions m α), x m α acts = do
      let vs ← acts.foldAll trees
      return ⟨vs, rest, h⟩

/-- The work carries out the actions of some trees and stops with an error. -/
def BreaksAt {γ : Type → Type} (x : Work γ) (done : List Tree) (e : SyntaxError) : Prop :=
  ∀ (m : Type → Type) [Monad m] [LawfulMonad m] (α : Type) (acts : Actions m α),
    x m α acts = (do
      let _ ← acts.foldAll done
      throw e)

/-- The work stops with an error, wherever that is. -/
def Breaks {γ : Type → Type} (x : Work γ) : Prop := ∃ done e, x.BreaksAt done e

end Work

/-- A phrase as it is read: it stands at the front of some tokens and has at most `depth` levels. -/
structure Phrase.ReadAs (p : Phrase) (depth power : Nat) (tokens rest : List Token) : Prop
    extends p.Stands power tokens rest where
  nesting_le : p.nesting ≤ depth

/-- Readers of operands, one for all effects, values and actions. -/
abbrev Readers : Type 1 :=
  ∀ (m : Type → Type) [Monad m] (α : Type), Actions m α → OperandReader m α

/-- Readers that read phrases of the grammar down to `depth` levels. -/
def Readers.Sound (readers : Readers) (depth : Nat) : Prop :=
  ∀ (power : Nat) (tokens : List Token),
    (∃ (p : Phrase) (rest : List Token), p.ReadAs depth power tokens rest ∧
      Work.Gives (fun m _ α acts => readers m α acts power tokens) p.tree rest) ∨
    Work.Breaks fun m _ α acts => readers m α acts power tokens

/-! ## 2. The ends of brackets -/

theorem passOver_cases (o : Op) (tokens : List Token) :
    (∃ rest, tokens = .op o :: rest) ∨ ∃ e, passOver o tokens = .error e := by
  match tokens with
  | [] => exact .inr ⟨_, rfl⟩
  | t :: rest =>
    by_cases ht : t = .op o
    · exact .inl ⟨rest, by rw [ht]⟩
    · exact .inr ⟨.expected o t, by simp [passOver, ht]⟩

/-- A group ends at `)` or at the first half of `)!`, which is where the word `)` is spelled. -/
theorem passGroupEnd_cases (tokens : List Token) :
    (∃ closed, passGroupEnd tokens = .ok closed ∧
      Spells [.op .closeParen] tokens closed.rest) ∨ ∃ e, passGroupEnd tokens = .error e := by
  by_cases hbang : ∃ rest, tokens = .op .parenBang :: rest
  · obtain ⟨rest, rfl⟩ := hbang
    exact .inl ⟨_, passGroupEnd_parenBang rest, .half .nil⟩
  · have heq : passGroupEnd tokens = passOver .closeParen tokens := by
      rw [passGroupEnd]
      exact fun rest h => hbang ⟨rest, h⟩
    rcases passOver_cases .closeParen tokens with ⟨rest, rfl⟩ | ⟨e, he⟩
    · exact .inl ⟨_, passGroupEnd_closeParen rest, .word .nil⟩
    · exact .inr ⟨e, heq.trans he⟩

/-! ## 3. Elements -/

section Parts

variable {readers : Readers} {depth : Nat}

/-- The elements of an array literal as they are read, closing bracket included. -/
structure ElementsReadAs (first : Phrase) (more : List Phrase) (comma : Bool) (depth : Nat)
    (tokens rest : List Token) : Prop where
  first_fits : first.Fits elementPower
  more_fit : ∀ p ∈ more, p.Fits elementPower
  nesting_le : max first.nesting (nestingOf more) ≤ depth
  spells : Spells (first.words ++ (furtherWords more ++ arrayClose comma)) tokens rest

theorem readElements_outcome (sound : readers.Sound depth) (tokens : List Token) :
    (∃ first more comma rest, ElementsReadAs first more comma depth tokens rest ∧
      Work.GivesAll (fun m _ α acts => readElements (readers m α acts) tokens)
        (first.tree :: treesOf more) rest) ∨
    Work.Breaks fun m _ α acts => readElements (readers m α acts) tokens := by
  rcases sound elementPower tokens with ⟨p, mid, hp, h, hread⟩ | ⟨done, e, hread⟩
  · by_cases hclose : ∃ rest, mid = .op .closeBracket :: rest
    · obtain ⟨rest, rfl⟩ := hclose
      refine .inl ⟨p, [], false, rest, ⟨hp.fits, by simp, ?_, ?_⟩, ?_, fun m _ _ α acts => ?_⟩
      · simpa [nestingOf] using hp.nesting_le
      · exact hp.spells.append (.word .nil)
      · exact Nat.lt_trans (weight_lt_cons _ rest) h
      · refine (readElements_close (hread m α acts)).trans ?_
        simp [treesOf, Actions.foldAll]
    by_cases hcomma : ∃ rest, mid = .op .comma :: rest
    · obtain ⟨rest, rfl⟩ := hcomma
      by_cases hlast : ∃ rest', rest = .op .closeBracket :: rest'
      · obtain ⟨rest', rfl⟩ := hlast
        refine .inl ⟨p, [], true, rest', ⟨hp.fits, by simp, ?_, ?_⟩, ?_, fun m _ _ α acts => ?_⟩
        · simpa [nestingOf] using hp.nesting_le
        · exact hp.spells.append (.word (.word .nil))
        · exact Nat.lt_trans (Nat.lt_trans (weight_lt_cons _ rest') (weight_lt_cons _ _)) h
        · refine (readElements_comma_close (hread m α acts)).trans ?_
          simp [treesOf, Actions.foldAll]
      · have hnot : ∀ r, rest ≠ .op .closeBracket :: r := fun r hr => hlast ⟨r, hr⟩
        rcases readElements_outcome sound rest with
          ⟨q, more, comma, rest', hq, h', hmore⟩ | ⟨done, e, hmore⟩
        · refine .inl ⟨p, q :: more, comma, rest', ⟨hp.fits, ?_, ?_, ?_⟩, ?_,
            fun m _ _ α acts => ?_⟩
          · exact List.forall_mem_cons.mpr ⟨hq.first_fits, hq.more_fit⟩
          · exact Nat.max_le.mpr ⟨hp.nesting_le, hq.nesting_le⟩
          · refine hp.spells.append (.word ?_)
            simpa [furtherWords] using hq.spells
          · exact Nat.lt_trans (Nat.lt_trans h' (weight_lt_cons _ rest)) h
          · refine (readElements_comma (hread m α acts) hnot).trans ?_
            simp [hmore m α acts, treesOf, Actions.foldAll]
        · refine .inr ⟨p.tree :: done, e, fun m _ _ α acts => ?_⟩
          refine (readElements_comma (hread m α acts) hnot).trans ?_
          simp [hmore m α acts, Actions.foldAll]
    · refine .inr ⟨[p.tree], .expected .comma (frontToken mid), fun m _ _ α acts => ?_⟩
      refine (readElements_fails (hread m α acts) (fun r hr => hclose ⟨r, hr⟩)
        (fun r hr => hcomma ⟨r, hr⟩)).trans ?_
      simp [Actions.foldAll]
  · refine .inr ⟨done, e, fun m _ _ α acts => ?_⟩
    refine (readElements_breaks (hread m α acts)).trans ?_
    simp
termination_by weight tokens
decreasing_by
  exact Nat.lt_trans (weight_lt_cons _ rest) h

/-! ## 4. Primaries -/

/-- A primary as it is read.  It is an operand of any least power. -/
structure Phrase.PrimaryReadAs (p : Phrase) (depth : Nat) (tokens rest : List Token) : Prop where
  fits : ∀ power, p.Fits power
  nesting_le : p.nesting ≤ depth + 1
  spells : Spells p.words tokens rest
  seals : p.Seals rest

/-- What reading a primary comes to: a phrase is read, or the work breaks. -/
def PrimaryOutcome (readers : Readers) (depth : Nat) (tokens : List Token) : Prop :=
  (∃ (p : Phrase) (rest : List Token), p.PrimaryReadAs depth tokens rest ∧
    Work.Gives (fun m _ α acts => readPrimary acts (readers m α acts) tokens) p.tree rest) ∨
  Work.Breaks fun m _ α acts => readPrimary acts (readers m α acts) tokens

theorem readGroup_outcome (sound : readers.Sound depth) (tokens : List Token) :
    PrimaryOutcome readers depth (.op .openParen :: tokens) := by
  rcases sound 0 tokens with ⟨p, mid, hp, h, hread⟩ | ⟨done, e, hread⟩
  · rcases passGroupEnd_cases mid with ⟨closed, hclosed, hspells⟩ | ⟨e, he⟩
    · refine .inl ⟨.group p, closed.rest, ⟨fun _ => .group hp.fits, ?_, ?_, by simp [Phrase.Seals,
        Phrase.openPowers]⟩, ?_, fun m _ _ α acts => ?_⟩
      · exact Nat.succ_le_succ hp.nesting_le
      · exact .word (hp.spells.append hspells)
      · exact Nat.lt_trans (Nat.lt_trans closed.lighter h) (weight_lt_cons _ tokens)
      · refine (readPrimary_group tokens).trans ?_
        simp [hread m α acts, hclosed, Phrase.tree]
    · refine .inr ⟨[p.tree], e, fun m _ _ α acts => ?_⟩
      refine (readPrimary_group tokens).trans ?_
      simp [hread m α acts, he, Actions.foldAll]
  · refine .inr ⟨done, e, fun m _ _ α acts => ?_⟩
    refine (readPrimary_group tokens).trans ?_
    simp [hread m α acts]

theorem readArray_outcome (sound : readers.Sound depth) (tokens : List Token) :
    PrimaryOutcome readers depth (.op .openBracket :: tokens) := by
  by_cases hempty : ∃ rest, tokens = .op .closeBracket :: rest
  · obtain ⟨rest, rfl⟩ := hempty
    refine .inl ⟨.emptyArray, rest, ⟨fun _ => .emptyArray, ?_, ?_, by simp [Phrase.Seals,
      Phrase.openPowers]⟩, ?_, fun m _ _ α acts => ?_⟩
    · exact Nat.le_add_left 1 depth
    · exact .word (.word .nil)
    · exact Nat.lt_trans (weight_lt_cons _ rest) (weight_lt_cons _ _)
    · refine (readPrimary_emptyArray rest).trans ?_
      simp [Phrase.tree, Actions.fold, Actions.foldAll]
  · have hnot : ∀ r, tokens ≠ .op .closeBracket :: r := fun r hr => hempty ⟨r, hr⟩
    rcases readElements_outcome sound tokens with
      ⟨first, more, comma, rest, hp, h, hread⟩ | ⟨done, e, hread⟩
    · refine .inl ⟨.array first more comma, rest, ⟨fun _ => .array hp.first_fits hp.more_fit, ?_,
        ?_, by simp [Phrase.Seals, Phrase.openPowers]⟩, ?_, fun m _ _ α acts => ?_⟩
      · exact Nat.succ_le_succ hp.nesting_le
      · exact .word hp.spells
      · exact Nat.lt_trans h (weight_lt_cons _ tokens)
      · refine (readPrimary_array hnot).trans ?_
        simp [hread m α acts, Phrase.tree, Actions.fold]
    · refine .inr ⟨done, e, fun m _ _ α acts => ?_⟩
      refine (readPrimary_array hnot).trans ?_
      simp [hread m α acts]

theorem readUnary_outcome (sound : readers.Sound depth) {o : Op} {r : Nat}
    (ho : o.unaryPower? = some r) (tokens : List Token) :
    PrimaryOutcome readers depth (.op o :: tokens) := by
  rcases sound r tokens with ⟨p, rest, hp, h, hread⟩ | ⟨done, e, hread⟩
  · refine .inl ⟨.unary o p, rest, ⟨fun _ => .unary ho hp.fits, ?_, .word hp.spells, ?_⟩, ?_,
      fun m _ _ α acts => ?_⟩
    · exact Nat.succ_le_succ hp.nesting_le
    · simpa [Phrase.Seals, Phrase.openPowers, ho] using ⟨hp.stops, hp.seals⟩
    · exact Nat.lt_trans h (weight_lt_cons _ tokens)
    · refine (readPrimary_unary ho).trans ?_
      simp [hread m α acts, Phrase.tree, Actions.fold]
  · refine .inr ⟨done, e, fun m _ _ α acts => ?_⟩
    refine (readPrimary_unary ho).trans ?_
    simp [hread m α acts]

theorem readDie_outcome (sound : readers.Sound depth) (tokens : List Token) :
    PrimaryOutcome readers depth (.word dieWord :: tokens) := by
  rcases sound sidesPower tokens with ⟨p, rest, hp, h, hread⟩ | ⟨done, e, hread⟩
  · refine .inl ⟨.die p, rest, ⟨fun _ => .die hp.fits, ?_, .word hp.spells, ?_⟩, ?_,
      fun m _ _ α acts => ?_⟩
    · exact Nat.succ_le_succ hp.nesting_le
    · simpa [Phrase.Seals, Phrase.openPowers] using ⟨hp.stops, hp.seals⟩
    · exact Nat.lt_trans h (weight_lt_cons _ tokens)
    · refine (readPrimary_die tokens).trans ?_
      simp [hread m α acts, Phrase.tree, Actions.fold]
  · refine .inr ⟨done, e, fun m _ _ α acts => ?_⟩
    refine (readPrimary_die tokens).trans ?_
    simp [hread m α acts]

theorem readLiteral_outcome {t : Token} (ht : t.isLiteral = true) (tokens : List Token) :
    PrimaryOutcome readers depth (t :: tokens) := by
  refine .inl ⟨.literal t, tokens, ⟨fun _ => .literal ht, ?_, .word .nil, by simp [Phrase.Seals,
    Phrase.openPowers]⟩, weight_lt_cons t tokens, fun m _ _ α acts => ?_⟩
  · exact Nat.le_add_left 1 depth
  · refine (readPrimary_literal ht).trans ?_
    simp [Phrase.tree, Actions.fold]

/-- A primary that fails at its first token breaks before any action. -/
theorem PrimaryOutcome.of_throw {tokens : List Token} {e : SyntaxError}
    (h : ∀ (m : Type → Type) [Monad m] [LawfulMonad m] (α : Type) (acts : Actions m α),
      readPrimary acts (readers m α acts) tokens = throw e) :
    PrimaryOutcome readers depth tokens := by
  refine .inr ⟨[], e, fun m _ _ α acts => ?_⟩
  simp [h m α acts, Actions.foldAll]

theorem readPrimary_outcome (sound : readers.Sound depth) (tokens : List Token) :
    PrimaryOutcome readers depth tokens := by
  cases primaryStart tokens with
  | literal ht rest => exact readLiteral_outcome ht rest
  | group rest => exact readGroup_outcome sound rest
  | emptyArray rest => exact readArray_outcome sound (.op .closeBracket :: rest)
  | array _ => exact readArray_outcome sound _
  | unary ho rest => exact readUnary_outcome sound ho rest
  | die rest => exact readDie_outcome sound rest
  | fails e _ hfails => exact .of_throw fun m _ _ α acts => hfails m α acts _

/-! ## 5. Extensions

The left operand has been read before.  In these statements its effects, those of folding the tree
`left`, stand in front of what the extension does. -/

/-- A tail as it is read behind the token `t`, which starts the extension `e`. -/
structure Tail.ReadAs (tail : Tail) (t : Token) (e : Extension) (depth : Nat)
    (tokens rest : List Token) : Prop where
  fits : tail.Fits e
  start : tail.start = t
  nesting_le : tail.nesting ≤ depth
  spells : Spells tail.body tokens rest
  seals : ∀ r ∈ tail.openPowers, Stops r rest

/-- The work of extending an operand with the tree `left`. -/
def extensionWork (readers : Readers) (left : Tree) (e : Extension) (tokens : List Token) :
    Work (Reading · (weight tokens + 1)) := fun m _ α acts => do
  let v ← acts.fold left
  readExtension acts (readers m α acts) v e tokens

/-- What reading an extension behind the operand `left` comes to, if the token `t` starts it. -/
def ExtensionOutcome (readers : Readers) (depth : Nat) (left : Tree) (t : Token) (e : Extension)
    (tokens : List Token) : Prop :=
  (∃ (tail : Tail) (rest : List Token), tail.ReadAs t e depth tokens rest ∧
    (extensionWork readers left e tokens).Gives (tail.onto left) rest) ∨
  (extensionWork readers left e tokens).Breaks

theorem readSuffix_outcome {o : Op} (ho : o.suffixPower?.isSome = true) (left : Tree)
    (tokens : List Token) :
    ExtensionOutcome readers depth left (.op o) (.suffix o) tokens := by
  refine .inl ⟨.suffix o, tokens, ⟨.suffix ho, rfl, Nat.zero_le _, .nil, by simp [Tail.openPowers]⟩,
    Nat.lt_succ_self _, fun m _ _ α acts => ?_⟩
  simp [extensionWork, readExtension, Tail.onto, Actions.fold]

theorem readExplosion_outcome (sound : readers.Sound depth) (left : Tree) (tokens : List Token) :
    ExtensionOutcome readers depth left (.op .bangParen) .explode tokens := by
  rcases sound 0 tokens with ⟨p, mid, hp, h, hread⟩ | ⟨done, e, hread⟩
  · rcases passOver_cases .parenBang mid with ⟨rest, rfl⟩ | ⟨e, he⟩
    · refine .inl ⟨.explode p, rest, ⟨.explode hp.fits, rfl, hp.nesting_le,
        hp.spells.append (.word .nil), by simp [Tail.openPowers]⟩, ?_, fun m _ _ α acts => ?_⟩
      · exact Nat.lt_succ_of_lt (Nat.lt_trans (weight_lt_cons _ rest) h)
      · simp [extensionWork, readExtension, hread m α acts, passOver_self, Tail.onto, Actions.fold]
    · refine .inr ⟨[left, p.tree], e, fun m _ _ α acts => ?_⟩
      simp [extensionWork, readExtension, hread m α acts, he, Actions.foldAll]
  · refine .inr ⟨left :: done, e, fun m _ _ α acts => ?_⟩
    simp [extensionWork, readExtension, hread m α acts, Actions.foldAll]

theorem readIndex_outcome (sound : readers.Sound depth) (left : Tree) (tokens : List Token) :
    ExtensionOutcome readers depth left (.op .openBracket) .index tokens := by
  rcases sound 0 tokens with ⟨p, mid, hp, h, hread⟩ | ⟨done, e, hread⟩
  · rcases passOver_cases .closeBracket mid with ⟨rest, rfl⟩ | ⟨e, he⟩
    · refine .inl ⟨.index p, rest, ⟨.index hp.fits, rfl, hp.nesting_le,
        hp.spells.append (.word .nil), by simp [Tail.openPowers]⟩, ?_, fun m _ _ α acts => ?_⟩
      · exact Nat.lt_succ_of_lt (Nat.lt_trans (weight_lt_cons _ rest) h)
      · simp [extensionWork, readExtension, hread m α acts, passOver_self, Tail.onto, Actions.fold]
    · refine .inr ⟨[left, p.tree], e, fun m _ _ α acts => ?_⟩
      simp [extensionWork, readExtension, hread m α acts, he, Actions.foldAll]
  · refine .inr ⟨left :: done, e, fun m _ _ α acts => ?_⟩
    simp [extensionWork, readExtension, hread m α acts, Actions.foldAll]

theorem readBinary_outcome (sound : readers.Sound depth) {o : Op} {l r : Nat}
    (ho : o.binaryPowers? = some (l, r)) (left : Tree) (tokens : List Token) :
    ExtensionOutcome readers depth left (.op o) (.binary o l r) tokens := by
  rcases sound r tokens with ⟨p, rest, hp, h, hread⟩ | ⟨done, e, hread⟩
  · refine .inl ⟨.binary o p, rest, ⟨.binary ho hp.fits, rfl, hp.nesting_le, hp.spells, ?_⟩,
      Nat.lt_succ_of_lt h, fun m _ _ α acts => ?_⟩
    · simpa [Tail.openPowers, ho] using ⟨hp.stops, hp.seals⟩
    · simp [extensionWork, readExtension, hread m α acts, Tail.onto, Actions.fold]
  · refine .inr ⟨left :: done, e, fun m _ _ α acts => ?_⟩
    simp [extensionWork, readExtension, hread m α acts, Actions.foldAll]

theorem readDice_outcome (sound : readers.Sound depth) (left : Tree) (tokens : List Token) :
    ExtensionOutcome readers depth left (.word dieWord) .dice tokens := by
  rcases sound sidesPower tokens with ⟨p, rest, hp, h, hread⟩ | ⟨done, e, hread⟩
  · refine .inl ⟨.dice p, rest, ⟨.dice hp.fits, rfl, hp.nesting_le, hp.spells, ?_⟩,
      Nat.lt_succ_of_lt h, fun m _ _ α acts => ?_⟩
    · simpa [Tail.openPowers] using ⟨hp.stops, hp.seals⟩
    · simp [extensionWork, readExtension, hread m α acts, Tail.onto, Actions.fold]
  · refine .inr ⟨left :: done, e, fun m _ _ α acts => ?_⟩
    simp [extensionWork, readExtension, hread m α acts, Actions.foldAll]

theorem readKeep_outcome (sound : readers.Sound depth) {k : Keep} {word : String}
    (hk : Keep.ofWord? word = some k) (left : Tree) (tokens : List Token) :
    ExtensionOutcome readers depth left (.word word) (.keep k) tokens := by
  rcases sound keepPower tokens with ⟨p, rest, hp, h, hread⟩ | ⟨done, e, hread⟩
  · refine .inl ⟨.keep word p, rest, ⟨.keep hk hp.fits, rfl, hp.nesting_le, hp.spells, ?_⟩,
      Nat.lt_succ_of_lt h, fun m _ _ α acts => ?_⟩
    · simpa [Tail.openPowers] using ⟨hp.stops, hp.seals⟩
    · simp [extensionWork, readExtension, hread m α acts, Tail.onto, Actions.fold, hk]
  · refine .inr ⟨left :: done, e, fun m _ _ α acts => ?_⟩
    simp [extensionWork, readExtension, hread m α acts, Actions.foldAll]

/-- The token that starts an extension decides of which kind it is. -/
theorem readExtension_outcome (sound : readers.Sound depth) {t : Token} {e : Extension}
    (ht : t.extension? = some e) (left : Tree) (tokens : List Token) :
    ExtensionOutcome readers depth left t e tokens := by
  cases t with
  | word name =>
    simp only [Token.extension?] at ht
    split at ht
    · next hname =>
      cases ht
      subst hname
      exact readDice_outcome sound left tokens
    · obtain ⟨k, hk, rfl⟩ := Option.map_eq_some_iff.mp ht
      exact readKeep_outcome sound hk left tokens
  | op o =>
    simp only [Token.extension?, Op.extension?] at ht
    split at ht
    · cases ht
      exact readSuffix_outcome rfl left tokens
    · cases ht
      exact readSuffix_outcome rfl left tokens
    · cases ht
      exact readExplosion_outcome sound left tokens
    · cases ht
      exact readIndex_outcome sound left tokens
    · obtain ⟨⟨l, r⟩, ho, rfl⟩ := Option.map_eq_some_iff.mp ht
      exact readBinary_outcome sound ho left tokens
  | number n => simp [Token.extension?] at ht
  | char c => simp [Token.extension?] at ht
  | string content => simp [Token.extension?] at ht
  | malformed piece => simp [Token.extension?] at ht
  | stray c => simp [Token.extension?] at ht
  | endOfInput => simp [Token.extension?] at ht

/-! ## 6. Operands -/

/-- The work of reading the extensions of an operand with the tree `left`. -/
def extensionsWork (readers : Readers) (power : Nat) {bound : Nat} (left : Tree)
    (rest : List Token) (h : weight rest < bound) : Work (Reading · bound) := fun m _ α acts => do
  let v ← acts.fold left
  readExtensions acts (readers m α acts) power ⟨v, rest, h⟩

/-- One turn of the loop: an extension that is read makes a larger left operand. -/
theorem extensionsWork_step {power bound : Nat} {left wider : Tree} {t : Token} {e : Extension}
    {rest mid : List Token} (h : weight (t :: rest) < bound) (ht : t.extension? = some e)
    (he : power ≤ e.power) (hread : (extensionWork readers left e rest).Gives wider mid) :
    ∃ hmid : weight mid < bound, ∀ (m : Type → Type) [Monad m] [LawfulMonad m] (α : Type)
      (acts : Actions m α),
      extensionsWork readers power left (t :: rest) h m α acts =
        extensionsWork readers power wider mid hmid m α acts := by
  obtain ⟨hlt, hread⟩ := hread
  have hmid : weight mid < bound := by
    have := t.weight_pos
    simp only [weight_cons] at h
    omega
  refine ⟨hmid, fun m _ _ α acts => ?_⟩
  have hone := hread m α acts
  simp only [extensionWork] at hone
  simp only [extensionsWork, readExtensions_some h ht he]
  rw [← bind_assoc, hone]
  simp

/-- An extension that is not read to its end ends the loop. -/
theorem extensionsWork_breaks {power bound : Nat} {left : Tree} {t : Token} {e : Extension}
    {rest : List Token} (h : weight (t :: rest) < bound) (ht : t.extension? = some e)
    (he : power ≤ e.power) (hread : (extensionWork readers left e rest).Breaks) :
    (extensionsWork readers power left (t :: rest) h).Breaks := by
  obtain ⟨done, err, hread⟩ := hread
  refine ⟨done, err, fun m _ _ α acts => ?_⟩
  have hone := hread m α acts
  simp only [extensionWork] at hone
  simp only [extensionsWork, readExtensions_some h ht he]
  rw [← bind_assoc, hone]
  simp

/-- The loop over the extensions grows a phrase `l` that has been read off `tokens`.  What is kept
up is that `l` fits and that nothing behind it extends an operand inside it. -/
theorem readExtensions_outcome (sound : readers.Sound depth) {power bound : Nat}
    {tokens : List Token} {l : Phrase} {rest : List Token} (h : weight rest < bound)
    (hfits : l.Fits power) (hnest : l.nesting ≤ depth + 1) (hspells : Spells l.words tokens rest)
    (hseals : l.Seals rest) :
    (∃ (p : Phrase) (rest' : List Token), p.ReadAs (depth + 1) power tokens rest' ∧
      (extensionsWork readers power l.tree rest h).Gives p.tree rest') ∨
    (extensionsWork readers power l.tree rest h).Breaks := by
  by_cases hstop : Stops power rest
  · refine .inl ⟨l, rest, ⟨⟨hfits, hspells, hstop, hseals⟩, hnest⟩, h, fun m _ _ α acts => ?_⟩
    simp [extensionsWork, readExtensions_of_stops hstop]
  match rest with
  | [] => exact absurd trivial hstop
  | t :: rest =>
    cases ht : t.extension? with
    | none =>
      have hends : ¬ t.endsOperand = true := by simpa [Stops, ht] using hstop
      refine .inr ⟨[l.tree], t.misplaced, fun m _ _ α acts => ?_⟩
      simp [extensionsWork, readExtensions_none h ht, hends, Actions.foldAll]
    | some e =>
      rw [stops_cons_of_extension rest ht] at hstop
      have he : power ≤ e.power := Nat.not_lt.mp hstop
      rcases readExtension_outcome sound ht l.tree rest with ⟨tail, mid, htail, hread⟩ | hbreaks
      · obtain ⟨hmid, hstep⟩ := extensionsWork_step h ht he hread
        have hlt : weight mid < weight (t :: rest) := by
          have := hread.1
          have := t.weight_pos
          simp only [weight_cons]
          omega
        have hfits' : (Phrase.extended l tail).Fits power :=
          .extended hfits htail.fits he fun r hr =>
            (stops_cons_of_extension rest ht).mp (hseals r hr)
        have hspells' : Spells (Phrase.extended l tail).words tokens mid := by
          have hstart : Spells (tail.start :: tail.body) (t :: rest) mid := by
            rw [htail.start]
            exact .word htail.spells
          exact hspells.append hstart
        have hnest' : (Phrase.extended l tail).nesting ≤ depth + 1 :=
          Nat.max_le.mpr ⟨hnest, Nat.succ_le_succ htail.nesting_le⟩
        rcases readExtensions_outcome sound hmid hfits' hnest' hspells' htail.seals with
          ⟨p, rest', hp, hlast, hgives⟩ | ⟨done, err, hbreaks⟩
        · exact .inl ⟨p, rest', hp, hlast, fun m _ _ α acts =>
            (hstep m α acts).trans (hgives m α acts)⟩
        · exact .inr ⟨done, err, fun m _ _ α acts => (hstep m α acts).trans (hbreaks m α acts)⟩
      · exact .inr (extensionsWork_breaks h ht he hbreaks)
termination_by weight rest

end Parts

/-- The readers of operands that nest at most `depth` levels deep. -/
def operandReaders (depth : Nat) : Readers := fun _ _ _ acts => readOperand acts depth

/-- **The reader is sound, whatever the actions are.**  It reads a phrase of the grammar and folds
its tree, or it folds the trees that are complete and stops with an error. -/
theorem operandReaders_sound (depth : Nat) : (operandReaders depth).Sound depth := by
  induction depth with
  | zero =>
    exact fun power tokens => .inr ⟨[], .tooDeep, fun m _ _ α acts => by
      simp [operandReaders, readOperand, Actions.foldAll]⟩
  | succ depth ih =>
    intro power tokens
    rcases readPrimary_outcome ih tokens with ⟨l, rest, hl, h, hread⟩ | ⟨done, e, hread⟩
    · rcases readExtensions_outcome ih h (hl.fits power) hl.nesting_le hl.spells hl.seals with
        ⟨p, rest', hp, hlast, hgives⟩ | ⟨done, err, hbreaks⟩
      · refine .inl ⟨p, rest', hp, hlast, fun m _ _ α acts => ?_⟩
        refine Eq.trans ?_ (hgives m α acts)
        simp only [operandReaders] at hread
        simp [operandReaders, readOperand, extensionsWork, hread m α acts]
      · refine .inr ⟨done, err, fun m _ _ α acts => ?_⟩
        refine Eq.trans ?_ (hbreaks m α acts)
        simp only [operandReaders] at hread
        simp [operandReaders, readOperand, extensionsWork, hread m α acts]
    · refine .inr ⟨done, e, fun m _ _ α acts => ?_⟩
      simp only [operandReaders] at hread
      simp [operandReaders, readOperand, hread m α acts]

end DiceNotation
