/-
# Every phrase is read

The reader is complete: it reads every phrase of the grammar, wherever the phrase stands in front
of tokens that do not extend it.  The reader goes from left to right and does not know how long its
operand will be, so the statement for the induction is about the loop in the middle of its work:
having read the words of `p`, the reader is in the loop over the extensions with the value of `p`
(`Phrase.Readable`).  A phrase with a tail is then one turn of that loop, and it is only at the end
of the whole operand that the loop stops (`Phrase.Readable.gives`).
-/
import DiceNotation.Proofs.Grammar.Outcome

namespace DiceNotation

/-! ## 1. What is to be shown -/

/-- The words of the phrase lead a reader of operands into its loop, with the phrase's value. -/
def Phrase.Readable (p : Phrase) (power : Nat) : Prop :=
  ∀ {depth : Nat} {tokens rest : List Token}, p.nesting ≤ depth + 1 →
    Spells p.words tokens rest → p.Seals rest → ∀ h : weight rest < weight tokens,
    ∀ (m : Type → Type) [Monad m] [LawfulMonad m] (α : Type) (acts : Actions m α),
      readOperand acts (depth + 1) power tokens =
        extensionsWork (operandReaders depth) power p.tree rest h m α acts

/-- The words of the tail behind its first one lead through its extension. -/
def Tail.Readable (tail : Tail) (e : Extension) : Prop :=
  ∀ {depth : Nat} {tokens rest : List Token}, tail.nesting ≤ depth →
    Spells tail.body tokens rest → (∀ r ∈ tail.openPowers, Stops r rest) → ∀ left : Tree,
    (extensionWork (operandReaders depth) left e tokens).Gives (tail.onto left) rest

theorem Phrase.nesting_pos : (p : Phrase) → 0 < p.nesting
  | .literal _ => by simp [nesting]
  | .group _ => by simp [nesting]
  | .emptyArray => by simp [nesting]
  | .array _ _ _ => by simp [nesting]
  | .unary _ _ => by simp [nesting]
  | .die _ => by simp [nesting]
  | .extended left _ => Nat.lt_of_lt_of_le left.nesting_pos (Nat.le_max_left _ _)

/-- Where nothing extends the phrase any more, the loop stops and the phrase has been read. -/
theorem Phrase.Readable.gives {p : Phrase} {power : Nat} (hp : p.Readable power) {depth : Nat}
    {tokens rest : List Token} (hnest : p.nesting ≤ depth) (hspells : Spells p.words tokens rest)
    (hseals : p.Seals rest) (hstops : Stops power rest) :
    Work.Gives (fun m _ α acts => operandReaders depth m α acts power tokens) p.tree rest := by
  have hpos := p.nesting_pos
  obtain ⟨d, rfl⟩ : ∃ d, depth = d + 1 := ⟨depth - 1, by omega⟩
  refine ⟨p.weight_lt hspells, fun m _ _ α acts => ?_⟩
  refine (hp hnest hspells hseals (p.weight_lt hspells) m α acts).trans ?_
  simp only [extensionsWork, readExtensions_of_stops hstops]

/-! ## 2. Elements -/

theorem readElements_gives {depth : Nat} {more : List Phrase} {comma : Bool} :
    ∀ {first : Phrase} {tokens rest : List Token}, first.Fits elementPower →
      first.Readable elementPower →
      (∀ p ∈ more, p.Fits elementPower) → (∀ p ∈ more, p.Readable elementPower) →
      max first.nesting (nestingOf more) ≤ depth →
      Spells (first.words ++ (furtherWords more ++ arrayClose comma)) tokens rest →
      Work.GivesAll (fun m _ α acts => readElements (operandReaders depth m α acts) tokens)
        (first.tree :: treesOf more) rest := by
  induction more with
  | nil =>
    intro first tokens rest hfits hread _ _ hnest hspells
    have hnest' : first.nesting ≤ depth := Nat.le_trans (Nat.le_max_left _ _) hnest
    obtain ⟨mid, hfirst, hclose⟩ := spells_append_iff.mp hspells
    cases comma with
    | false =>
      obtain ⟨_, rfl, hnil⟩ := (spells_cons_iff (by decide)).mp hclose
      obtain rfl := spells_nil_iff.mp hnil
      obtain ⟨hstops, hseals⟩ := hfits.seals_element (.inr rfl) _
      obtain ⟨h, hgives⟩ := hread.gives hnest' hfirst hseals hstops
      refine ⟨Nat.lt_trans (weight_lt_cons _ _) h, fun m _ _ α acts => ?_⟩
      refine (readElements_close (hgives m α acts)).trans ?_
      simp [treesOf, Actions.foldAll]
    | true =>
      obtain ⟨_, rfl, hbracket⟩ := (spells_cons_iff (by decide)).mp hclose
      obtain ⟨_, rfl, hnil⟩ := (spells_cons_iff (by decide)).mp hbracket
      obtain rfl := spells_nil_iff.mp hnil
      obtain ⟨hstops, hseals⟩ := hfits.seals_element (.inl rfl) _
      obtain ⟨h, hgives⟩ := hread.gives hnest' hfirst hseals hstops
      refine ⟨Nat.lt_trans (Nat.lt_trans (weight_lt_cons _ _) (weight_lt_cons _ _)) h,
        fun m _ _ α acts => ?_⟩
      refine (readElements_comma_close (hgives m α acts)).trans ?_
      simp [treesOf, Actions.foldAll]
  | cons p more ih =>
    intro first tokens rest hfits hread hmorefit hmoreread hnest hspells
    have hnest' : first.nesting ≤ depth := Nat.le_trans (Nat.le_max_left _ _) hnest
    obtain ⟨hp, hmorefit⟩ := List.forall_mem_cons.mp hmorefit
    obtain ⟨hpread, hmoreread⟩ := List.forall_mem_cons.mp hmoreread
    rw [furtherWords_cons_append] at hspells
    obtain ⟨mid, hfirst, hmore⟩ := spells_append_iff.mp hspells
    obtain ⟨_, rfl, hrest⟩ := (spells_cons_iff (by decide)).mp hmore
    obtain ⟨hstops, hseals⟩ := hfits.seals_element (.inl rfl) _
    obtain ⟨h, hgives⟩ := hread.gives hnest' hfirst hseals hstops
    obtain ⟨h', hgives'⟩ :=
      ih hp hpread hmorefit hmoreread (Nat.le_trans (Nat.le_max_right _ _) hnest) hrest
    refine ⟨Nat.lt_trans (Nat.lt_trans h' (weight_lt_cons _ _)) h, fun m _ _ α acts => ?_⟩
    refine (readElements_comma (hgives m α acts) (hp.ne_closeBracket hrest)).trans ?_
    simp [hgives' m α acts, treesOf, Actions.foldAll]

/-! ## 4. Primaries and tails -/

/-- A primary that is read as a whole leads into the loop. -/
theorem Phrase.readable_of_primary {p : Phrase} {power : Nat}
    (hread : ∀ {depth : Nat} {tokens rest : List Token}, p.nesting ≤ depth + 1 →
      Spells p.words tokens rest → p.Seals rest →
      Work.Gives (fun m _ α acts => readPrimary acts (operandReaders depth m α acts) tokens)
        p.tree rest) : p.Readable power := by
  intro depth tokens rest hnest hspells hseals h m _ _ α acts
  obtain ⟨_, hgives⟩ := hread hnest hspells hseals
  have hone := hgives m α acts
  simp only [operandReaders] at hone
  simp [readOperand, extensionsWork, operandReaders, hone]

theorem Phrase.readable_literal {t : Token} (ht : t.isLiteral = true) (power : Nat) :
    (Phrase.literal t).Readable power := by
  refine readable_of_primary fun {depth tokens rest} _ hspells _ => ?_
  have hne : t ≠ .op .closeParen := by
    rintro rfl
    simp [Token.isLiteral] at ht
  obtain ⟨_, rfl, hnil⟩ := (spells_cons_iff hne).mp hspells
  obtain rfl := spells_nil_iff.mp hnil
  refine ⟨weight_lt_cons _ _, fun m _ _ α acts => ?_⟩
  refine (readPrimary_literal ht).trans ?_
  simp [Phrase.tree, Actions.fold]

theorem Phrase.readable_group {p : Phrase} (hp : p.Readable 0) (power : Nat) :
    (Phrase.group p).Readable power := by
  refine readable_of_primary fun {depth tokens rest} hnest hspells _ => ?_
  obtain ⟨_, rfl, hwords⟩ := (spells_cons_iff (by decide)).mp hspells
  obtain ⟨mid, hinner, hclose⟩ := spells_append_iff.mp hwords
  have hends : ∀ r, Stops r mid := by
    rcases spells_closeParen_iff.mp hclose with rfl | ⟨more, rfl, -⟩
    · exact fun r => stops_op rfl r _
    · exact fun r => stops_op rfl r _
  obtain ⟨h, hgives⟩ :=
    hp.gives (Nat.le_of_succ_le_succ hnest) hinner (fun r _ => hends r) (hends 0)
  have hclosed : ∃ hrest : weight rest < weight mid, passGroupEnd mid = .ok ⟨(), rest, hrest⟩ := by
    rcases spells_closeParen_iff.mp hclose with rfl | ⟨more, rfl, rfl⟩
    · exact ⟨_, passGroupEnd_closeParen rest⟩
    · exact ⟨_, passGroupEnd_parenBang more⟩
  obtain ⟨hrest, hclosed⟩ := hclosed
  refine ⟨Nat.lt_trans (Nat.lt_trans hrest h) (weight_lt_cons _ _), fun m _ _ α acts => ?_⟩
  refine (readPrimary_group _).trans ?_
  simp [hgives m α acts, hclosed, Phrase.tree]

theorem Phrase.readable_emptyArray (power : Nat) : Phrase.emptyArray.Readable power := by
  refine readable_of_primary fun {depth tokens rest} _ hspells _ => ?_
  obtain ⟨_, rfl, hclose⟩ := (spells_cons_iff (by decide)).mp hspells
  obtain ⟨_, rfl, hnil⟩ := (spells_cons_iff (by decide)).mp hclose
  obtain rfl := spells_nil_iff.mp hnil
  refine ⟨Nat.lt_trans (weight_lt_cons _ _) (weight_lt_cons _ _), fun m _ _ α acts => ?_⟩
  refine (readPrimary_emptyArray _).trans ?_
  simp [Phrase.tree, Actions.fold, Actions.foldAll]

theorem Phrase.readable_array {first : Phrase} {more : List Phrase} (comma : Bool)
    (hfits : first.Fits elementPower) (hmorefit : ∀ p ∈ more, p.Fits elementPower)
    (hread : first.Readable elementPower) (hmoreread : ∀ p ∈ more, p.Readable elementPower)
    (power : Nat) : (Phrase.array first more comma).Readable power := by
  refine readable_of_primary fun {depth tokens rest} hnest hspells _ => ?_
  obtain ⟨_, rfl, hwords⟩ := (spells_cons_iff (by decide)).mp hspells
  obtain ⟨h, hgives⟩ :=
    readElements_gives hfits hread hmorefit hmoreread (Nat.le_of_succ_le_succ hnest) hwords
  refine ⟨Nat.lt_trans h (weight_lt_cons _ _), fun m _ _ α acts => ?_⟩
  refine (readPrimary_array (hfits.ne_closeBracket hwords)).trans ?_
  simp [hgives m α acts, Phrase.tree, Actions.fold]

theorem Phrase.readable_unary {o : Op} {r : Nat} {p : Phrase} (ho : o.unaryPower? = some r)
    (hp : p.Readable r) (power : Nat) : (Phrase.unary o p).Readable power := by
  refine readable_of_primary fun {depth tokens rest} hnest hspells hseals => ?_
  have hne : Token.op o ≠ .op .closeParen := by
    rintro heq
    cases heq
    simp [Op.unaryPower?] at ho
  obtain ⟨_, rfl, hwords⟩ := (spells_cons_iff hne).mp hspells
  have hr : Stops r rest := hseals r (by simp [Phrase.openPowers, ho])
  have hp' : p.Seals rest := fun s hs => hseals s (by simp [Phrase.openPowers, hs])
  obtain ⟨h, hgives⟩ := hp.gives (Nat.le_of_succ_le_succ hnest) hwords hp' hr
  refine ⟨Nat.lt_trans h (weight_lt_cons _ _), fun m _ _ α acts => ?_⟩
  refine (readPrimary_unary ho).trans ?_
  simp [hgives m α acts, Phrase.tree, Actions.fold]

theorem Phrase.readable_die {p : Phrase} (hp : p.Readable sidesPower) (power : Nat) :
    (Phrase.die p).Readable power := by
  refine readable_of_primary fun {depth tokens rest} hnest hspells hseals => ?_
  obtain ⟨_, rfl, hwords⟩ := (spells_cons_iff (by decide)).mp hspells
  have hr : Stops sidesPower rest := hseals _ (by simp [Phrase.openPowers])
  have hp' : p.Seals rest := fun s hs => hseals s (by simp [Phrase.openPowers, hs])
  obtain ⟨h, hgives⟩ := hp.gives (Nat.le_of_succ_le_succ hnest) hwords hp' hr
  refine ⟨Nat.lt_trans h (weight_lt_cons _ _), fun m _ _ α acts => ?_⟩
  refine (readPrimary_die _).trans ?_
  simp [hgives m α acts, Phrase.tree, Actions.fold]

/-! ## 5. Tails -/

theorem Tail.readable_suffix (o : Op) : (Tail.suffix o).Readable (.suffix o) := by
  intro depth tokens rest _ hspells _ left
  obtain rfl := spells_nil_iff.mp hspells
  refine ⟨Nat.lt_succ_self _, fun m _ _ α acts => ?_⟩
  simp [extensionWork, readExtension, Tail.onto, Actions.fold]

theorem Tail.readable_explode {p : Phrase} (hp : p.Readable 0) :
    (Tail.explode p).Readable .explode := by
  intro depth tokens rest hnest hspells _ left
  obtain ⟨mid, hinner, hclose⟩ := spells_append_iff.mp hspells
  obtain ⟨_, rfl, hnil⟩ := (spells_cons_iff (by decide)).mp hclose
  obtain rfl := spells_nil_iff.mp hnil
  obtain ⟨h, hgives⟩ := hp.gives hnest hinner (fun r _ => stops_op rfl r _) (stops_op rfl 0 _)
  refine ⟨Nat.lt_succ_of_lt (Nat.lt_trans (weight_lt_cons _ _) h), fun m _ _ α acts => ?_⟩
  simp [extensionWork, readExtension, hgives m α acts, passOver_self, Tail.onto, Actions.fold]

theorem Tail.readable_index {p : Phrase} (hp : p.Readable 0) :
    (Tail.index p).Readable .index := by
  intro depth tokens rest hnest hspells _ left
  obtain ⟨mid, hinner, hclose⟩ := spells_append_iff.mp hspells
  obtain ⟨_, rfl, hnil⟩ := (spells_cons_iff (by decide)).mp hclose
  obtain rfl := spells_nil_iff.mp hnil
  obtain ⟨h, hgives⟩ := hp.gives hnest hinner (fun r _ => stops_op rfl r _) (stops_op rfl 0 _)
  refine ⟨Nat.lt_succ_of_lt (Nat.lt_trans (weight_lt_cons _ _) h), fun m _ _ α acts => ?_⟩
  simp [extensionWork, readExtension, hgives m α acts, passOver_self, Tail.onto, Actions.fold]

theorem Tail.readable_binary {o : Op} {l r : Nat} {p : Phrase}
    (ho : o.binaryPowers? = some (l, r)) (hp : p.Readable r) :
    (Tail.binary o p).Readable (.binary o l r) := by
  intro depth tokens rest hnest hspells hseals left
  have hr : Stops r rest := hseals r (by simp [Tail.openPowers, ho])
  have hp' : p.Seals rest := fun s hs => hseals s (by simp [Tail.openPowers, hs])
  obtain ⟨h, hgives⟩ := hp.gives hnest hspells hp' hr
  refine ⟨Nat.lt_succ_of_lt h, fun m _ _ α acts => ?_⟩
  simp [extensionWork, readExtension, hgives m α acts, Tail.onto, Actions.fold]

theorem Tail.readable_dice {p : Phrase} (hp : p.Readable sidesPower) :
    (Tail.dice p).Readable .dice := by
  intro depth tokens rest hnest hspells hseals left
  have hr : Stops sidesPower rest := hseals _ (by simp [Tail.openPowers])
  have hp' : p.Seals rest := fun s hs => hseals s (by simp [Tail.openPowers, hs])
  obtain ⟨h, hgives⟩ := hp.gives hnest hspells hp' hr
  refine ⟨Nat.lt_succ_of_lt h, fun m _ _ α acts => ?_⟩
  simp [extensionWork, readExtension, hgives m α acts, Tail.onto, Actions.fold]

theorem Tail.readable_keep {k : Keep} {word : String} {p : Phrase}
    (hk : Keep.ofWord? word = some k) (hp : p.Readable keepPower) :
    (Tail.keep word p).Readable (.keep k) := by
  intro depth tokens rest hnest hspells hseals left
  have hr : Stops keepPower rest := hseals _ (by simp [Tail.openPowers])
  have hp' : p.Seals rest := fun s hs => hseals s (by simp [Tail.openPowers, hs])
  obtain ⟨h, hgives⟩ := hp.gives hnest hspells hp' hr
  refine ⟨Nat.lt_succ_of_lt h, fun m _ _ α acts => ?_⟩
  simp [extensionWork, readExtension, hgives m α acts, Tail.onto, Actions.fold, hk]

/-- A readable phrase with a readable tail: one turn of the loop. -/
theorem Phrase.readable_extended {left : Phrase} {tail : Tail} {e : Extension} {power : Nat}
    (hleft : left.Readable power) (htail : tail.Readable e) (hfits : Tail.Fits e tail)
    (he : power ≤ e.power) (hopen : ∀ r ∈ left.openPowers, e.power < r) :
    (Phrase.extended left tail).Readable power := by
  intro depth tokens rest hnest hspells hseals h m _ _ α acts
  obtain ⟨hnest₁, hnest₂⟩ := Nat.max_le.mp hnest
  obtain ⟨mid, hwords, hmid⟩ := spells_append_iff.mp hspells
  have hstart := hfits.extension?_start
  obtain ⟨ts, rfl, hbody⟩ := (spells_cons_iff hfits.start_ne).mp hmid
  have hsealed : left.Seals (tail.start :: ts) := fun r hr =>
    (stops_cons_of_extension ts hstart).mpr (hopen r hr)
  have hlt := left.weight_lt hwords
  obtain ⟨_, hstep⟩ := extensionsWork_step hlt hstart he
    (htail (Nat.le_of_succ_le_succ hnest₂) hbody hseals left.tree)
  rw [hleft hnest₁ hwords hsealed hlt m α acts, hstep m α acts]
  rfl

/-! ## 6. Every phrase -/

mutual

/-- **Every phrase is readable.** -/
theorem Phrase.Fits.readable {p : Phrase} {power : Nat} : p.Fits power → p.Readable power
  | .literal ht => Phrase.readable_literal ht power
  | .group hp => Phrase.readable_group hp.readable power
  | .emptyArray => Phrase.readable_emptyArray power
  | .array hfirst hmore =>
    Phrase.readable_array _ hfirst hmore hfirst.readable (fun p hp => (hmore p hp).readable) power
  | .unary ho hp => Phrase.readable_unary ho hp.readable power
  | .die hp => Phrase.readable_die hp.readable power
  | .extended hleft htail he hopen =>
    Phrase.readable_extended hleft.readable htail.readable htail he hopen

theorem Tail.Fits.readable {tail : Tail} {e : Extension} : Tail.Fits e tail → tail.Readable e
  | .suffix _ => Tail.readable_suffix _
  | .explode hp => Tail.readable_explode hp.readable
  | .index hp => Tail.readable_index hp.readable
  | .binary ho hp => Tail.readable_binary ho hp.readable
  | .dice hp => Tail.readable_dice hp.readable
  | .keep hk hp => Tail.readable_keep hk hp.readable

end

/-- **The reader is complete**: at the words of a phrase it reads the phrase, if what follows does
not extend it. -/
theorem Phrase.ReadAs.gives {p : Phrase} {depth power : Nat} {tokens rest : List Token}
    (h : p.ReadAs depth power tokens rest) :
    Work.Gives (fun m _ α acts => operandReaders depth m α acts power tokens) p.tree rest :=
  Phrase.Readable.gives h.fits.readable h.nesting_le h.spells h.seals h.stops

end DiceNotation
