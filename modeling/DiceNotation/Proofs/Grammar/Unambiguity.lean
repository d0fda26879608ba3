/-
# Tokens are written by one phrase at most

The grammar is unambiguous: two phrases of the same least power that stand at the front of the same
tokens, so that nothing behind them extends them, are the same phrase and end at the same place
(`Phrase.Stands.unique`).  Nothing here speaks of the reader.

A phrase is taken apart from the left, as it is written: a **primary**, which is a phrase without a
tail, and then one tail after the other (`Grows`).  The first tokens say which primary it is, the
token behind an operand says whether it has a tail and which, and what stands inside a primary or a
tail is written by fewer tokens, where the induction applies.
-/
import DiceNotation.Proofs.Grammar.Phrase

namespace DiceNotation

/-! ## 1. Phrases from the left -/

/-- `Grows m p mid q rest`: tails written by the tokens from `mid` to `rest` make the phrase `q` of
its left end `p`, within an operand of least power `m`. -/
inductive Grows (m : Nat) : Phrase → List Token → Phrase → List Token → Prop
  | refl {p : Phrase} {rest : List Token} : Grows m p rest p rest
  | tail {p q : Phrase} {tail : Tail} {e : Extension} {body mid rest : List Token} :
      tail.Fits e → m ≤ e.power → (∀ r ∈ p.openPowers, e.power < r) →
      Spells tail.body body mid → Grows m (.extended p tail) mid q rest →
      Grows m p (tail.start :: body) q rest

theorem Grows.trans {m : Nat} {p q r : Phrase} {ts₁ ts₂ ts₃ : List Token}
    (h₁ : Grows m p ts₁ q ts₂) (h₂ : Grows m q ts₂ r ts₃) : Grows m p ts₁ r ts₃ := by
  induction h₁ with
  | refl => exact h₂
  | tail htail he hopen hbody _ ih => exact .tail htail he hopen hbody (ih h₂)

/-- The kinds of phrases without a tail. -/
inductive PrimaryKind where
  | literal
  | group
  | emptyArray
  | array
  | unary
  | die

/-- The kind of a phrase, if it has no tail. -/
def Phrase.primaryKind? : Phrase → Option PrimaryKind
  | .literal _ => some .literal
  | .group _ => some .group
  | .emptyArray => some .emptyArray
  | .array _ _ _ => some .array
  | .unary _ _ => some .unary
  | .die _ => some .die
  | .extended _ _ => none

/-- The kind of the primary that some tokens begin with. -/
def primaryKind : List Token → PrimaryKind
  | .op .openParen :: _ => .group
  | .op .openBracket :: .op .closeBracket :: _ => .emptyArray
  | .op .openBracket :: _ => .array
  | .op _ :: _ => .unary
  | .word name :: _ => if name = dieWord then .die else .literal
  | _ => .literal

/-- The first tokens of a phrase without a tail say of which kind it is. -/
theorem Phrase.Fits.primaryKind_eq {p : Phrase} {m : Nat} (h : p.Fits m) {tokens rest : List Token}
    (hspells : Spells p.words tokens rest) :
    p.primaryKind? = none ∨ p.primaryKind? = some (primaryKind tokens) := by
  cases h with
  | @literal _ t ht =>
    right
    cases hspells with
    | word _ => cases t <;> simp_all [primaryKind, Phrase.primaryKind?, Token.isLiteral]
    | half _ => simp [Token.isLiteral] at ht
  | group _ =>
    obtain ⟨_, rfl, -⟩ := (spells_cons_iff (by decide)).mp hspells
    exact .inr rfl
  | emptyArray =>
    obtain ⟨_, rfl, hclose⟩ := (spells_cons_iff (by decide)).mp hspells
    obtain ⟨_, rfl, -⟩ := (spells_cons_iff (by decide)).mp hclose
    exact .inr rfl
  | array hfirst _ =>
    obtain ⟨ts, rfl, hwords⟩ := (spells_cons_iff (by decide)).mp hspells
    have hne := hfirst.ne_closeBracket hwords
    right
    simp only [Phrase.primaryKind?, Option.some.injEq]
    rw [primaryKind]
    exact fun r hr => hne r hr
  | @unary _ _ o _ ho _ =>
    have hne : Token.op o ≠ .op .closeParen := by
      rintro ⟨⟩
      simp [Op.unaryPower?] at ho
    obtain ⟨_, rfl, -⟩ := (spells_cons_iff hne).mp hspells
    cases o <;> simp_all [primaryKind, Phrase.primaryKind?, Op.unaryPower?]
  | die _ =>
    obtain ⟨_, rfl, -⟩ := (spells_cons_iff (by decide)).mp hspells
    exact .inr (by simp [Phrase.primaryKind?, primaryKind])
  | extended _ _ _ _ => exact .inl rfl

/-- Every phrase grows from a primary. -/
theorem Phrase.Fits.grows {q : Phrase} {m : Nat} (h : q.Fits m) {tokens rest : List Token}
    (hspells : Spells q.words tokens rest) :
    ∃ (p : Phrase) (mid : List Token), p.primaryKind? = some (primaryKind tokens) ∧ p.Fits m ∧
      Spells p.words tokens mid ∧ Grows m p mid q rest := by
  rcases h.primaryKind_eq hspells with hnone | hkind
  · match h with
    | @Fits.extended _ _ tail _ hleft htail he hopen =>
      obtain ⟨mid, hwords, htokens⟩ := spells_append_iff.mp hspells
      obtain ⟨body, rfl, hbody⟩ := (spells_cons_iff htail.start_ne).mp htokens
      obtain ⟨p, start, hkind, hp, hstart, hgrows⟩ := Phrase.Fits.grows hleft hwords
      exact ⟨p, start, hkind, hp, hstart, hgrows.trans (.tail htail he hopen hbody .refl)⟩
  · exact ⟨q, rest, hkind, h, hspells, .refl⟩

/-- A tail extends no operand that is open in front of it, so that the left end is sealed if the
whole is. -/
theorem Grows.seals {m : Nat} {p q : Phrase} {mid rest : List Token} (h : Grows m p mid q rest)
    (hq : q.Seals rest) : p.Seals mid := by
  cases h with
  | refl => exact hq
  | tail htail _ hopen _ _ =>
    exact fun r hr => (stops_cons_of_extension _ htail.extension?_start).mpr (hopen r hr)

/-! ## 2. Inside brackets and behind operators

From here on the tokens in question are those within a larger phrase: below some weight all of them
are written in one way only. -/

/-- Tokens that weigh less than `bound` are written by one phrase at most. -/
def UniqueBelow (bound : Nat) : Prop :=
  ∀ {power : Nat} {p q : Phrase} {tokens rest rest' : List Token}, weight tokens < bound →
    p.Stands power tokens rest → q.Stands power tokens rest' → p = q ∧ rest = rest'

section Parts

variable {bound : Nat} (unique : UniqueBelow bound)

include unique

/-- An operand up to a bracket. -/
theorem UniqueBelow.enclosed {p q : Phrase} {o : Op} (ho : o.extension? = none)
    (hne : o ≠ .closeParen) {tokens rest rest' : List Token} (hlt : weight tokens < bound)
    (hp : p.Fits 0) (hq : q.Fits 0) (hpspells : Spells (p.words ++ [.op o]) tokens rest)
    (hqspells : Spells (q.words ++ [.op o]) tokens rest') : p = q ∧ rest = rest' := by
  have stands : ∀ {p : Phrase} {rest : List Token}, p.Fits 0 →
      Spells (p.words ++ [.op o]) tokens rest → p.Stands 0 tokens (.op o :: rest) := by
    intro p rest hp hspells
    obtain ⟨mid, hwords, hclose⟩ := spells_append_iff.mp hspells
    obtain ⟨_, rfl, hnil⟩ := (spells_cons_iff (by simpa using hne)).mp hclose
    obtain rfl := spells_nil_iff.mp hnil
    exact ⟨hp, hwords, stops_op ho 0 _, fun r _ => stops_op ho r _⟩
  obtain ⟨rfl, heq⟩ := unique hlt (stands hp hpspells) (stands hq hqspells)
  exact ⟨rfl, (List.cons.inj heq).2⟩

/-- An operand of an operator of right power `r`. -/
theorem UniqueBelow.operand {p q : Phrase} {r : Nat} {tokens rest rest' : List Token}
    (hlt : weight tokens < bound) (hp : p.Fits r) (hq : q.Fits r)
    (hpspells : Spells p.words tokens rest) (hqspells : Spells q.words tokens rest')
    (hpseals : ∀ s ∈ r :: p.openPowers, Stops s rest)
    (hqseals : ∀ s ∈ r :: q.openPowers, Stops s rest') : p = q ∧ rest = rest' := by
  obtain ⟨hpstops, hpseals⟩ := List.forall_mem_cons.mp hpseals
  obtain ⟨hqstops, hqseals⟩ := List.forall_mem_cons.mp hqseals
  exact unique hlt ⟨hp, hpspells, hpstops, hpseals⟩ ⟨hq, hqspells, hqstops, hqseals⟩

/-- Tails that the same token starts and that the same tokens write. -/
theorem UniqueBelow.tail {tail tail' : Tail} {e : Extension} {tokens rest rest' : List Token}
    (hlt : weight tokens < bound) (htail : tail.Fits e) (htail' : tail'.Fits e)
    (hstart : tail.start = tail'.start) (hspells : Spells tail.body tokens rest)
    (hspells' : Spells tail'.body tokens rest') (hseals : ∀ r ∈ tail.openPowers, Stops r rest)
    (hseals' : ∀ r ∈ tail'.openPowers, Stops r rest') : tail = tail' ∧ rest = rest' := by
  cases htail with
  | suffix _ =>
    cases htail'
    exact ⟨rfl, (spells_nil_iff.mp hspells).symm.trans (spells_nil_iff.mp hspells')⟩
  | explode hp =>
    cases htail' with
    | explode hq =>
      obtain ⟨rfl, hrest⟩ := unique.enclosed rfl (by decide) hlt hp hq hspells hspells'
      exact ⟨rfl, hrest⟩
  | index hp =>
    cases htail' with
    | index hq =>
      obtain ⟨rfl, hrest⟩ := unique.enclosed rfl (by decide) hlt hp hq hspells hspells'
      exact ⟨rfl, hrest⟩
  | binary ho hp =>
    cases htail' with
    | binary _ hq =>
      simp only [Tail.openPowers, ho] at hseals hseals'
      obtain ⟨rfl, hrest⟩ := unique.operand hlt hp hq hspells hspells' hseals hseals'
      exact ⟨rfl, hrest⟩
  | dice hp =>
    cases htail' with
    | dice hq =>
      obtain ⟨rfl, hrest⟩ := unique.operand hlt hp hq hspells hspells' hseals hseals'
      exact ⟨rfl, hrest⟩
  | keep _ hp =>
    cases htail' with
    | keep _ hq =>
      obtain rfl := Token.word.inj hstart
      obtain ⟨rfl, hrest⟩ := unique.operand hlt hp hq hspells hspells' hseals hseals'
      exact ⟨rfl, hrest⟩

/-- Elements up to the closing bracket.  The tokens say at each element whether it is the last one
and whether a comma stands behind it. -/
theorem UniqueBelow.elements {comma comma' : Bool} :
    ∀ {more more' : List Phrase} {first first' : Phrase} {tokens rest rest' : List Token},
      weight tokens < bound → first.Fits elementPower → first'.Fits elementPower →
      (∀ p ∈ more, p.Fits elementPower) → (∀ p ∈ more', p.Fits elementPower) →
      Spells (first.words ++ (furtherWords more ++ arrayClose comma)) tokens rest →
      Spells (first'.words ++ (furtherWords more' ++ arrayClose comma')) tokens rest' →
      first = first' ∧ more = more' ∧ comma = comma' ∧ rest = rest' := by
  intro more
  induction more with
  | nil =>
    intro more' first first' tokens rest rest' hlt hfirst hfirst' hmore hmore' hspells hspells'
    obtain ⟨mid, hwords, hbehind⟩ := spells_append_iff.mp hspells
    obtain ⟨mid', hwords', hbehind'⟩ := spells_append_iff.mp hspells'
    obtain ⟨rfl, rfl⟩ := unique hlt (hfirst.stands_element hmore hwords hbehind)
      (hfirst'.stands_element hmore' hwords' hbehind')
    rcases spells_behind_element hmore hbehind with
      ⟨-, rfl, rfl⟩ | ⟨-, rfl, rfl⟩ | ⟨_, _, _, h, -⟩
    · rcases spells_behind_element hmore' hbehind' with
        ⟨rfl, rfl, h⟩ | ⟨-, -, h⟩ | ⟨_, _, _, -, h, -⟩
      · exact ⟨rfl, rfl, rfl, (List.cons.inj h).2⟩
      · simp at h
      · simp at h
    · rcases spells_behind_element hmore' hbehind' with
        ⟨-, -, h⟩ | ⟨rfl, rfl, h⟩ | ⟨_, _, _, -, h, hne, -⟩
      · simp at h
      · simp only [List.cons.injEq, true_and] at h
        exact ⟨rfl, rfl, rfl, h⟩
      · exact absurd (List.cons.inj h).2.symm (hne _)
    · simp at h
  | cons p more ih =>
    intro more' first first' tokens rest rest' hlt hfirst hfirst' hmore hmore' hspells hspells'
    obtain ⟨mid, hwords, hbehind⟩ := spells_append_iff.mp hspells
    obtain ⟨mid', hwords', hbehind'⟩ := spells_append_iff.mp hspells'
    obtain ⟨rfl, rfl⟩ := unique hlt (hfirst.stands_element hmore hwords hbehind)
      (hfirst'.stands_element hmore' hwords' hbehind')
    have hless := first.weight_lt hwords
    rcases spells_behind_element hmore hbehind with
      ⟨h, -⟩ | ⟨h, -⟩ | ⟨_, _, body, h, rfl, hne, hbody⟩
    · simp at h
    · simp at h
    · obtain ⟨rfl, rfl⟩ := List.cons.inj h
      rcases spells_behind_element hmore' hbehind' with
        ⟨-, -, h⟩ | ⟨-, -, h⟩ | ⟨q, _, _, rfl, h, -, hbody'⟩
      · simp at h
      · exact absurd (List.cons.inj h).2 (hne _)
      · obtain rfl := (List.cons.inj h).2
        obtain ⟨hp, hmore⟩ := List.forall_mem_cons.mp hmore
        obtain ⟨hq, hmore'⟩ := List.forall_mem_cons.mp hmore'
        have hlt' : weight body < bound :=
          Nat.lt_trans (weight_lt_cons _ body) (Nat.lt_trans hless hlt)
        obtain ⟨rfl, rfl, rfl, rfl⟩ := ih hlt' hp hq hmore hmore' hbody hbody'
        exact ⟨rfl, rfl, rfl, rfl⟩

/-- An operand up to the end of a group. -/
theorem UniqueBelow.group {p q : Phrase} {tokens rest rest' : List Token}
    (hlt : weight tokens < bound) (hp : p.Fits 0) (hq : q.Fits 0)
    (hspells : Spells (p.words ++ [.op .closeParen]) tokens rest)
    (hspells' : Spells (q.words ++ [.op .closeParen]) tokens rest') : p = q ∧ rest = rest' := by
  have stands : ∀ {p : Phrase} {mid rest : List Token}, p.Fits 0 → Spells p.words tokens mid →
      Spells [.op .closeParen] mid rest → p.Stands 0 tokens mid := by
    intro p mid rest hp hwords hclose
    rcases spells_closeParen_iff.mp hclose with rfl | ⟨more, rfl, -⟩
    · exact ⟨hp, hwords, stops_op rfl 0 _, fun r _ => stops_op rfl r _⟩
    · exact ⟨hp, hwords, stops_op rfl 0 _, fun r _ => stops_op rfl r _⟩
  obtain ⟨mid, hwords, hclose⟩ := spells_append_iff.mp hspells
  obtain ⟨mid', hwords', hclose'⟩ := spells_append_iff.mp hspells'
  obtain ⟨rfl, rfl⟩ := unique hlt (stands hp hwords hclose) (stands hq hwords' hclose')
  refine ⟨rfl, ?_⟩
  rcases spells_closeParen_iff.mp hclose with rfl | ⟨more, rfl, rfl⟩
  · rcases spells_closeParen_iff.mp hclose' with h | ⟨_, h, -⟩
    · exact (List.cons.inj h).2
    · simp at h
  · rcases spells_closeParen_iff.mp hclose' with h | ⟨_, h, rfl⟩
    · simp at h
    · rw [(List.cons.inj h).2]

/-- Phrases without a tail, of the kind that the tokens show. -/
theorem UniqueBelow.primary {p q : Phrase} {m : Nat} {t : Token} {tokens rest rest' : List Token}
    (hlt : weight tokens < bound) (hp : p.Fits m) (hq : q.Fits m)
    (hkind : p.primaryKind? = some (primaryKind (t :: tokens)))
    (hkind' : q.primaryKind? = some (primaryKind (t :: tokens)))
    (hspells : Spells p.words (t :: tokens) rest) (hspells' : Spells q.words (t :: tokens) rest')
    (hseals : p.Seals rest) (hseals' : q.Seals rest') : p = q ∧ rest = rest' := by
  have hsame := hkind.trans hkind'.symm
  cases hp with
  | extended _ _ _ _ => cases hkind
  | @literal _ t ht =>
    cases hq with
    | @literal _ t' ht' =>
      have hne : ∀ {t : Token}, t.isLiteral = true → t ≠ .op .closeParen := by
        rintro _ ht rfl
        simp [Token.isLiteral] at ht
      obtain ⟨rfl, hnil⟩ := (spells_cons_cons_iff (hne ht)).mp hspells
      obtain ⟨rfl, hnil'⟩ := (spells_cons_cons_iff (hne ht')).mp hspells'
      exact ⟨rfl, (spells_nil_iff.mp hnil).symm.trans (spells_nil_iff.mp hnil')⟩
    | _ => cases hsame
  | group hp =>
    cases hq with
    | group hq =>
      obtain ⟨rfl, hwords⟩ := (spells_cons_cons_iff (by decide)).mp hspells
      obtain ⟨-, hwords'⟩ := (spells_cons_cons_iff (by decide)).mp hspells'
      obtain ⟨rfl, hrest⟩ := unique.group hlt hp hq hwords hwords'
      exact ⟨rfl, hrest⟩
    | _ => cases hsame
  | emptyArray =>
    cases hq with
    | emptyArray =>
      obtain ⟨rfl, hclose⟩ := (spells_cons_cons_iff (by decide)).mp hspells
      obtain ⟨-, hclose'⟩ := (spells_cons_cons_iff (by decide)).mp hspells'
      obtain ⟨_, rfl, hnil⟩ := (spells_cons_iff (by decide)).mp hclose
      obtain ⟨-, hnil'⟩ := (spells_cons_cons_iff (by decide)).mp hclose'
      exact ⟨rfl, (spells_nil_iff.mp hnil).symm.trans (spells_nil_iff.mp hnil')⟩
    | _ => cases hsame
  | array hfirst hmore =>
    cases hq with
    | array hfirst' hmore' =>
      obtain ⟨rfl, hwords⟩ := (spells_cons_cons_iff (by decide)).mp hspells
      obtain ⟨-, hwords'⟩ := (spells_cons_cons_iff (by decide)).mp hspells'
      obtain ⟨rfl, rfl, rfl, hrest⟩ :=
        unique.elements hlt hfirst hfirst' hmore hmore' hwords hwords'
      exact ⟨rfl, hrest⟩
    | _ => cases hsame
  | @unary _ r o _ ho hp =>
    cases hq with
    | @unary _ r' o' _ ho' hq =>
      have hne : ∀ {o : Op} {r : Nat}, o.unaryPower? = some r → Token.op o ≠ .op .closeParen := by
        rintro _ _ ho ⟨⟩
        simp [Op.unaryPower?] at ho
      obtain ⟨rfl, hwords⟩ := (spells_cons_cons_iff (hne ho)).mp hspells
      obtain ⟨ho₂, hwords'⟩ := (spells_cons_cons_iff (hne ho')).mp hspells'
      obtain rfl := Token.op.inj ho₂
      obtain rfl := Option.some.inj (ho.symm.trans ho')
      simp only [Phrase.Seals, Phrase.openPowers, ho] at hseals hseals'
      obtain ⟨rfl, hrest⟩ := unique.operand hlt hp hq hwords hwords' hseals hseals'
      exact ⟨rfl, hrest⟩
    | _ => cases hsame
  | die hp =>
    cases hq with
    | die hq =>
      obtain ⟨rfl, hwords⟩ := (spells_cons_cons_iff (by decide)).mp hspells
      obtain ⟨-, hwords'⟩ := (spells_cons_cons_iff (by decide)).mp hspells'
      obtain ⟨rfl, hrest⟩ := unique.operand hlt hp hq hwords hwords' hseals hseals'
      exact ⟨rfl, hrest⟩
    | _ => cases hsame

/-- Phrases that have grown from the same left end. -/
theorem UniqueBelow.grows {m : Nat} {p q q' : Phrase} {mid rest rest' : List Token}
    (hlt : weight mid < bound) (h : Grows m p mid q rest) (h' : Grows m p mid q' rest')
    (hstops : Stops m rest) (hstops' : Stops m rest') (hseals : q.Seals rest)
    (hseals' : q'.Seals rest') : q = q' ∧ rest = rest' := by
  induction h with
  | refl =>
    cases h' with
    | refl => exact ⟨rfl, rfl⟩
    | tail htail he _ _ _ =>
      have hlow := (stops_cons_of_extension _ htail.extension?_start).mp hstops
      exact absurd he (Nat.not_le.mpr hlow)
  | @tail p q tail e body mid rest htail he hopen hbody hgrows ih =>
    generalize hmid : tail.start :: body = start at h'
    cases h' with
    | refl =>
      subst hmid
      have hlow := (stops_cons_of_extension _ htail.extension?_start).mp hstops'
      exact absurd he (Nat.not_le.mpr hlow)
    | @tail _ _ tail' e' body' mid' _ htail' he' hopen' hbody' hgrows' =>
      obtain ⟨hstart, rfl⟩ := List.cons.inj hmid
      have hsame := htail.extension?_start.symm.trans
        ((congrArg Token.extension? hstart).trans htail'.extension?_start)
      obtain rfl := Option.some.inj hsame
      have hlt' : weight body < bound := Nat.lt_trans (weight_lt_cons _ body) hlt
      obtain ⟨rfl, rfl⟩ := unique.tail hlt' htail htail' hstart hbody hbody'
        (hgrows.seals hseals) (hgrows'.seals hseals')
      have hle := hbody.weight_le
      exact ih (by omega) hgrows' hstops hseals

end Parts

/-! ## 3. The grammar is unambiguous -/

/-- **The grammar is unambiguous**: at most one phrase stands at the front of some tokens. -/
theorem Phrase.Stands.unique {p q : Phrase} {power : Nat} {tokens rest rest' : List Token}
    (hp : p.Stands power tokens rest) (hq : q.Stands power tokens rest') :
    p = q ∧ rest = rest' := by
  have hunique : ∀ bound, UniqueBelow bound := by
    intro bound
    induction bound with
    | zero => exact fun hlt => absurd hlt (Nat.not_lt_zero _)
    | succ bound ih =>
      intro power p q tokens rest rest' hlt hp hq
      obtain ⟨p₀, mid, hkind, hfits, hwords, hgrows⟩ := hp.fits.grows hp.spells
      obtain ⟨q₀, mid', hkind', hfits', hwords', hgrows'⟩ := hq.fits.grows hq.spells
      match tokens with
      | [] => exact absurd (p₀.weight_lt hwords) (Nat.not_lt_zero _)
      | t :: tokens =>
        have hlt' : weight tokens < bound :=
          Nat.lt_of_lt_of_le (weight_lt_cons t tokens) (Nat.le_of_lt_succ hlt)
        obtain ⟨rfl, rfl⟩ := ih.primary hlt' hfits hfits' hkind hkind' hwords hwords'
          (hgrows.seals hp.seals) (hgrows'.seals hq.seals)
        have hmid : weight mid < bound :=
          Nat.lt_of_lt_of_le (p₀.weight_lt hwords) (Nat.le_of_lt_succ hlt)
        exact ih.grows hmid hgrows hgrows' hp.stops hq.stops hp.seals hq.seals
  exact hunique _ (Nat.lt_succ_self _) hp hq

end DiceNotation
