/-
# Exploding on the greatest faces

The suffix `!` adds one trigger, the first of the greatest faces.  A roll goes on when it shows what
equals a trigger, and where the faces are of one depth that is every face that no face is greater
than: characters and their code points, numbers that are the same to six places, and what is not a
number where a die has nothing else (`Value.equiv_greatest_iff`).

How a pool rolls depends on its triggers through the faces alone that they set off
(`Pool.roll_withTriggers`).  So triggers may be added again, and in any order.
-/
import DiceNotation.Proofs.Evaluation.SoundPools
import DiceNotation.Proofs.Value.Stability

namespace DiceNotation

/-! ## 1. The greatest of some values -/

namespace Value

theorem greatest_mem (best : Value) (others : List Value) :
    greatest best others ∈ best :: others := by
  induction others generalizing best with
  | nil => exact List.mem_cons_self
  | cons v others ih =>
    unfold greatest
    rw [List.foldl_cons]
    rcases List.mem_cons.mp (ih (if v.compare best == .gt then v else best)) with heq | hmem
    · change greatest _ others ∈ _
      rw [heq]
      split <;> simp
    · exact List.mem_cons_of_mem _ (List.mem_cons_of_mem _ hmem)

section OneDepth

variable {n : Nat} {u v w : Value}

theorem isLE_refl_of_hasDepth (hv : v.HasDepth n) : (v.compare v).isLE = true := by
  have hswap := compare_swap_of_hasDepth hv hv
  cases hcompare : v.compare v with
  | gt => exact absurd (hcompare.symm.trans (hswap.trans (congrArg Ordering.swap hcompare))) nofun
  | _ => rfl

theorem isLE_trans_of_hasDepth (hu : u.HasDepth n) (hv : v.HasDepth n) (hw : w.HasDepth n)
    (huv : (u.compare v).isLE = true) (hvw : (v.compare w).isLE = true) :
    (u.compare w).isLE = true :=
  (transCmp_hasDepth n).isLE_trans (a := ⟨u, hu⟩) (b := ⟨v, hv⟩) (c := ⟨w, hw⟩) huv hvw

/-- Values of one depth are at most as great as the greatest of them. -/
theorem isLE_greatest {best : Value} {others : List Value}
    (hdepth : ∀ v ∈ best :: others, v.HasDepth n) :
    ∀ v ∈ best :: others, (v.compare (greatest best others)).isLE = true := by
  induction others generalizing best with
  | nil =>
    intro v hv
    obtain rfl := List.mem_singleton.mp hv
    exact isLE_refl_of_hasDepth (hdepth v hv)
  | cons w others ih =>
    obtain ⟨hbest, hw, hothers⟩ := by simpa only [List.forall_mem_cons] using hdepth
    change ∀ v ∈ best :: w :: others,
      (v.compare (greatest (if w.compare best == .gt then w else best) others)).isLE = true
    -- of the first two, the one that is taken on is at least as great as either
    generalize htaken : (if w.compare best == .gt then w else best) = taken
    have hpair : taken.HasDepth n ∧ (best.compare taken).isLE = true ∧
        (w.compare taken).isLE = true := by
      subst htaken
      split
      · next hgreater =>
        refine ⟨hw, ?_, isLE_refl_of_hasDepth hw⟩
        rw [compare_swap_of_hasDepth hbest hw, beq_iff_eq.mp hgreater]
        rfl
      · next hnot =>
        exact ⟨hbest, isLE_refl_of_hasDepth hbest,
          Ordering.isLE_iff_ne_gt.mpr fun hgreater => hnot (beq_iff_eq.mpr hgreater)⟩
    obtain ⟨htaken, hbest_le, hw_le⟩ := hpair
    have hrest := List.forall_mem_cons.mpr ⟨htaken, hothers⟩
    have htop := hrest _ (greatest_mem taken others)
    have htaken_le := ih hrest taken List.mem_cons_self
    simp only [List.forall_mem_cons]
    exact ⟨isLE_trans_of_hasDepth hbest htaken htop hbest_le htaken_le,
      isLE_trans_of_hasDepth hw htaken htop hw_le htaken_le,
      fun v hv => ih hrest v (List.mem_cons_of_mem _ hv)⟩

/-- **Of values of one depth, those that equal the greatest are those that none is greater
than.** -/
theorem equiv_greatest_iff {best : Value} {others : List Value}
    (hdepth : ∀ v ∈ best :: others, v.HasDepth n) (hv : v ∈ best :: others) :
    v.equiv (greatest best others) = true ↔ ∀ w ∈ best :: others, w.compare v ≠ .gt := by
  have hmem := greatest_mem best others
  have hswap := compare_swap_of_hasDepth (hdepth _ hmem) (hdepth v hv)
  have hle := isLE_greatest hdepth
  rw [equiv, beq_iff_eq]
  constructor
  · intro heq w hw
    have hback : ((greatest best others).compare v).isLE = true := by
      rw [hswap, heq]
      rfl
    exact Ordering.isLE_iff_ne_gt.mp
      (isLE_trans_of_hasDepth (hdepth w hw) (hdepth _ hmem) (hdepth v hv) (hle w hw) hback)
  · intro hnone
    have hnot := hnone _ hmem
    have hup := Ordering.isLE_iff_ne_gt.mp (hle v hv)
    rw [hswap] at hnot
    cases hcompare : v.compare (greatest best others) with
    | eq => rfl
    | gt => exact absurd hcompare hup
    | lt => exact absurd (congrArg Ordering.swap hcompare) hnot

end OneDepth

end Value

/-! ## 2. What triggers do to a roll -/

namespace Pool

theorem triggered_append (ts ts' : List Value) (face : Value) :
    triggered (ts ++ ts') face = (triggered ts face || triggered ts' face) :=
  List.any_append

/-- Added triggers set off what was set off before, and what they set off themselves. -/
theorem triggered_explodeOn (p : Pool) (faces : List Value) (face : Value) :
    triggered (p.explodeOn faces).triggers face =
      (triggered p.triggers face || triggered faces face) :=
  triggered_append p.triggers faces face

section SameTriggers

variable {p : Pool} {ts : List Value}
  (h : ∀ face ∈ p.sides, triggered ts face = triggered p.triggers face)

include h

theorem rollOn_withTriggers (pos : 0 < p.sides.size) (fuel : Nat) (total : Option Value) :
    rollOn p.sides pos ts fuel total = rollOn p.sides pos p.triggers fuel total := by
  induction fuel generalizing total with
  | zero => rfl
  | succ fuel ih =>
    rw [rollOn, rollOn]
    refine bind_congr fun i => bind_congr fun total => ?_
    simp only [h _ (Array.getElem_mem i.isLt), Fin.getElem_fin, ih]

theorem rollDie_withTriggers : ({ p with triggers := ts } : Pool).rollDie = p.rollDie := by
  unfold rollDie
  split
  · next pos => exact bind_congr fun t => rollOn_withTriggers h pos t.source.remaining none
  · rfl

theorem rollSum_withTriggers (n : Nat) (total : Option Value) :
    ({ p with triggers := ts } : Pool).rollSum n total = p.rollSum n total := by
  induction n generalizing total with
  | zero => rfl
  | succ n ih =>
    rw [rollSum, rollSum, rollDie_withTriggers h]
    exact bind_congr fun roll => bind_congr fun total => bind_congr fun _ => ih (some total)

theorem rollEach_withTriggers (n : Nat) (done : List Value) :
    ({ p with triggers := ts } : Pool).rollEach n done = p.rollEach n done := by
  induction n generalizing done with
  | zero => rfl
  | succ n ih =>
    rw [rollEach, rollEach, rollDie_withTriggers h]
    exact bind_congr fun roll => bind_congr fun _ => ih (roll :: done)

/-- **How a pool rolls depends on its triggers through the faces alone that they set off.** -/
theorem roll_withTriggers : ({ p with triggers := ts } : Pool).roll = p.roll := by
  unfold roll
  rw [rollSum_withTriggers h, rollEach_withTriggers h]
  rfl

end SameTriggers

/-- Triggers may be added again. -/
theorem roll_explodeOn_twice (p : Pool) (faces : List Value) :
    ((p.explodeOn faces).explodeOn faces).roll = (p.explodeOn faces).roll := by
  refine roll_withTriggers (p := p.explodeOn faces) fun face _ => ?_
  rw [triggered_append, triggered_explodeOn, Bool.or_assoc, Bool.or_self]

/-- Triggers may be added in any order. -/
theorem roll_explodeOn_comm (p : Pool) (faces faces' : List Value) :
    ((p.explodeOn faces).explodeOn faces').roll = ((p.explodeOn faces').explodeOn faces).roll := by
  refine roll_withTriggers (p := (p.explodeOn faces').explodeOn faces) fun face _ => ?_
  rw [triggered_append, triggered_explodeOn, triggered_explodeOn, triggered_explodeOn]
  exact Bool.or_right_comm _ _ _

/-! ## 3. The suffix -/

/-- Behind `!` a die goes on where it did, and on each face that no face is greater than. -/
theorem triggered_explodeOnGreatest {n : Nat} {p : Pool}
    (hdepth : ∀ face ∈ p.sides, face.HasDepth n) {face : Value} (hface : face ∈ p.sides) :
    triggered p.explodeOnGreatest.triggers face = true ↔
      triggered p.triggers face = true ∨ ∀ other ∈ p.sides, other.compare face ≠ .gt := by
  simp only [← Array.mem_toList_iff] at hdepth hface ⊢
  unfold explodeOnGreatest
  cases hsides : p.sides.toList with
  | nil =>
    rw [hsides] at hface
    exact absurd hface List.not_mem_nil
  | cons best others =>
    rw [hsides] at hdepth hface
    have hone : triggered [Value.greatest best others] face =
        face.equiv (Value.greatest best others) := Bool.or_false _
    rw [triggered_explodeOn, Bool.or_eq_true, hone, Value.equiv_greatest_iff hdepth hface]

theorem roll_explodeOnGreatest_twice (p : Pool) :
    p.explodeOnGreatest.explodeOnGreatest.roll = p.explodeOnGreatest.roll := by
  obtain ⟨faces, h⟩ := p.exists_explodeOnGreatest_eq
  rw [h p rfl, h (p.explodeOn faces) rfl, p.roll_explodeOn_twice]

theorem roll_explodeOnGreatest_comm (p : Pool) (faces : List Value) :
    (p.explodeOnGreatest.explodeOn faces).roll = (p.explodeOn faces).explodeOnGreatest.roll := by
  obtain ⟨greatest, h⟩ := p.exists_explodeOnGreatest_eq
  rw [h p rfl, h (p.explodeOn faces) rfl, p.roll_explodeOn_comm]

/-- Two actions fail alike, or give pools that roll alike. -/
def RollAlike (x y : Evaluating Operand) : Prop :=
  ∀ s, (∃ f s', x s = .error f s' ∧ y s = .error f s') ∨
    ∃ (p q : Pool) (s' : Session), x s = .ok (.pool p) s' ∧ y s = .ok (.pool q) s' ∧
      p.roll = q.roll

/-- **The suffix `!` explodes on the greatest faces, and on no others.**  Of a pool whose faces are
of one depth, such as scalars of any kind, it makes one with the same dice and range that explodes
on a face where the pool did, and where no face is greater.  It makes no difference to any roll
whether `!` is used again, and whether it stands in front of an explosion on other faces or
behind it. -/
theorem explodes_on_greatest {n : Nat} (p : Pool) (hdepth : ∀ face ∈ p.sides, face.HasDepth n) :
    ∃ q : Pool, (∀ s, Meaning.suffix (.pool p) .bang s = .ok (.pool q) s) ∧
      (q.num = p.num ∧ q.sides = p.sides ∧ q.lowest = p.lowest ∧ q.highest = p.highest) ∧
      (∀ face ∈ p.sides, triggered q.triggers face = true ↔
        triggered p.triggers face = true ∨ ∀ other ∈ p.sides, other.compare face ≠ .gt) ∧
      RollAlike (pure (.pool q)) (Meaning.suffix (.pool q) .bang) ∧
      ∀ faces : Operand, RollAlike (Meaning.explode (.pool q) faces)
        (Meaning.explode (.pool p) faces >>= fun x => Meaning.suffix x .bang) := by
  obtain ⟨hnum, hsides⟩ := p.dice_after .explodeOnGreatest
  have hrange := range_after (c := .explodeOnGreatest) rfl p
  refine ⟨p.explodeOnGreatest, Meaning.suffix_bang_pool p, ⟨hnum, hsides, hrange⟩,
    fun face hface => triggered_explodeOnGreatest hdepth hface, fun s => ?_, fun faces s => ?_⟩
  · exact .inr ⟨_, _, s, rfl, Meaning.suffix_bang_pool _ s, p.roll_explodeOnGreatest_twice.symm⟩
  cases hfaces : faces.forceAll s with
  | error f s' =>
    have hfails (q : Pool) : Meaning.explode (.pool q) faces s = .error f s' :=
      bind_of_eq_error hfaces
    exact .inl ⟨f, s', hfails _, bind_of_eq_error (hfails p)⟩
  | ok v s' =>
    have hexplode (q : Pool) : Meaning.explode (.pool q) faces s =
        .ok (.pool (q.explodeOn (Meaning.triggersOf v))) s' := bind_of_eq_ok hfaces
    refine .inr ⟨_, _, s', hexplode _, ?_, p.roll_explodeOnGreatest_comm _⟩
    rw [bind_of_eq_ok (hexplode p), Meaning.suffix_bang_pool]

/-- A die with a character, its code point but for the seventh place, a smaller number, and what is
not a number. -/
theorem explodes_on_greatest_code_point :
    let p := ofSides 2 #[.int 1, .char 'a', .real 97.0000001, .real (0 / 0)]
    (∀ face ∈ p.sides, face.HasDepth 0) ∧
      ∃ q : Pool, (∀ s, Meaning.suffix (.pool p) .bang s = .ok (.pool q) s) ∧
        ∀ face ∈ p.sides, triggered q.triggers face = true ↔
          face = .char 'a' ∨ face = .real 97.0000001 := by
  intro p
  have hdepth : ∀ face ∈ p.sides, face.HasDepth 0 := by
    intro face hface
    have hmem : face = .int 1 ∨ face = .char 'a' ∨ face = .real 97.0000001 ∨
        face = .real (0 / 0) := by simpa [p, ofSides] using hface
    rcases hmem with rfl | rfl | rfl | rfl <;> exact .scalar _
  have hgreatest : ∀ face ∈ p.sides,
      (triggered p.triggers face = true ∨ ∀ other ∈ p.sides, other.compare face ≠ .gt) ↔
        face = .char 'a' ∨ face = .real 97.0000001 := by decide +kernel
  obtain ⟨q, hsuffix, -, htriggered, -⟩ := explodes_on_greatest p hdepth
  exact ⟨hdepth, q, hsuffix, fun face hface =>
    (htriggered face hface).trans (hgreatest face hface)⟩

end Pool

end DiceNotation
