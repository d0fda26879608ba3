/-
# Dice that explode

On a tray with a list of rolls, a die that explodes takes its turn: as many rolls as show triggers,
and one more (`Pool.Turn`).  Every list of rolls begins with the turns of any number of dice, or it
ends within one of them (`Pool.exists_turns`).  In the first case rolling the pool takes just these
rolls, and adds up the faces of each turn and then the dice (`Pool.rollSum_turns`); in the other it
takes all rolls and ends there (`Pool.rollSum_unfinished`).

All of this is said of a tray on which no step is late.  There, what faces add up to and how many
steps that takes depend on the faces alone: `Value.total` and `Value.totalSteps` are what adding
them up has come to wherever it was paid for (`Value.total_of_sum_eq`).  If the first step is late,
it ends the work (`Pool.rollSum_halted`).
-/
import DiceNotation.Proofs.Rolling.Faults
import DiceNotation.Proofs.Rolling.NumberDice

namespace DiceNotation

variable {α : Type}

/-! ## 1. Adding up -/

/-- Adds some values to a total, from left to right. -/
def addAll (total : Option Value) (vs : List Value) : Metered Value :=
  match total with
  | none => Value.sum vs
  | some total => vs.foldlM Value.add total

theorem addAll_nil (total : Option Value) : addAll total [] = pure (total.getD (.int 0)) := by
  cases total <;> rfl

theorem addAll_cons (total : Option Value) (v : Value) (vs : List Value) :
    addAll total (v :: vs) = addTo total v >>= fun w => addAll (some w) vs := by
  cases total with
  | none =>
    rw [addTo, pure_bind]
    rfl
  | some total => exact List.foldlM_cons

namespace Value

/-- What some values add up to from left to right, while there is time. -/
def total (vs : List Value) : Value :=
  match sum vs {} with
  | .ok v _ => v
  | .error _ _ => .int 0

/-- The steps that it takes to add up some values. -/
def totalSteps (vs : List Value) : Nat :=
  match sum vs {} with
  | .ok _ b => b.steps
  | .error _ b => b.steps

theorem total_of_sum_eq {vs : List Value} {steps : Nat} {v : Value} (h : sum vs = .paid steps v) :
    totalSteps vs = steps ∧ total vs = v := by
  have hrun : sum vs {} = .ok v { steps := 0 + steps } := by
    rw [h]
    exact Metered.run_paid steps v ((Budget.endless_of_timeout rfl).lasts steps)
  rw [totalSteps, total, hrun]
  exact ⟨Nat.zero_add steps, rfl⟩

/-- Scalars add up to a scalar, and that takes no step. -/
theorem total_scalars (vs : List Value) (h : ∀ v ∈ vs, ∃ s, v = scalar s) :
    totalSteps vs = 0 ∧ ∃ s, total vs = scalar s := by
  have hfold : ∀ (vs : List Value) (s : Scalar), (∀ v ∈ vs, ∃ s, v = scalar s) →
      ∃ s', vs.foldlM add (scalar s) = pure (scalar s') := by
    intro vs
    induction vs with
    | nil => exact fun s _ => ⟨s, rfl⟩
    | cons v vs ih =>
      intro s h
      obtain ⟨⟨s', rfl⟩, hvs⟩ := List.forall_mem_cons.mp h
      have hadd : add (scalar s) (scalar s') = pure (scalar (s.add s')) := rfl
      rw [List.foldlM_cons, hadd, pure_bind]
      exact ih _ hvs
  have hsum : ∃ s, sum vs = .paid 0 (scalar s) := by
    cases vs with
    | nil => exact ⟨.int 0, rfl⟩
    | cons v vs =>
      obtain ⟨⟨s, rfl⟩, hvs⟩ := List.forall_mem_cons.mp h
      exact hfold vs s hvs
  obtain ⟨s, hs⟩ := hsum
  obtain ⟨hsteps, htotal⟩ := total_of_sum_eq hs
  exact ⟨hsteps, s, htotal⟩

end Value

/-! ## 2. A list of rolls -/

/-- The tray behind some draws and some steps, with a list of rolls left. -/
def Tray.played (t : Tray) (rest : List Nat) (drawn steps : Nat) : Tray where
  source := .script rest
  drawn := t.drawn + drawn
  budget := t.budget.paying steps

@[simp] theorem Tray.played_played (t : Tray) (rest rest' : List Nat) (j k j' k' : Nat) :
    (t.played rest j k).played rest' j' k' = t.played rest' (j + j') (k + k') := by
  simp [played, Nat.add_assoc]

theorem Tray.played_self {t : Tray} {rolls : List Nat} (h : t.source = .script rolls) :
    t.played rolls 0 0 = t := by
  rw [played, ← h]
  rfl

theorem Tray.remaining_of_script {t : Tray} {rolls : List Nat} (h : t.source = .script rolls) :
    t.source.remaining = rolls.length := by
  rw [h]
  rfl

theorem draw_script {n : Nat} (pos : 0 < n) {t : Tray} {roll : Nat} {rolls : List Nat}
    (h : t.source = .script (roll :: rolls)) :
    draw n pos t = .ok ⟨roll % n, Nat.mod_lt roll pos⟩ (t.played rolls 1 0) := by
  refine draw_eq_ok_iff.mpr ⟨.script rolls, ?_, rfl⟩
  rw [h]
  rfl

theorem draw_script_nil {n : Nat} (pos : 0 < n) {t : Tray} (h : t.source = .script []) :
    draw n pos t = .error .rollsExhausted t := by
  refine draw_eq_error_iff.mpr ⟨?_, rfl, rfl⟩
  rw [h]
  rfl

theorem onTray_played {work : Metered α} {steps : Nat} {a : α} (hwork : work = .paid steps a)
    {t : Tray} (htime : t.budget.Endless) (rest : List Nat) (j k : Nat) :
    (liftM work : Rolling α) (t.played rest j k) = .ok a (t.played rest j (k + steps)) := by
  have hrun := Metered.run_paid steps a ((htime.paying k).lasts steps)
  refine Metered.onTray_eq_ok_iff.mpr ⟨_, hwork ▸ hrun, ?_⟩
  simp [Tray.played]

namespace Pool

/-- The face that a roll from a list shows. -/
def shown (p : Pool) (roll : Nat) : Value := p.sides[roll % p.sides.size]!

theorem getElem_sides_eq_shown (p : Pool) {roll : Nat} (h : roll % p.sides.size < p.sides.size) :
    p.sides[(⟨roll % p.sides.size, h⟩ : Fin p.sides.size)] = p.shown roll :=
  (getElem!_pos p.sides (roll % p.sides.size) h).symm

theorem shown_mem (p : Pool) (pos : 0 < p.sides.size) (roll : Nat) : p.shown roll ∈ p.sides := by
  rw [← p.getElem_sides_eq_shown (Nat.mod_lt roll pos)]
  exact Array.getElem_mem _

/-- Whether a roll shows a face that equals a trigger. -/
def explodes (p : Pool) (roll : Nat) : Bool := triggered p.triggers (p.shown roll)

/-- The turn of one die: some rolls that show triggers, and then one that does not. -/
def Turn (p : Pool) (rolls : List Nat) : Prop :=
  ∃ hits last, rolls = hits ++ [last] ∧ (∀ roll ∈ hits, p.explodes roll = true) ∧
    p.explodes last = false

/-- Every list of rolls begins with the turn of a die, or shows only triggers. -/
theorem exists_turn (p : Pool) (rolls : List Nat) :
    (∃ turn rest, rolls = turn ++ rest ∧ p.Turn turn) ∨ ∀ roll ∈ rolls, p.explodes roll = true := by
  induction rolls with
  | nil => exact .inr fun roll h => absurd h List.not_mem_nil
  | cons roll rolls ih =>
    cases hroll : p.explodes roll with
    | false => exact .inl ⟨[roll], rolls, rfl, [], roll, rfl, nofun, hroll⟩
    | true =>
      rcases ih with ⟨turn, rest, rfl, hits, last, rfl, hhits, hlast⟩ | hall
      · exact .inl ⟨roll :: (hits ++ [last]), rest, rfl, roll :: hits, last, rfl,
          List.forall_mem_cons.mpr ⟨hroll, hhits⟩, hlast⟩
      · exact .inr (List.forall_mem_cons.mpr ⟨hroll, hall⟩)

/-- Every list of rolls begins with the turns of `n` dice, or ends within one of them. -/
theorem exists_turns (p : Pool) (n : Nat) (rolls : List Nat) :
    (∃ (turns : List (List Nat)) (rest : List Nat), rolls = turns.flatten ++ rest ∧
      turns.length = n ∧ ∀ turn ∈ turns, p.Turn turn) ∨
    ∃ (turns : List (List Nat)) (unfinished : List Nat), rolls = turns.flatten ++ unfinished ∧
      turns.length < n ∧ (∀ turn ∈ turns, p.Turn turn) ∧
      ∀ roll ∈ unfinished, p.explodes roll = true := by
  induction n generalizing rolls with
  | zero => exact .inl ⟨[], rolls, rfl, rfl, nofun⟩
  | succ n ih =>
    rcases p.exists_turn rolls with ⟨turn, rest, rfl, hturn⟩ | hall
    · rcases ih rest with
        ⟨turns, rest, rfl, rfl, hturns⟩ | ⟨turns, unfinished, rfl, hless, hturns, hall⟩
      · refine .inl ⟨turn :: turns, rest, ?_, rfl, List.forall_mem_cons.mpr ⟨hturn, hturns⟩⟩
        rw [List.flatten_cons, List.append_assoc]
      · refine .inr ⟨turn :: turns, unfinished, ?_, Nat.succ_lt_succ hless,
          List.forall_mem_cons.mpr ⟨hturn, hturns⟩, hall⟩
        rw [List.flatten_cons, List.append_assoc]
    · exact .inr ⟨[], rolls, rfl, Nat.succ_pos n, nofun, hall⟩

/-- What the dice with some turns come to. -/
def turnTotals (p : Pool) (turns : List (List Nat)) : List Value :=
  turns.map fun turn => Value.total (turn.map p.shown)

/-- The steps that it takes to add up the faces of each turn, and then the dice. -/
def addingSteps (p : Pool) (turns : List (List Nat)) : Nat :=
  (turns.map fun turn => Value.totalSteps (turn.map p.shown)).sum +
    Value.totalSteps (p.turnTotals turns)

/-! ## 3. One die -/

section Scripted

variable {p : Pool} (pos : 0 < p.sides.size) (total : Option Value) {fuel : Nat} {t : Tray}
  (htime : t.budget.Endless)

include pos htime

/-- One roll of a die: its face is added up, and the die goes on if it is a trigger. -/
theorem rollOn_script_cons {roll : Nat} {rolls : List Nat}
    (hscript : t.source = .script (roll :: rolls)) :
    ∃ steps v, addTo total (p.shown roll) = .paid steps v ∧
      rollOn p.sides pos p.triggers (fuel + 1) total t =
        if p.explodes roll then
          rollOn p.sides pos p.triggers fuel (some v) (t.played rolls 1 (steps + 1))
        else .ok v (t.played rolls 1 steps) := by
  obtain ⟨steps, v, hadd⟩ := paced_addTo total (p.shown roll)
  refine ⟨steps, v, hadd, ?_⟩
  rw [rollOn, bind_of_eq_ok (draw_script pos hscript)]
  simp only [getElem_sides_eq_shown]
  rw [bind_of_eq_ok (onTray_played hadd htime rolls 1 0), Nat.zero_add, explodes]
  split
  · rw [bind_of_eq_ok (onTray_played Metered.payStep_eq_paid htime rolls 1 steps)]
  · rfl

/-- **A die takes its turn** and adds it up. -/
theorem rollOn_turn {hits rest : List Nat} {last : Nat}
    (hhits : ∀ roll ∈ hits, p.explodes roll = true) (hlast : p.explodes last = false)
    (hfuel : hits.length < fuel) (hscript : t.source = .script (hits ++ last :: rest)) :
    ∃ steps v, addAll total ((hits ++ [last]).map p.shown) = .paid steps v ∧
      rollOn p.sides pos p.triggers fuel total t =
        .ok v (t.played rest (hits.length + 1) (steps + hits.length)) := by
  induction hits generalizing total fuel t with
  | nil =>
    obtain ⟨fuel, rfl⟩ := Nat.exists_eq_succ_of_ne_zero (Nat.ne_zero_of_lt hfuel)
    obtain ⟨steps, v, hadd, hroll⟩ := rollOn_script_cons pos total htime hscript
    refine ⟨steps, v, ?_, ?_⟩
    · rw [List.nil_append, List.map_singleton, addAll_cons, hadd]
      exact (bind_congr fun w => addAll_nil (some w)).trans (bind_pure _)
    · rw [hroll, hlast]
      rfl
  | cons roll hits ih =>
    obtain ⟨fuel, rfl⟩ := Nat.exists_eq_succ_of_ne_zero (Nat.ne_zero_of_lt hfuel)
    obtain ⟨hexplodes, hhits⟩ := List.forall_mem_cons.mp hhits
    rw [List.cons_append] at hscript
    obtain ⟨steps, v, hadd, hroll⟩ := rollOn_script_cons pos total htime hscript
    obtain ⟨steps', v', hadds, hrolls⟩ :=
      ih (some v) (t := t.played (hits ++ last :: rest) 1 (steps + 1)) htime hhits
        (Nat.lt_of_succ_lt_succ hfuel) rfl
    refine ⟨steps' + steps, v', ?_, ?_⟩
    · rw [List.cons_append, List.map_cons, addAll_cons, hadd]
      exact Metered.paid_bind (f := fun w => addAll (some w) _) hadds steps
    · rw [hroll, if_pos hexplodes, hrolls, Tray.played_played, List.length_cons]
      congr 2 <;> omega

/-- A die that shows triggers only takes all rolls. -/
theorem rollOn_unfinished {rolls : List Nat} (hall : ∀ roll ∈ rolls, p.explodes roll = true)
    (hfuel : rolls.length ≤ fuel) (hscript : t.source = .script rolls) :
    ∃ steps, rollOn p.sides pos p.triggers fuel total t =
      .error .rollsExhausted (t.played [] rolls.length steps) := by
  induction rolls generalizing total fuel t with
  | nil =>
    refine ⟨0, ?_⟩
    rw [List.length_nil, Tray.played_self hscript]
    cases fuel with
    | zero => rfl
    | succ fuel => rw [rollOn, bind_of_eq_error (draw_script_nil pos hscript)]
  | cons roll rolls ih =>
    obtain ⟨fuel, rfl⟩ := Nat.exists_eq_succ_of_ne_zero (Nat.ne_zero_of_lt hfuel)
    obtain ⟨hexplodes, hall⟩ := List.forall_mem_cons.mp hall
    obtain ⟨steps, v, -, hroll⟩ := rollOn_script_cons pos total htime hscript
    obtain ⟨steps', hrolls⟩ := ih (some v) (t := t.played rolls 1 (steps + 1)) htime hall
      (Nat.le_of_succ_le_succ hfuel) rfl
    refine ⟨steps + 1 + steps', ?_⟩
    rw [hroll, if_pos hexplodes, hrolls, Tray.played_played, List.length_cons, Nat.add_comm 1]

/-- Rolling a die is taking its turn. -/
theorem rollDie_turn {turn rest : List Nat} (hturn : p.Turn turn)
    (hscript : t.source = .script (turn ++ rest)) :
    p.rollDie t = .ok (Value.total (turn.map p.shown)) (t.played rest turn.length
      (turn.countP p.explodes + Value.totalSteps (turn.map p.shown))) := by
  obtain ⟨hits, last, rfl, hhits, hlast⟩ := hturn
  rw [List.append_assoc, List.singleton_append] at hscript
  have hfuel : hits.length < t.source.remaining := by
    rw [Tray.remaining_of_script hscript, List.length_append, List.length_cons]
    omega
  obtain ⟨steps, v, hadd, hroll⟩ :=
    rollOn_turn pos none htime hhits hlast hfuel hscript
  obtain ⟨hsteps, htotal⟩ := Value.total_of_sum_eq hadd
  have hcount : (hits ++ [last]).countP p.explodes = hits.length := by
    rw [List.countP_append, List.countP_eq_length.mpr hhits, List.countP_singleton, hlast]
    rfl
  rw [p.rollDie_eq pos, hroll, htotal, hsteps, hcount, List.length_append, List.length_singleton,
    Nat.add_comm steps]

theorem rollDie_unfinished {rolls : List Nat} (hall : ∀ roll ∈ rolls, p.explodes roll = true)
    (hscript : t.source = .script rolls) :
    ∃ steps, p.rollDie t = .error .rollsExhausted (t.played [] rolls.length steps) := by
  rw [p.rollDie_eq pos]
  exact rollOn_unfinished pos none htime hall (Tray.remaining_of_script hscript).ge hscript

/-! ## 4. The dice of a pool -/

/-- One die of a pool: its turn is added up and then paid for, and the other dice go on. -/
theorem rollSum_script_append {n : Nat} {turn rest : List Nat} (hturn : p.Turn turn)
    (hscript : t.source = .script (turn ++ rest)) :
    ∃ steps v, addTo total (Value.total (turn.map p.shown)) = .paid steps v ∧
      p.rollSum (n + 1) total t = p.rollSum n (some v) (t.played rest turn.length
        (turn.countP p.explodes + Value.totalSteps (turn.map p.shown) + steps + 1)) := by
  obtain ⟨steps, v, hadd⟩ := paced_addTo total (Value.total (turn.map p.shown))
  refine ⟨steps, v, hadd, ?_⟩
  rw [rollSum, bind_of_eq_ok (rollDie_turn pos htime hturn hscript),
    bind_of_eq_ok (onTray_played hadd htime _ _ _),
    bind_of_eq_ok (onTray_played Metered.payStep_eq_paid htime _ _ _)]

/-- **Dice take their turns one after the other**, and their totals are added up. -/
theorem rollSum_turns {turns : List (List Nat)} {rest : List Nat}
    (hturns : ∀ turn ∈ turns, p.Turn turn) (hscript : t.source = .script (turns.flatten ++ rest)) :
    ∃ steps v, addAll total (p.turnTotals turns) = .paid steps v ∧
      p.rollSum turns.length total t = .ok v (t.played rest turns.flatten.length
        (turns.length + turns.flatten.countP p.explodes +
          ((turns.map fun turn => Value.totalSteps (turn.map p.shown)).sum + steps))) := by
  induction turns generalizing total t with
  | nil =>
    refine ⟨0, _, addAll_nil total, ?_⟩
    have hself : t.played rest 0 0 = t := Tray.played_self hscript
    exact congrArg _ hself.symm
  | cons turn turns ih =>
    obtain ⟨hturn, hturns⟩ := List.forall_mem_cons.mp hturns
    rw [List.flatten_cons, List.append_assoc] at hscript
    obtain ⟨steps, v, hadd, hroll⟩ :=
      rollSum_script_append pos total (n := turns.length) htime hturn hscript
    obtain ⟨steps', v', hadds, hrolls⟩ := ih (some v) (t := t.played (turns.flatten ++ rest)
      turn.length (turn.countP p.explodes + Value.totalSteps (turn.map p.shown) + steps + 1))
      htime hturns rfl
    refine ⟨steps' + steps, v', ?_, ?_⟩
    · rw [turnTotals, List.map_cons, addAll_cons, hadd]
      exact Metered.paid_bind (f := fun w => addAll (some w) _) hadds steps
    · rw [List.length_cons, hroll, hrolls, Tray.played_played, List.flatten_cons,
        List.length_append, List.countP_append, List.map_cons, List.sum_cons]
      congr 2
      omega

/-- Dice that run out of rolls take all rolls. -/
theorem rollSum_unfinished {turns : List (List Nat)} {unfinished : List Nat} {n : Nat}
    (hturns : ∀ turn ∈ turns, p.Turn turn) (hless : turns.length < n)
    (hall : ∀ roll ∈ unfinished, p.explodes roll = true)
    (hscript : t.source = .script (turns.flatten ++ unfinished)) :
    ∃ steps, p.rollSum n total t =
      .error .rollsExhausted (t.played [] (turns.flatten ++ unfinished).length steps) := by
  induction turns generalizing n total t with
  | nil =>
    obtain ⟨n, rfl⟩ := Nat.exists_eq_succ_of_ne_zero (Nat.ne_zero_of_lt hless)
    obtain ⟨steps, hdie⟩ := rollDie_unfinished pos htime hall hscript
    refine ⟨steps, ?_⟩
    rw [rollSum, bind_of_eq_error hdie]
    rfl
  | cons turn turns ih =>
    obtain ⟨n, rfl⟩ := Nat.exists_eq_succ_of_ne_zero (Nat.ne_zero_of_lt hless)
    obtain ⟨hturn, hturns⟩ := List.forall_mem_cons.mp hturns
    rw [List.flatten_cons, List.append_assoc] at hscript ⊢
    obtain ⟨steps, v, -, hroll⟩ :=
      rollSum_script_append pos total (n := n) htime hturn hscript
    obtain ⟨steps', hrolls⟩ := ih (some v) (t := t.played (turns.flatten ++ unfinished)
      turn.length (turn.countP p.explodes + Value.totalSteps (turn.map p.shown) + steps + 1))
      htime hturns (Nat.lt_of_succ_lt_succ hless) rfl
    rw [Tray.played_played, ← List.length_append] at hrolls
    exact ⟨_, hroll.trans hrolls⟩

end Scripted

/-- If the first step is late, it halts the work, and that is behind the first roll. -/
theorem rollSum_halted {p : Pool} (pos : 0 < p.sides.size) {t : Tray} {roll : Nat}
    {rolls : List Nat} (hhalts : t.budget.HaltsAfter 0)
    (hscript : t.source = .script (roll :: rolls)) (n : Nat) :
    p.rollSum (n + 1) none t = .error (.halted t.budget.timeout) (t.played rolls 1 1) := by
  have hstep : (liftM payStep : Rolling Unit) (t.played rolls 1 0) =
      .error (.halted t.budget.timeout) (t.played rolls 1 1) :=
    (payStep_onTray _).trans (if_pos hhalts.late)
  have hremaining : t.source.remaining = rolls.length + 1 := Tray.remaining_of_script hscript
  have hdie : p.rollDie t =
      if p.explodes roll then .error (.halted t.budget.timeout) (t.played rolls 1 1)
      else .ok (p.shown roll) (t.played rolls 1 0) := by
    rw [p.rollDie_eq pos, hremaining, rollOn, bind_of_eq_ok (draw_script pos hscript)]
    simp only [getElem_sides_eq_shown, addTo, liftM_metered_pure, pure_bind]
    rw [explodes]
    split
    · exact bind_of_eq_error hstep
    · rfl
  rw [rollSum]
  cases hroll : p.explodes roll with
  | true =>
    rw [hroll] at hdie
    exact bind_of_eq_error hdie
  | false =>
    rw [hroll] at hdie
    rw [bind_of_eq_ok hdie]
    simp only [addTo, liftM_metered_pure, pure_bind]
    exact bind_of_eq_error hstep

theorem rollSum_no_rolls {p : Pool} (pos : 0 < p.sides.size) {t : Tray}
    (hscript : t.source = .script []) (n : Nat) :
    p.rollSum (n + 1) none t = .error .rollsExhausted t := by
  have hdie : p.rollDie t = .error .rollsExhausted t := by
    rw [p.rollDie_eq pos, Tray.remaining_of_script hscript]
    rfl
  rw [rollSum, bind_of_eq_error hdie]

/-! ## 5. Rolling a pool -/

theorem roll_eq_rollSum {p : Pool} (hsides : 0 < p.sides.size) (hnum : 1 ≤ p.num)
    (hall : p.countsAll = true) : p.roll = p.rollSum p.num.toNat none := by
  have hempty : p.isEmpty = false := by
    simp only [countsAll, Bool.and_eq_true, beq_iff_eq] at hall
    simp only [isEmpty, Array.isEmpty, Bool.or_eq_false_iff, decide_eq_false_iff_not]
    omega
  rw [roll, hempty, hall]
  rfl

/-- Faces that are scalars are added up without a step. -/
theorem addingSteps_scalars {p : Pool} (pos : 0 < p.sides.size)
    (h : ∀ face ∈ p.sides, ∃ s, face = .scalar s) (turns : List (List Nat)) :
    p.addingSteps turns = 0 := by
  have hturn (turn : List Nat) := Value.total_scalars (turn.map p.shown) (by
    intro v hv
    obtain ⟨roll, -, rfl⟩ := List.mem_map.mp hv
    exact h _ (p.shown_mem pos roll))
  have htotals := Value.total_scalars (p.turnTotals turns) (by
    intro v hv
    obtain ⟨turn, -, rfl⟩ := List.mem_map.mp hv
    exact (hturn turn).2)
  have hsteps : (turns.map fun turn => Value.totalSteps (turn.map p.shown)) =
      turns.map fun _ => 0 := List.map_congr_left fun turn _ => (hturn turn).1
  rw [addingSteps, htotals.1, hsteps, List.map_const', List.sum_replicate]
  rfl

/-- **Dice that explode take one turn each.**  While no step is late, rolling a pool of which all
dice count takes the turns of its dice from the front of a list of rolls: each turn is added up from
left to right, and so are the dice.  The steps are one for each die, one for each trigger, and those
of adding up, which are none if the faces are scalars.  If the list ends before the last turn does,
all of it is taken, and the end of the rolls is what ends the work.  If the first step is late, it
halts the work. -/
theorem roll_takes_turns (p : Pool) (t : Tray) (rolls : List Nat) (pos : 0 < p.sides.size)
    (hnum : 1 ≤ p.num) (hall : p.countsAll = true) (hscript : t.source = .script rolls) :
    (t.budget.Endless →
      (∃ (turns : List (List Nat)) (rest : List Nat), rolls = turns.flatten ++ rest ∧
        turns.length = p.num ∧ (∀ turn ∈ turns, p.Turn turn) ∧
        p.roll t = .ok (Value.total (p.turnTotals turns)) (t.played rest turns.flatten.length
          (p.num.toNat + turns.flatten.countP p.explodes + p.addingSteps turns)) ∧
        ((∀ face ∈ p.sides, ∃ s, face = .scalar s) → p.addingSteps turns = 0)) ∨
      ∃ (turns : List (List Nat)) (unfinished : List Nat) (steps : Nat),
        rolls = turns.flatten ++ unfinished ∧ turns.length < p.num ∧
        (∀ turn ∈ turns, p.Turn turn) ∧ (∀ roll ∈ unfinished, p.explodes roll = true) ∧
        p.roll t = .error .rollsExhausted (t.played [] rolls.length steps)) ∧
    (t.budget.HaltsAfter 0 → p.roll t =
      match rolls with
      | [] => .error .rollsExhausted t
      | _ :: rest => .error (.halted t.budget.timeout) (t.played rest 1 1)) := by
  obtain ⟨n, hn⟩ : ∃ n, p.num.toNat = n + 1 := ⟨p.num.toNat - 1, by omega⟩
  rw [roll_eq_rollSum pos hnum hall]
  constructor
  · intro htime
    rcases p.exists_turns p.num.toNat rolls with
      ⟨turns, rest, rfl, hcount, hturns⟩ | ⟨turns, unfinished, rfl, hless, hturns, hhits⟩
    · obtain ⟨steps, v, hadd, hroll⟩ := rollSum_turns pos none htime hturns hscript
      obtain ⟨rfl, rfl⟩ := Value.total_of_sum_eq hadd
      refine .inl ⟨turns, rest, rfl, by omega, hturns, ?_, fun h => addingSteps_scalars pos h turns⟩
      rw [← hcount, hroll]
      rfl
    · obtain ⟨steps, hroll⟩ :=
        rollSum_unfinished pos none htime hturns hless hhits hscript
      exact .inr ⟨turns, unfinished, steps, rfl, by omega, hturns, hhits, hroll⟩
  · intro hhalts
    rw [hn]
    cases rolls with
    | nil => exact rollSum_no_rolls pos hscript n
    | cons roll rest => exact rollSum_halted pos hhalts hscript n

/-- Two dice with the faces 1 and 2 that explode on 2: the rolls show two triggers and two faces
that are none, and one roll is left. -/
theorem roll_takes_turns_two_dice :
    let p := (ofSides 2 #[.int 1, .int 2]).explodeOn [.int 2]
    let t : Tray := { source := .script [1, 3, 0, 4, 5] }
    ∃ (turns : List (List Nat)) (rest : List Nat), [1, 3, 0, 4, 5] = turns.flatten ++ rest ∧
      turns.length = p.num ∧ (∀ turn ∈ turns, p.Turn turn) ∧
      p.roll t = .ok (.int 6) (t.played rest 4 4) := by
  intro p t
  have hroll : (match p.roll t with
      | .ok v t' => some (v, t'.drawn, t'.budget.steps)
      | .error _ _ => none) = some (.int 6, 4, 4) := by decide +kernel
  obtain ⟨turns, rest, hrolls, hcount, hturns, hok, -⟩ | ⟨_, _, _, -, -, -, -, herror⟩ :=
    (roll_takes_turns p t [1, 3, 0, 4, 5] (by decide) (by decide) (by decide) rfl).1
      (Budget.endless_of_timeout rfl)
  · refine ⟨turns, rest, hrolls, hcount, hturns, ?_⟩
    rw [hok] at hroll ⊢
    simp only [Tray.played, Option.some.injEq, Prod.mk.injEq] at hroll ⊢
    obtain ⟨hvalue, hdrawn, hsteps⟩ := hroll
    -- nothing has been drawn or paid for on this tray before
    have hpaid := (Nat.zero_add _).symm.trans hsteps
    rw [hvalue, hdrawn, hpaid]
  · rw [herror] at hroll
    cases hroll

end Pool

end DiceNotation
