/-
# Reading ends, and how much it does

The reader makes no more calls than there are tokens, also where it fails.  The tokens pay for the
calls: work is **affordable** if the calls that it makes, and the tokens that it leaves, are no more
than the tokens that it has been given (`Affordable`).  Each construct has a token of its own, and
the bracket that opens a group pays for the half of `)!` that the group leaves behind.

The same argument shows that the bound on nesting is no part of the algorithm: where there are more
levels than the tokens weigh they are never used up.  `reading_ends_within_tokens` puts this
together with what the turns of the reader use up.
-/
import DiceNotation.Proofs.Grammar.Levels
import DiceNotation.Proofs.Grammar.Located
import DiceNotation.Proofs.Grammar.Outline

namespace DiceNotation

/-! ## 1. Counting calls -/

/-- Actions that do nothing but count that they are called. -/
def Actions.counting : Actions (StateM Nat) Unit := .report fun _ => modify (· + 1)

/-- Work of the stack machine either gets stuck or has made some number of calls. -/
def Makes {β : Type} (made : Nat) (work : OptionT (StateM Nat) β) : Prop :=
  ∀ calls, (work.run.run calls).1 = none ∨ (work.run.run calls).2 = calls + made

theorem Makes.bind {β γ : Type} {a b : Nat} {x : OptionT (StateM Nat) β}
    {f : β → OptionT (StateM Nat) γ} (hx : Makes a x) (hf : ∀ y, Makes b (f y)) :
    Makes (a + b) (x >>= f) := by
  intro calls
  rw [OptionT.run_bind, Option.elimM, StateT.run_bind]
  rcases hone : x.run.run calls with ⟨_ | y, calls'⟩
  · exact .inl rfl
  · have hmade := hx calls
    rw [hone] at hmade
    rcases hmade with hnone | rfl
    · cases hnone
    · rw [← Nat.add_assoc]
      exact hf y (calls + a)

/-- A reduction is one call. -/
theorem Actions.makes_reduce (r : Reduction) (stack : List Unit) :
    Makes 1 (counting.reduce r stack) := by
  intro calls
  cases r with
  | literal t => exact .inr rfl
  | unary o | suffix o =>
    rcases stack with _ | ⟨x, stack⟩
    · exact .inl rfl
    · exact .inr rfl
  | binary o | keep k | explode | index =>
    rcases stack with _ | ⟨y, _ | ⟨x, stack⟩⟩
    · exact .inl rfl
    · exact .inl rfl
    · exact .inr rfl
  | dice counted =>
    cases counted with
    | false =>
      rcases stack with _ | ⟨y, stack⟩
      · exact .inl rfl
      · exact .inr rfl
    | true =>
      rcases stack with _ | ⟨y, _ | ⟨x, stack⟩⟩
      · exact .inl rfl
      · exact .inl rfl
      · exact .inr rfl
  | array size =>
    by_cases hsize : size ≤ stack.length
    · rw [reduce, if_pos hsize]
      exact .inr rfl
    · rw [reduce, if_neg hsize]
      exact .inl rfl

theorem Actions.makes_perform (steps : List Reduction) (stack : List Unit) :
    Makes steps.length (counting.perform steps stack) := by
  induction steps generalizing stack with
  | nil => exact fun _ => .inr rfl
  | cons r steps ih =>
    rw [List.length_cons, Nat.add_comm]
    exact (makes_reduce r stack).bind ih

/-- Reading that follows an outline makes the calls of the outline and ends as it does. -/
theorem Outline.run_counting {o : Outline} {x : StateM Nat (Except SyntaxError Unit)}
    (h : OptionT.lift x = Actions.counting.follow o) (calls : Nat) :
    (x.run calls).2 = calls + o.steps.length ∧
      ∀ e, o.ending = some e → (x.run calls).1 = .error e := by
  have hrun : (some (x.run calls).1, (x.run calls).2) = (Actions.counting.follow o).run.run calls :=
    congrArg (fun work : OptionT (StateM Nat) _ => work.run.run calls) h
  have hmade := Actions.makes_perform o.steps [] calls
  rw [Actions.follow, OptionT.run_bind, Option.elimM, StateT.run_bind] at hrun
  rcases hone : (Actions.counting.perform o.steps []).run.run calls with ⟨_ | stack, calls'⟩
  · rw [hone] at hrun
    cases hrun
  rw [hone] at hrun hmade
  rcases hmade with hnone | rfl
  · cases hnone
  cases hending : o.ending with
  | some e =>
    rw [hending] at hrun
    obtain ⟨hvalue, hcalls⟩ := Prod.mk.inj hrun
    refine ⟨hcalls, fun e' he => ?_⟩
    cases he
    exact Option.some.inj hvalue
  | none =>
    rw [hending] at hrun
    rcases stack with _ | ⟨v, _ | _⟩
    · cases hrun
    · exact ⟨(Prod.mk.inj hrun).2, fun e he => absurd he (by simp)⟩
    · cases hrun

/-! ## 2. Affordable work -/

/-- Work that is given `credit` tokens makes as many calls at most, and where it gives a value, the
tokens `left` by that value have not been used for calls.  It finds the nesting too deep only if
`deep` holds. -/
structure Affordable {β : Type} (credit : Nat) (left : β → Nat) (deep : Prop)
    (work : ExceptT SyntaxError (StateM Nat) β) : Prop where
  of_ok : ∀ {calls calls' : Nat} {b : β}, work.run.run calls = (.ok b, calls') →
    calls' + left b ≤ calls + credit
  of_error : ∀ {calls calls' : Nat} {e : SyntaxError}, work.run.run calls = (.error e, calls') →
    calls' ≤ calls + credit ∧ (e = .tooDeep → deep)

namespace Affordable

variable {β γ : Type} {credit : Nat} {left : β → Nat} {left' : γ → Nat} {deep deep' : Prop}
  {x : ExceptT SyntaxError (StateM Nat) β}

theorem pure {b : β} (h : left b ≤ credit) : Affordable credit left deep (Pure.pure b) where
  of_ok h' := by
    cases h'
    exact Nat.add_le_add_left h _
  of_error h' := by cases h'

theorem throw {e : SyntaxError} (h : e = .tooDeep → deep) :
    Affordable credit left deep (throw e) where
  of_ok h' := by cases h'
  of_error h' := by
    cases h'
    exact ⟨Nat.le_add_right _ _, h⟩

theorem of_except {x : Except SyntaxError β} (hok : ∀ b, x = .ok b → left b ≤ credit)
    (herror : ∀ e, x = .error e → e ≠ .tooDeep) : Affordable credit left deep (liftM x) := by
  cases x with
  | ok b => exact .pure (hok b rfl)
  | error e => exact .throw fun h => absurd h (herror e rfl)

/-- A call is paid for with one token. -/
theorem call (rest : Nat) : Affordable (rest + 1) (fun _ => rest) deep
    (liftM (modify (· + 1) : StateM Nat Unit)) where
  of_ok {calls calls' _} h := by
    cases h
    exact Nat.le_of_eq (Nat.add_right_comm calls 1 rest)
  of_error h := by cases h

theorem bind {f : β → ExceptT SyntaxError (StateM Nat) γ} (hx : Affordable credit left deep x)
    (hf : ∀ b, Affordable (left b) left' deep (f b)) :
    Affordable credit left' deep (x >>= f) := by
  have hrun (calls : Nat) : (x >>= f).run.run calls = match x.run.run calls with
      | (.ok b, calls') => (f b).run.run calls'
      | (.error e, calls') => (.error e, calls') := by
    rw [ExceptT.run_bind, StateT.run_bind]
    rcases x.run.run calls with ⟨_ | _, _⟩ <;> rfl
  constructor
  · intro calls calls' c h
    rw [hrun] at h
    rcases hone : x.run.run calls with ⟨e | b, calls₁⟩
    · rw [hone] at h
      cases h
    · rw [hone] at h
      have hfirst := hx.of_ok hone
      have hrest := (hf b).of_ok h
      omega
  · intro calls calls' e h
    rw [hrun] at h
    rcases hone : x.run.run calls with ⟨e | b, calls₁⟩
    · rw [hone] at h
      cases h
      exact hx.of_error hone
    · rw [hone] at h
      have hfirst := hx.of_ok hone
      obtain ⟨hrest, hdeep⟩ := (hf b).of_error h
      exact ⟨by omega, hdeep⟩

/-- Tokens that some work is not given are there behind it. -/
theorem frame (h : Affordable credit left deep x) (more : Nat) :
    Affordable (credit + more) (fun b => left b + more) deep x where
  of_ok h' := by
    have := h.of_ok h'
    omega
  of_error h' := by
    obtain ⟨hcalls, hdeep⟩ := h.of_error h'
    exact ⟨by omega, hdeep⟩

theorem imp (h : Affordable credit left deep x) (hdeep : deep → deep') :
    Affordable credit left deep' x where
  of_ok := h.of_ok
  of_error h' := (h.of_error h').imp_right fun hdeep' he => hdeep (hdeep' he)

end Affordable

/-! ## 3. Each part of the reader is affordable -/

/-- Readers that leave tokens over for each call that they make, and find the nesting too deep only
where the tokens weigh as much as there are levels. -/
def OperandReader.Affordable (operand : OperandReader (StateM Nat) Unit) (depth : Nat) : Prop :=
  ∀ (power : Nat) (tokens : List Token),
    DiceNotation.Affordable tokens.length (fun read => read.rest.length) (depth ≤ weight tokens)
      (operand power tokens)

theorem Token.misplaced_ne_tooDeep (t : Token) : t.misplaced ≠ .tooDeep := by
  cases t <;> simp [Token.misplaced]

theorem affordable_passOver (o : Op) (tokens : List Token) (deep : Prop) :
    Affordable tokens.length (fun closed => closed.rest.length) deep
      (liftM (passOver o tokens)) := by
  refine .of_except (fun closed h => (consumes_of_passOver h).length_le) fun e h => ?_
  rw [(passOver_error_cases h).1]
  nofun

theorem affordable_passGroupEnd (tokens : List Token) (deep : Prop) :
    Affordable tokens.length (fun closed => closed.rest.length) deep
      (liftM (passGroupEnd tokens)) := by
  refine .of_except (fun closed h => (consumes_of_passGroupEnd h).length_le) fun e h => ?_
  rw [(passGroupEnd_error_cases h).1]
  nofun

theorem affordable_passElementEnd (tokens : List Token) (deep : Prop) :
    Affordable tokens.length (fun step => step.value.rest.length) deep
      (liftM (passElementEnd tokens)) := by
  refine .of_except (fun step h => (consumes_of_passElementEnd h).length_le) fun e h => ?_
  unfold passElementEnd at h
  split at h <;> cases h
  nofun

section Parts

variable {operand : OperandReader (StateM Nat) Unit} {depth : Nat}

theorem affordable_elementTurn (affordable : operand.Affordable depth) (tokens : List Token) :
    Affordable tokens.length (fun step => step.value.rest.length) (depth ≤ weight tokens)
      (elementTurn operand tokens) := by
  refine (affordable elementPower tokens).bind fun first => ?_
  refine (affordable_passElementEnd first.rest _).bind fun step => ?_
  cases step with
  | done last => exact .pure (Nat.le_refl _)
  | yield next => exact .pure (Nat.le_refl _)

theorem affordable_readElements (affordable : operand.Affordable depth) (tokens : List Token) :
    Affordable tokens.length (fun read => read.rest.length) (depth ≤ weight tokens)
      (readElements operand tokens) := by
  rw [readElements_eq_turns]
  refine (affordable_elementTurn affordable tokens).bind fun step => ?_
  cases step with
  | done last => exact .pure (Nat.le_refl _)
  | yield first =>
    have hlighter := first.lighter
    refine ((affordable_readElements affordable first.rest).imp fun h => ?_).bind fun more => ?_
    · exact Nat.le_trans h (Nat.le_of_lt hlighter)
    · exact .pure (Nat.le_refl _)
termination_by weight tokens

/-- The token in front of a primary pays for its call. -/
theorem affordable_readPrimary (affordable : operand.Affordable depth) (tokens : List Token) :
    Affordable tokens.length (fun read => read.rest.length) (depth < weight tokens)
      (readPrimary Actions.counting operand tokens) := by
  have hinside (t : Token) (rest : List Token) (power : Nat) : Affordable (rest.length + 1)
      (fun read => read.rest.length + 1) (depth < weight (t :: rest)) (operand power rest) :=
    ((affordable power rest).imp fun h => Nat.lt_of_le_of_lt h (weight_lt_cons t rest)).frame 1
  cases primaryStart tokens with
  | literal ht rest =>
    rw [readPrimary_literal ht]
    exact (Affordable.call rest.length).bind fun _ => .pure (Nat.le_refl _)
  | group rest =>
    rw [readPrimary_group]
    refine (hinside _ rest 0).bind fun inner => ?_
    refine ((affordable_passGroupEnd inner.rest _).frame 1).bind fun closed => ?_
    exact .pure (Nat.le_succ _)
  | emptyArray rest =>
    rw [readPrimary_emptyArray]
    exact (Affordable.call (rest.length + 1)).bind fun _ => .pure (Nat.le_succ _)
  | @array rest hrest =>
    rw [readPrimary_array hrest]
    refine (((affordable_readElements affordable rest).imp ?_).frame 1).bind fun items => ?_
    · exact fun h => Nat.lt_of_le_of_lt h (weight_lt_cons _ rest)
    · exact (Affordable.call items.rest.length).bind fun _ => .pure (Nat.le_refl _)
  | unary ho rest =>
    rw [readPrimary_unary ho]
    refine (hinside _ rest _).bind fun inner => ?_
    exact (Affordable.call inner.rest.length).bind fun _ => .pure (Nat.le_refl _)
  | die rest =>
    rw [readPrimary_die]
    refine (hinside _ rest sidesPower).bind fun sides => ?_
    exact (Affordable.call sides.rest.length).bind fun _ => .pure (Nat.le_refl _)
  | fails e hdeep hfails =>
    rw [hfails]
    exact .throw fun h => absurd h hdeep

theorem affordable_readExtension (affordable : operand.Affordable depth) (e : Extension)
    (tokens : List Token) :
    Affordable (tokens.length + 1) (fun read => read.rest.length) (depth ≤ weight tokens)
      (readExtension Actions.counting operand () e tokens) := by
  cases e with
  | suffix o =>
    exact (Affordable.call tokens.length).bind fun _ => .pure (Nat.le_refl _)
  | explode =>
    refine ((affordable 0 tokens).frame 1).bind fun inner => ?_
    refine ((affordable_passOver .parenBang inner.rest _).frame 1).bind fun closed => ?_
    exact (Affordable.call closed.rest.length).bind fun _ => .pure (Nat.le_refl _)
  | index =>
    refine ((affordable 0 tokens).frame 1).bind fun inner => ?_
    refine ((affordable_passOver .closeBracket inner.rest _).frame 1).bind fun closed => ?_
    exact (Affordable.call closed.rest.length).bind fun _ => .pure (Nat.le_refl _)
  | binary _ _ _ | dice | keep _ =>
    refine ((affordable _ tokens).frame 1).bind fun inner => ?_
    exact (Affordable.call inner.rest.length).bind fun _ => .pure (Nat.le_refl _)

theorem affordable_readExtensions (affordable : operand.Affordable depth) (power : Nat)
    {bound : Nat} (left : Reading Unit bound) :
    Affordable left.rest.length (fun read => read.rest.length) (depth < weight left.rest)
      (readExtensions Actions.counting operand power left) := by
  obtain ⟨v, tokens, hlt⟩ := left
  match tokens with
  | [] =>
    rw [readExtensions_nil]
    exact .pure (Nat.le_refl _)
  | t :: rest =>
    cases ht : t.extension? with
    | none =>
      rw [readExtensions_none hlt ht]
      split
      · exact .pure (Nat.le_refl _)
      · exact .throw fun h => absurd h t.misplaced_ne_tooDeep
    | some e =>
      by_cases he : power ≤ e.power
      · rw [readExtensions_some hlt ht he]
        refine ((affordable_readExtension affordable e rest).imp ?_).bind fun wider => ?_
        · exact fun h => Nat.lt_of_le_of_lt h (weight_lt_cons t rest)
        · have hlighter := Nat.lt_of_lt_of_le wider.lighter (weight_lt_cons t rest)
          refine (affordable_readExtensions affordable power
            ⟨wider.value, wider.rest, wider.lighter_behind hlt⟩).imp fun h => ?_
          exact Nat.lt_trans h hlighter
      · rw [readExtensions_of_stops ((stops_cons_of_extension rest ht).mpr (Nat.not_le.mp he))]
        exact .pure (Nat.le_refl _)
termination_by weight left.rest

end Parts

/-- **An operand that is read leaves a token over for each call that has been made.** -/
theorem affordable_readOperand (depth : Nat) :
    OperandReader.Affordable (readOperand Actions.counting depth) depth := by
  induction depth with
  | zero => exact fun power tokens => .throw fun _ => Nat.zero_le _
  | succ depth ih =>
    intro power tokens
    refine (affordable_readPrimary ih tokens).bind fun first => ?_
    refine (affordable_readExtensions ih power first).imp fun h => ?_
    exact Nat.lt_trans h first.lighter

theorem affordable_readTokens (depth : Nat) (tokens : List Token) :
    Affordable tokens.length (fun _ => 0) (depth ≤ weight tokens)
      (Actions.counting.readTokens depth tokens) := by
  refine (affordable_readOperand depth 0 tokens).bind fun whole => ?_
  split
  · exact .pure (Nat.zero_le _)
  · exact .throw fun h => absurd h (Token.misplaced_ne_tooDeep _)

/-! ## 4. Texts -/

/-- Reading tokens is following an outline with no more calls than there are tokens. -/
theorem exists_outline (depth : Nat) {tokens : List Token} (hend : .endOfInput ∉ tokens) :
    ∃ o : Outline, o.steps.length ≤ tokens.length ∧
      (o.ending = some .tooDeep → depth ≤ weight tokens) ∧
      ∀ (m : Type → Type) [Monad m] [LawfulMonad m] (α : Type) (acts : Actions m α),
        OptionT.lift (acts.readTokens depth tokens).run = acts.follow o := by
  obtain ⟨o, hfollow⟩ : ∃ o : Outline, ∀ (m : Type → Type) [Monad m] [LawfulMonad m] (α : Type)
      (acts : Actions m α), OptionT.lift (acts.readTokens depth tokens).run = acts.follow o := by
    rcases readTokens_outcome depth hend with ⟨p, -, -, hread⟩ | ⟨done, e, hread⟩
    · refine ⟨.accepted p.tree, fun m _ _ α acts => ?_⟩
      rw [hread m α acts, acts.follow_accepted]
      simp
    · refine ⟨.broken done e, fun m _ _ α acts => ?_⟩
      rw [hread m α acts, acts.follow_broken]
      simp [ExceptT.run_bind]
  have haffordable := affordable_readTokens depth tokens
  obtain ⟨hcalls, hending⟩ := Outline.run_counting (hfollow (StateM Nat) Unit .counting) 0
  refine ⟨o, ?_, fun hdeep => ?_, hfollow⟩
  · rcases hrun : (Actions.counting.readTokens depth tokens).run.run 0 with ⟨e | v, calls⟩
    · have hle := (haffordable.of_error hrun).1
      rw [hrun] at hcalls
      omega
    · have hle := haffordable.of_ok hrun
      rw [hrun] at hcalls
      omega
  · exact (haffordable.of_error (Prod.ext (hending _ hdeep) rfl)).2 rfl

/-- **Reading ends, makes no more calls than there are tokens, and uses up tokens in every turn.**
For each text there is one outline, with at most as many calls as the text has tokens, that reading
the text follows for all actions and without a bound on nesting: with any number of levels that is
greater than the weight of the tokens, so that these are never used up.  With fewer levels reading
follows an outline that is bounded in the same way.  Each operand that is read has used up tokens,
and so has each turn that goes on, of the loop behind an operand and of that within an array
literal. -/
theorem reading_ends_within_tokens :
    (∀ text : String, ∃ o : Outline, o.steps.length ≤ (Token.ofText text).length ∧
      o.ending ≠ some .tooDeep ∧
      ∀ depth, weight (Token.ofText text) < depth →
        ∀ (m : Type → Type) [Monad m] [LawfulMonad m] (α : Type) (acts : Actions m α),
          OptionT.lift (acts.readTokens depth (Token.ofText text)).run = acts.follow o) ∧
    (∀ (text : String) (depth : Nat), ∃ o : Outline,
      o.steps.length ≤ (Token.ofText text).length ∧
      ∀ (m : Type → Type) [Monad m] [LawfulMonad m] (α : Type) (acts : Actions m α),
        OptionT.lift (acts.readTokens depth (Token.ofText text)).run = acts.follow o) ∧
    ∀ (ε σ α : Type) (acts : Actions (EStateM ε σ) α) (depth : Nat),
      let operand := readOperand acts depth
      (∀ (power : Nat) (tokens : List Token) (s s' : σ) (read : Reading α (weight tokens)),
        (operand power tokens).run s = .ok (.ok read) s' → Consumes tokens read.rest) ∧
      (∀ (power bound : Nat) (left : Reading α bound),
        readExtensions acts operand power left = (do
          match ← extensionTurn acts operand power left with
          | .done last => return last
          | .yield next => readExtensions acts operand power next) ∧
        ∀ (s s' : σ) (next : Reading α bound),
          (extensionTurn acts operand power left).run s = .ok (.ok (.yield next)) s' →
            Consumes left.rest next.rest) ∧
      ∀ tokens : List Token,
        readElements operand tokens = (do
          match ← elementTurn operand tokens with
          | .done last => return ⟨[last.value], last.rest, last.lighter⟩
          | .yield first => do
            let more ← readElements operand first.rest
            return ⟨first.value :: more.value, more.rest,
              Nat.lt_trans more.lighter first.lighter⟩) ∧
        ∀ (s s' : σ) (first : Reading α (weight tokens)),
          (elementTurn operand tokens).run s = .ok (.ok (.yield first)) s' →
            Consumes tokens first.rest := by
  refine ⟨fun text => ?_, fun text depth => ?_, fun ε σ α acts depth => ?_⟩
  · have hend := endOfInput_notMem_ofText text
    obtain ⟨o, hcalls, hdeep, hfollow⟩ := exists_outline (weight (Token.ofText text) + 1) hend
    refine ⟨o, hcalls, fun h => ?_, fun depth hdepth m _ _ α acts => ?_⟩
    · exact absurd (hdeep h) (Nat.not_succ_le_self _)
    · rw [← hfollow m α acts, Actions.readTokens, Actions.readTokens,
        readOperand_congr_depth hdepth (Nat.lt_succ_self _)]
  · obtain ⟨o, hcalls, -, hfollow⟩ := exists_outline depth (endOfInput_notMem_ofText text)
    exact ⟨o, hcalls, hfollow⟩
  · have consuming : OperandReader.Consuming (readOperand acts depth) :=
      consuming_readOperand acts depth
    refine ⟨fun _ _ _ _ _ h => consuming h, fun power bound left => ⟨?_, fun _ _ _ h => ?_⟩,
      fun tokens => ⟨?_, fun _ _ _ h => ?_⟩⟩
    · exact readExtensions_eq_turns acts _ power left
    · exact consumes_of_extensionTurn consuming h
    · exact readElements_eq_turns _ tokens
    · exact consumes_of_elementTurn consuming h

end DiceNotation
