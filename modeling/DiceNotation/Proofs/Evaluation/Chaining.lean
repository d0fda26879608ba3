/-
# Chained assignments

Assignments associate to the right, and an assignment gives back the place that it has set.  In
`a = b = (e)` the value of `e` is therefore made once, for `b`; what is assigned to `a` is what is
read at `b` at that time, which is the same value.  So the variables of a chain are given the value
one after the other, the last one first, and each of them while the ones behind it hold it already
(`Session.putAll`).

The chain is a text.  That its tokens are a phrase is said by recursion on the names, like the text
itself (`chainText`, `chainPhrase`, `Tree.chain`); that what stands between the parentheses is still
the expression that it is by itself is `tokensOf_enclosed`.
-/
import DiceNotation.Proofs.Evaluation.Faults
import DiceNotation.Proofs.Evaluation.Play
import DiceNotation.Proofs.Grammar.FirstError
import DiceNotation.Proofs.Token.Enclosing
import DiceNotation.Proofs.Variables.Update

namespace DiceNotation

/-! ## 1. The chain as a text, as a phrase and as a tree -/

/-- The words that are names of variables: letters and underscores, but not the word for dice. -/
def IsName (name : String) : Prop := (Token.word name).Legible ∧ name ≠ dieWord

/-- The text `n₁ = n₂ = … = nₖ = (e)`. -/
def chainText (e : String) : List String → String
  | [] => "(" ++ e ++ ")"
  | name :: names => name ++ " = " ++ chainText e names

def chainPhrase (p : Phrase) : List String → Phrase
  | [] => .group p
  | name :: names => .extended (.literal (.word name)) (.binary .assign (chainPhrase p names))

def Tree.chain (t : Tree) : List String → Tree
  | [] => t
  | name :: names => .binary (.literal (.word name)) (t.chain names) .assign

theorem tree_chainPhrase (p : Phrase) (names : List String) :
    (chainPhrase p names).tree = p.tree.chain names := by
  induction names with
  | nil => rfl
  | cons name names ih =>
    rw [chainPhrase, Phrase.tree, Tail.onto, ih]
    rfl

/-- A chain is an operand of the power that an assignment demands on its right, and of less. -/
theorem Phrase.Fits.chain {p : Phrase} (h : p.Fits 0) {names : List String}
    (hnames : ∀ name ∈ names, IsName name) {power : Nat} (hpower : power ≤ 4) :
    (chainPhrase p names).Fits power := by
  induction names generalizing power with
  | nil => exact .group h
  | cons name names ih =>
    obtain ⟨hname, hnames⟩ := List.forall_mem_cons.mp hnames
    have hliteral : (Token.word name).isLiteral = true := by simpa [Token.isLiteral] using hname.2
    have hright : (chainPhrase p names).Fits 3 := ih hnames (by decide)
    exact .extended (.literal hliteral) (.binary (o := .assign) rfl hright) hpower
      (by simp [Phrase.openPowers])

/-- The tokens of a chain around those of its expression. -/
def chainTokens (tokens : List Token) : List String → List Token
  | [] => .op .openParen :: (tokens ++ [.op .closeParen])
  | name :: names => .word name :: .op .assign :: chainTokens tokens names

theorem Spells.chain {p : Phrase} {tokens : List Token} (h : Spells p.words tokens [])
    (names : List String) : Spells (chainPhrase p names).words (chainTokens tokens names) [] := by
  induction names with
  | nil => exact .word ((h.behind _).append (.word .nil))
  | cons name names ih => exact .word (.word ih)

theorem ofText_chainText {e : String} (hwell : ∀ t ∈ Token.ofText e, t.isMalformed = false)
    {names : List String} (hnames : ∀ name ∈ names, IsName name) :
    Token.ofText (chainText (Token.upToEnd e) names) = chainTokens (Token.ofText e) names := by
  induction names with
  | nil =>
    have henclosed := tokensOf_enclosed hwell
    simpa [chainText, chainTokens, ofText_eq_tokensOf] using henclosed
  | cons name names ih =>
    obtain ⟨hname, hnames⟩ := List.forall_mem_cons.mp hnames
    have htext : (chainText (Token.upToEnd e) (name :: names)).toList =
        name.toList ++ ' ' :: (Op.assign.text.toList ++
          ' ' :: (chainText (Token.upToEnd e) names).toList) := by
      simp [chainText, Op.text]
    rw [ofText_eq_tokensOf, htext, tokensOf_word hname.1.1 hname.1.2 (by simp; decide),
      tokensOf_space rfl, tokensOf_op_blank, ← ofText_eq_tokensOf, ih hnames,
      String.ofList_toList, chainTokens]

theorem Phrase.Derives.chain {p : Phrase} {e : String} (h : p.Derives (Token.ofText e))
    {names : List String} (hnames : ∀ name ∈ names, IsName name) :
    (chainPhrase p names).Derives (Token.ofText (chainText (Token.upToEnd e) names)) := by
  have hwell := h.2.tokens_wellFormed h.1.words_wellFormed (List.forall_mem_nil _)
  rw [ofText_chainText hwell hnames]
  exact ⟨h.1.chain hnames (Nat.zero_le 4), h.2.chain names⟩

/-- A phrase that is not read nests too deeply, and nothing else is wrong with it. -/
theorem Phrase.Derives.nesting_le {p : Phrase} {tokens : List Token} (h : p.Derives tokens)
    (hend : .endOfInput ∉ tokens) {depth : Nat}
    (hlimit : Tree.ofTokens depth tokens ≠ .error .tooDeep) : p.nesting ≤ depth := by
  cases hread : Tree.ofTokens depth tokens with
  | ok t =>
    obtain ⟨hiff, hunique, -⟩ := accepts_iff_derives depth hend
    obtain ⟨q, hq, hnest⟩ := hiff.mp ⟨t, hread⟩
    rwa [hunique p q h hq]
  | error e =>
    have hdeep : e ≠ .tooDeep := by
      rintro rfl
      exact hlimit hread
    -- with enough levels it would be read
    have hmore := Tree.ofTokens_error_mono hread hdeep (Nat.le_max_left depth p.nesting)
    have hok := tree_ofTokens_eq_ok h (Nat.le_max_right depth p.nesting)
    exact absurd (hmore.symm.trans hok) nofun

/-! ## 2. The variables of a chain -/

/-- The session with a value given to some variables, to the last one first. -/
def Session.putAll (s : Session) (v : Value) : List String → Session
  | [] => s
  | name :: names => { s.putAll v names with vars := (s.putAll v names).vars.put name v }

namespace Session

variable (s : Session) (v : Value)

theorem tray_putAll (names : List String) : (s.putAll v names).tray = s.tray := by
  induction names with
  | nil => rfl
  | cons name names ih => exact ih

theorem value?_putAll (names : List String) (other : String) :
    (s.putAll v names).vars.value? other =
      if other ∈ names then some v else s.vars.value? other := by
  induction names with
  | nil => rw [if_neg List.not_mem_nil, putAll]
  | cons name names ih =>
    rw [putAll, Variables.value?_put, ih]
    by_cases hname : other = name
    · rw [if_pos hname, if_pos (hname ▸ List.mem_cons_self)]
    · rw [if_neg hname]
      simp [hname]

/-- The names that are new come to stand behind the others, each where it is set first. -/
theorem names_putAll (names : List String) :
    (s.putAll v names).vars.names =
      s.vars.names ++ (names.reverse.filter (· ∉ s.vars.names)).eraseDups := by
  induction names with
  | nil => simp [putAll]
  | cons name names ih =>
    rw [putAll, Variables.names_put, ih, List.reverse_cons, List.filter_append,
      List.eraseDups_append]
    by_cases hold : name ∈ s.vars.names
    · simp [hold]
    · by_cases hset : name ∈ names
      · simp [hold, hset, List.removeAll]
      · simp [hold, hset, List.removeAll, List.eraseDups_cons]

end Session

/-! ## 3. Evaluating a chain -/

/-- An assignment to a variable, and what it gives back. -/
theorem assign_place_eq (name : String) (right : Operand) :
    (Meaning.binary (.place ⟨name, []⟩) right .assign >>= Operand.forceAll) =
      right.forceAll >>= fun v =>
        inVariables (Variables.assign ⟨name, []⟩ v) >>= fun _ => readPlace ⟨name, []⟩ := by
  simp [Meaning.binary, Op.arithmetic?, Meaning.assign, Operand.forceAll]

/-- A variable that is given a value has it. -/
theorem assign_then_read {v : Value} (hv : v.isWritable = true) (name : String) (s : Session) :
    (inVariables (Variables.assign ⟨name, []⟩ v) >>= fun _ => readPlace ⟨name, []⟩) s =
      .ok v { s with vars := s.vars.put name v } := by
  have hassign : inVariables (Variables.assign ⟨name, []⟩ v) s =
      .ok () { s with vars := s.vars.put name v } := by
    refine inVariables_eq_ok_iff.mpr ⟨_, ?_, rfl⟩
    simp [Variables.assign, Variables.set, hv]
  have hvalue : (s.vars.put name v).value? name = some v := by
    rw [Variables.value?_put, if_pos rfl]
  have hget : (s.vars.put name v).get ⟨name, []⟩ = .ok v :=
    Variables.get_eq_of_value? (q := ⟨name, []⟩) hvalue
  refine bind_eq_ok_iff.mpr ⟨(), _, hassign, ?_⟩
  rw [readPlace_apply, hget]
  rfl

/-- **A chain is evaluated by evaluating its expression once**, and by giving the value to the
variables from the last one to the first. -/
theorem fold_chain {t : Tree} {s s₂ : Session} {v : Value} (hv : v.isWritable = true)
    (h : (Actions.evaluation.fold t >>= Operand.forceAll) s = .ok v s₂) (names : List String) :
    (Actions.evaluation.fold (t.chain names) >>= Operand.forceAll) s =
      .ok v (s₂.putAll v names) := by
  induction names with
  | nil => exact h
  | cons name names ih =>
    have hfold : (Actions.evaluation.fold (t.chain (name :: names)) >>= Operand.forceAll) =
        (Actions.evaluation.fold (t.chain names) >>= Operand.forceAll) >>= fun v =>
          inVariables (Variables.assign ⟨name, []⟩ v) >>= fun _ => readPlace ⟨name, []⟩ := by
      simp only [Tree.chain, Actions.fold, bind_assoc, ← assign_place_eq]
      rfl
    rw [hfold]
    exact bind_eq_ok_iff.mpr ⟨v, _, ih, assign_then_read hv name _⟩

/-- What evaluating a text has come to, if it has a value. -/
theorem evaluate_eq_ok_iff {depth : Nat} {text : String} {t : Tree}
    (ht : Tree.ofText depth text = .ok t) {s s' : Session} {v : Value} :
    evaluate depth text s = .ok v s' ↔
      (Actions.evaluation.fold t >>= Operand.forceAll) s = .ok v s' ∧ v.isWritable = true := by
  have hsplit : evaluate depth text = (Actions.evaluation.fold t >>= Operand.forceAll) >>= fun w =>
      if w.isWritable then pure w else throw .numeralTooLong := by
    rw [evaluate, evaluateLazily_of_tree ht, bind_assoc]
  rw [hsplit, bind_eq_ok_iff]
  constructor
  · rintro ⟨w, s₁, hw, hlast⟩
    split at hlast
    · next hwritable =>
      cases hlast
      exact ⟨hw, hwritable⟩
    · cases hlast
  · rintro ⟨hw, hwritable⟩
    exact ⟨v, s', hw, by rw [if_pos hwritable]; rfl⟩

/-- A text that has a value is a phrase. -/
theorem exists_derives_of_evaluate {depth : Nat} {text : String} {s s' : Session} {v : Value}
    (h : evaluate depth text s = .ok v s') : ∃ p : Phrase, p.Derives (Token.ofText text) ∧
      Tree.ofText depth text = .ok p.tree := by
  rcases readTokens_outcome depth (endOfInput_notMem_ofText text) with
    ⟨p, hp, hnest, -⟩ | ⟨done, e, hread⟩
  · exact ⟨p, hp, tree_ofTokens_eq_ok hp hnest⟩
  · have hbreaks : (Actions.evaluation.readText depth text).run =
        (fun _ => .error e) <$> Actions.evaluation.foldAll done := by
      simp [Actions.readText, hread Evaluating Operand Actions.evaluation, ExceptT.run_bind]
    exact absurd h (evaluate_ne_ok hbreaks s v s')

/-- **Chained assignments.**  Evaluating `n₁ = n₂ = … = nₖ = (e)` succeeds with the value of `e`, if
it does not nest too deeply.  It makes the draws that evaluating `e` makes, gives the value to all
of the variables and leaves the others as `e` has left them; and of the names that are new that of
`nₖ` comes first and that of `n₁` last, behind those that are there already.  The expression is the
text up to a NUL that ends it. -/
theorem evaluate_chain {depth : Nat} {e : String} {s s₂ : Session} {v : Value}
    (he : evaluate depth e s = .ok v s₂) {names : List String}
    (hnames : ∀ name ∈ names, IsName name)
    (hlimit : Tree.ofText depth (chainText (Token.upToEnd e) names) ≠ .error .tooDeep) :
    ('\x00' ∉ e.toList → Token.upToEnd e = e) ∧
    ∃ s₃, evaluate depth (chainText (Token.upToEnd e) names) s = .ok v s₃ ∧
      s₃.tray = s₂.tray ∧
      (∀ name ∈ names, s₃.vars.value? name = some v) ∧
      (∀ name, name ∉ names → s₃.vars.value? name = s₂.vars.value? name) ∧
      s₃.vars.names =
        s₂.vars.names ++ (names.reverse.filter (· ∉ s₂.vars.names)).eraseDups := by
  obtain ⟨p, hp, htree⟩ := exists_derives_of_evaluate he
  obtain ⟨hrun, hwritable⟩ := (evaluate_eq_ok_iff htree).mp he
  have hchain := hp.chain hnames
  have hnest := hchain.nesting_le (endOfInput_notMem_ofText _) hlimit
  have hchainTree : Tree.ofText depth (chainText (Token.upToEnd e) names) =
      .ok (p.tree.chain names) := by
    rw [← tree_chainPhrase]
    exact tree_ofTokens_eq_ok hchain hnest
  refine ⟨Token.upToEnd_eq_self, s₂.putAll v names, ?_, s₂.tray_putAll v names, ?_, ?_,
    s₂.names_putAll v names⟩
  · exact (evaluate_eq_ok_iff hchainTree).mpr ⟨fold_chain hwritable hrun names, hwritable⟩
  · intro name hname
    rw [Session.value?_putAll, if_pos hname]
  · intro name hname
    rw [Session.value?_putAll, if_neg hname]

/-- `a = b = a = (b = 2; 1d6 + b)`: the die is rolled once, `b` is set by the expression and then
by the chain, and `a`, which is set twice, stands behind it. -/
theorem evaluate_chain_repeated :
    let e := "b = 2; 1d6 + b"
    let names := ["a", "b", "a"]
    let s := Session.start (.script [4, 0])
    ∃ s₂ s₃, evaluate 100 e s = .ok (.int 7) s₂ ∧ (∀ name ∈ names, IsName name) ∧
      Tree.ofText 100 (chainText (Token.upToEnd e) names) ≠ .error .tooDeep ∧
      evaluate 100 (chainText e names) s = .ok (.int 7) s₃ ∧ s₃.tray = s₂.tray ∧
      s₃.vars.value? "b" = some (.int 7) ∧ s₃.vars.names = ["b", "a"] := by
  intro e names s
  let t : Tree := .binary (.binary (.literal (.word "b")) (.literal (.number 2)) .assign)
    (.binary (.dice (some (.literal (.number 1))) (.literal (.number 6))) (.literal (.word "b"))
      .plus) .semicolon
  have ht : Tree.ofText 100 e = .ok t := by cbv
  obtain ⟨s₂, hrun⟩ : ∃ s₂, evaluate 100 e s = .ok (.int 7) s₂ := by
    rw [evaluate, evaluateLazily_of_tree ht, ← valueOf?_eq_some_iff]
    decide +kernel
  have hset : s₂.vars.names = ["b"] := by
    have hsession : (sessionOf (evaluate 100 e s)).vars.names = ["b"] := by
      rw [evaluate, evaluateLazily_of_tree ht]
      decide +kernel
    rwa [hrun] at hsession
  have hnames : ∀ name ∈ names, IsName name := by
    simp [names, IsName, Token.Legible, dieWord]
    decide
  have htext : Token.upToEnd e = e := Token.upToEnd_eq_self (by decide)
  have hlimit : Tree.ofText 100 (chainText (Token.upToEnd e) names) ≠ .error .tooDeep := by
    have hchain : Tree.ofText 100 (chainText e names) = .ok (t.chain names) := by cbv
    rw [htext, hchain]
    intro hdeep
    cases hdeep
  obtain ⟨-, s₃, hchain, htray, hvalue, -, horder⟩ := evaluate_chain hrun hnames hlimit
  rw [htext] at hchain
  rw [hset] at horder
  exact ⟨s₂, s₃, hrun, hnames, hlimit, hchain, htray, hvalue "b" (by decide), horder⟩

end DiceNotation
