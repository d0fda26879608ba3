/-
# The size of a reply

A message holds `messageLimit` characters.  The reply to a result is cut to that size, however much
the result grows as the chat escapes it, and the reply to an evaluation whose time is over is short
whatever the time was (`length_haltedMessage_le`).  The reply to a text that cannot be evaluated is
sent as it is.  Its message quotes the text, or an integer that the text computes, so it can be of
any length: `roll_cut_unless_refused` says how long the reply is, and that it has the right size
only if it happens to fit.

A reply that is too long is no cut reply of any other text either: the note that stands at the end
of a cut reply ends with a `)`, and the reply to an error with a backtick.
-/
import DiceNotation.Proofs.Chat.CodeSpans
import DiceNotation.Proofs.Decimal.Brief
import DiceNotation.Proofs.Evaluation.Chaining
import DiceNotation.Supervisor

namespace DiceNotation

/-! ## 1. Cutting -/

/-- `CutToSize full reply`: the reply is a text if that fits into a message, and if not it is what
does fit, with a note of how many characters are missing. -/
def CutToSize (full reply : String) : Prop :=
  (full.length ≤ messageLimit ∧ reply = full) ∨
    (messageLimit < full.length ∧
      reply = String.ofList (full.toList.take messageLimit) ++
        truncationNote ((full.length - messageLimit : Nat) : Int))

theorem cutToSize_truncate (full : String) : CutToSize full (truncate full) := by
  unfold truncate
  split
  · next hfits => exact .inl ⟨by exact_mod_cast hfits, rfl⟩
  · next hlong =>
    have hlt : messageLimit < full.length := by exact_mod_cast not_le.mp hlong
    refine .inr ⟨hlt, ?_⟩
    rw [Nat.cast_sub hlt.le]
    rfl

theorem toList_truncationNote (missing : Int) :
    ∃ front, (truncationNote missing).toList = front ++ [')'] := by
  have htext : truncationNote missing =
      " ... (message too long, truncated " ++ toString missing ++ " characters.)" := rfl
  have hend : " characters.)".toList = " characters.".toList ++ [')'] := rfl
  rw [htext, String.toList_append, hend, ← List.append_assoc]
  exact ⟨_, rfl⟩

/-! ## 2. Error replies -/

/-- The characters of an error reply that are there whatever the message is. -/
def errorFrame : Nat := 24

/-- The number of characters that a message takes up in a reply. -/
def shownLength (message : String) : Nat :=
  message.length + message.toList.count backtick +
    if message.toList.head? = some backtick then 1 else 0

theorem length_errorReply (message : String) :
    (errorReply message).length = errorFrame + shownLength message := by
  have hfront : "evaluation error:\n".length = 18 := rfl
  have hfence : (codeFence true).length = 3 := rfl
  have hframe : errorFrame = 24 := rfl
  have hshown : (breakBackticks message.toList).length = shownLength message := by
    rw [length_breakBackticks, String.length_toList, shownLength]
  have hspan : (codeSpan message true).length = 3 + shownLength message + 3 := by
    rw [← String.length_toList, toList_codeSpan, List.length_append, List.length_append, hshown,
      hfence]
  unfold errorReply
  rw [String.length_append, hfront, hspan]
  omega

theorem toList_errorReply (message : String) :
    ∃ front, (errorReply message).toList = front ++ [backtick] := by
  have hfence : codeFence true = codeFence false ++ [backtick] := rfl
  have hreply : (errorReply message).toList =
      "evaluation error:\n".toList ++ (codeSpan message true).toList := String.toList_append
  refine ⟨"evaluation error:\n".toList ++
    (codeFence true ++ breakBackticks message.toList ++ codeFence false), ?_⟩
  rw [hreply, toList_codeSpan, List.append_assoc "evaluation error:\n".toList,
    List.append_assoc _ (codeFence false), ← hfence]

/-- An error reply ends with no note, so it is cut to size only if it is short. -/
theorem exists_cutToSize_errorReply_iff (message : String) :
    (∃ full, CutToSize full (errorReply message)) ↔
      errorFrame + shownLength message ≤ messageLimit := by
  rw [← length_errorReply]
  constructor
  · rintro ⟨full, ⟨hfits, hsame⟩ | ⟨-, hcut⟩⟩
    · rwa [hsame]
    · obtain ⟨start, hnote⟩ := toList_truncationNote ((full.length - messageLimit : Nat) : Int)
      obtain ⟨front, hreply⟩ := toList_errorReply message
      rw [hcut, String.toList_append, hnote, ← List.append_assoc] at hreply
      have hsame : [')'] = [backtick] := (List.append_inj' hreply rfl).2
      exact absurd hsame (by decide)
  · intro hfits
    exact ⟨errorReply message, .inl ⟨hfits, rfl⟩⟩

/-! ## 3. Jobs -/

/-- A name that stands for nothing cannot be evaluated. -/
theorem evaluate_undefined {depth : Nat} (hdepth : 0 < depth) {name : String} (hname : IsName name)
    {s : Session} (hvalue : s.vars.value? name = none) :
    evaluate depth name s = .error (.error (.undefinedVariable name)) s := by
  have htokens : Token.ofText name = [.word name] := by
    have hone : tokensOf (name.toList ++ []) = .word (String.ofList name.toList) :: tokensOf [] :=
      tokensOf_word hname.1.1 hname.1.2 nofun
    rw [List.append_nil, String.ofList_toList, tokensOf_nil] at hone
    rw [ofText_eq_tokensOf, hone]
  have hliteral : (Token.word name).isLiteral = true := by simpa [Token.isLiteral] using hname.2
  have hderives : (Phrase.literal (.word name)).Derives (Token.ofText name) := by
    rw [htokens]
    exact ⟨.literal hliteral, .word .nil⟩
  have ht : Tree.ofText depth name = .ok (.literal (.word name)) :=
    tree_ofTokens_eq_ok hderives hdepth
  have hget : s.vars.get ⟨name, []⟩ = .error (.undefinedVariable name) := by
    simp only [Variables.value?] at hvalue
    simp only [Variables.get, hvalue]
  have hread : readPlace ⟨name, []⟩ s = .error (.error (.undefinedVariable name)) s := by
    rw [readPlace_apply, hget]
    rfl
  rw [evaluate, evaluateLazily_of_tree ht]
  change EStateM.bind (readPlace ⟨name, []⟩) _ s = _
  rw [EStateM.bind, hread]

namespace Job

variable {depth : Nat} {source : Source} {text : String} {s : Session}

/-- A job without a seed whose text has a value. -/
theorem run_of_ok {v : Value} (h : evaluate depth text (Session.start source) = .ok v s) :
    run depth source { text } = .answered v.text := by
  have hanswer : answer depth source { text } = .ok v.text := by
    unfold answer
    dsimp only
    rw [h]
    rfl
  rw [run, hanswer]

/-- A job without a seed whose text is at fault. -/
theorem run_of_error {e : EvalError}
    (h : evaluate depth text (Session.start source) = .error (.error e) s) :
    run depth source { text } = .refused e.message := by
  have hanswer : answer depth source { text } = .error (.error e) := by
    unfold answer
    dsimp only
    rw [h]
  rw [run, hanswer]

end Job

/-! ## 4. Replies of a supervisor -/

namespace Supervisor

variable {s : Supervisor} {chat : Chat} {text : String} {seed : Option Int}
  {record record' : List PoolEvent} {reply : String}

/-- What a supervisor replies, by what has become of the job. -/
theorem roll_eq (s : Supervisor) (chat : Chat) (text : String) (seed : Option Int)
    (record : List PoolEvent) :
    s.roll chat text seed record =
      match s.work { text, seed } with
      | .answered result => chat.reply text result (record ++ [.submitted s.timeout])
      | .refused message => .ok (errorReply message) (record ++ [.submitted s.timeout])
      | .broken f => .error (.broken f) (record ++ [.submitted s.timeout])
      | .overtime => .ok (haltedMessage (some s.timeout)) (record ++ [.submitted s.timeout]) := by
  have hevaluate : s.evaluate { text, seed } record =
      settle s.timeout (s.work { text, seed }) (record ++ [.submitted s.timeout]) := rfl
  rw [roll, hevaluate]
  cases s.work { text, seed } <;> rfl

theorem roll_of_refused {message : String} (h : s.work { text, seed } = .refused message) :
    s.roll chat text seed record = .ok (errorReply message) (record ++ [.submitted s.timeout]) := by
  rw [roll_eq, h]

theorem reply_eq_ok_iff {result : String} :
    chat.reply text result record = .ok reply record' ↔
      ∃ description, describe chat.depth text = .ok description ∧
        truncate (resultLine chat.escape description result) = reply ∧ record = record' := by
  unfold Chat.reply
  cases describe chat.depth text with
  | ok description =>
    constructor
    · intro h
      obtain ⟨hreply, hrecord⟩ := EStateM.Result.ok.inj h
      exact ⟨description, rfl, hreply, hrecord⟩
    · rintro ⟨_, hdescription, rfl, rfl⟩
      cases hdescription
      rfl
  | error e =>
    constructor
    · intro h
      cases h
    · rintro ⟨_, hdescription, -⟩
      cases hdescription

/-- **Replies are cut to size, but for those to errors.**  In any chat, the reply to a result is the
line that shows it, escaped, cut to the size of a message; the reply to an evaluation whose time is
over fits.  The reply to an error is sent whole, so it has the right size only if the message with
its backticks broken up, and the frame around it, fit into a message. -/
theorem roll_cut_unless_refused (h : s.roll chat text seed record = .ok reply record') :
    (∃ result description, s.work { text, seed } = .answered result ∧
      describe chat.depth text = .ok description ∧
      CutToSize (resultLine chat.escape description result) reply) ∨
    (s.work { text, seed } = .overtime ∧ reply = haltedMessage (some s.timeout) ∧
      reply.length ≤ messageLimit) ∨
    ∃ message, s.work { text, seed } = .refused message ∧ reply = errorReply message ∧
      reply.length = errorFrame + shownLength message ∧
      ((∃ full, CutToSize full reply) ↔ errorFrame + shownLength message ≤ messageLimit) := by
  rw [roll_eq] at h
  cases hwork : s.work { text, seed } with
  | answered result =>
    rw [hwork] at h
    obtain ⟨description, hdescription, rfl, -⟩ := reply_eq_ok_iff.mp h
    exact .inl ⟨result, description, rfl, hdescription, cutToSize_truncate _⟩
  | refused message =>
    rw [hwork] at h
    obtain ⟨rfl, -⟩ := EStateM.Result.ok.inj h
    exact .inr (.inr ⟨message, rfl, rfl, length_errorReply message,
      exists_cutToSize_errorReply_iff message⟩)
  | broken f =>
    rw [hwork] at h
    cases h
  | overtime =>
    rw [hwork] at h
    obtain ⟨rfl, -⟩ := EStateM.Result.ok.inj h
    exact .inr (.inl ⟨rfl, rfl, (length_haltedMessage_le s.timeout).trans (by decide)⟩)

/-- `3+4` is answered, and the answer, in which nothing has to be escaped, fits into a message. -/
theorem roll_cut_unless_refused_sum :
    let s : Supervisor := { work := Job.run 100 (.script []), timeout := 10 }
    let chat : Chat := { depth := 100, escape := id }
    let reply := "``(3 + 4)`` ⇒ **7**"
    s.roll chat "3+4" none [] = .ok reply [.submitted 10] ∧
      CutToSize (resultLine chat.escape "(3 + 4)" "7") reply := by
  intro s chat reply
  let t : Tree := .binary (.literal (.number 3)) (.literal (.number 4)) .plus
  have ht : Tree.ofText 100 "3+4" = .ok t := by cbv
  have hdescription : describe 100 "3+4" = .ok "(3 + 4)" := by cbv
  obtain ⟨s₂, hrun⟩ :
      ∃ s₂, DiceNotation.evaluate 100 "3+4" (Session.start (.script [])) = .ok (.int 7) s₂ := by
    rw [DiceNotation.evaluate, evaluateLazily_of_tree ht, ← valueOf?_eq_some_iff]
    decide +kernel
  have hseven : (Value.int 7).text = "7" := by decide +kernel
  have hwork : s.work { text := "3+4" } = .answered "7" := hseven ▸ Job.run_of_ok hrun
  have hline : truncate (resultLine chat.escape "(3 + 4)" "7") = reply := by decide +kernel
  have hroll : s.roll chat "3+4" none [] = .ok reply [.submitted 10] := by
    rw [roll_eq, hwork]
    exact reply_eq_ok_iff.mpr ⟨_, hdescription, hline, rfl⟩
  refine ⟨hroll, ?_⟩
  rcases roll_cut_unless_refused hroll with
    ⟨result, description, hresult, hsame, hcut⟩ | ⟨hover, -⟩ | ⟨message, hrefused, -⟩
  · rw [hwork] at hresult
    have hsum : describe 100 "3+4" = .ok description := hsame
    rw [hdescription] at hsum
    cases hresult
    cases hsum
    exact hcut
  · rw [hwork] at hover
    cases hover
  · rw [hwork] at hrefused
    cases hrefused

/-- The reply to a name that stands for nothing: the message quotes the name, however long it is. -/
theorem roll_undefined {depth : Nat} (hdepth : 0 < depth) {name : String} (hname : IsName name)
    (chat : Chat) (source : Source) (timeout : Float) (record : List PoolEvent) :
    roll { work := Job.run depth source, timeout } chat name none record =
      .ok (errorReply (EvalError.undefinedVariable name).message)
        (record ++ [.submitted timeout]) :=
  roll_of_refused (Job.run_of_error (evaluate_undefined hdepth hname rfl))

/-- **An error reply can be too long**.  A name of 2000 letters is refused with a reply of more than
`messageLimit` characters, and that is not how any text is cut to size. -/
theorem roll_not_cut :
    let name := String.ofList (List.replicate 2000 'x')
    let s : Supervisor := { work := Job.run 100 (.script []), timeout := 10 }
    let chat : Chat := { depth := 100, escape := id }
    ∃ reply, s.roll chat name none [] = .ok reply [.submitted 10] ∧ messageLimit < reply.length ∧
      ¬ ∃ full, CutToSize full reply := by
  intro name s chat
  have hletters : name.toList = List.replicate 2000 'x' := String.toList_ofList
  have hlength : name.length = 2000 := by
    rw [← String.length_toList, hletters, List.length_replicate]
  have hname : IsName name := by
    refine ⟨⟨?_, fun c hc => ?_⟩, fun hdie => ?_⟩
    · rw [hletters]
      exact List.cons_ne_nil _ _
    · rw [hletters] at hc
      rw [List.eq_of_mem_replicate hc]
      rfl
    · rw [hdie] at hlength
      exact absurd hlength (by decide)
  have hmessage : 2000 ≤ (EvalError.undefinedVariable name).message.length := by
    have htext : (EvalError.undefinedVariable name).message =
        "undefined variable \x60" ++ name ++ "\x60" := rfl
    rw [htext, String.length_append, String.length_append, hlength]
    omega
  have hlong : messageLimit <
      errorFrame + shownLength (EvalError.undefinedVariable name).message := by
    have hlimit : messageLimit = 1900 := rfl
    unfold shownLength
    omega
  refine ⟨_, roll_undefined (by decide) hname _ _ _ _, ?_, ?_⟩
  · rwa [length_errorReply]
  · rw [exists_cutToSize_errorReply_iff]
    exact not_le.mpr hlong

end Supervisor

end DiceNotation
