/-
# Supervised evaluation

Jobs are run by a pool of workers, each job with a limit on its time, so that no text can keep a
caller waiting.  A supervisor hands jobs to the pool and turns their outcomes into texts and
failures.  The pool is known here by what it is told: `PoolEvent` lists that in order, and
`Supervisor.within` opens a pool for some work and stops it in any case.
-/
import DiceNotation.Job
import DiceNotation.Description
import DiceNotation.Chat.Reply

namespace DiceNotation

/-! ## 1. The pool -/

/-- What a pool of workers is told. -/
inductive PoolEvent where
  | opened (workers : Nat)
  /-- A job with a time limit in seconds. -/
  | submitted (timeout : Float)
  /-- To finish what has been submitted and take nothing more. -/
  | closed
  /-- To give up what has been submitted. -/
  | stopped
  /-- To end. -/
  | joined
deriving DecidableEq

/-- The record of an event. -/
def PoolEvent.text : PoolEvent → String
  | opened workers => s!"open {workers}"
  | submitted timeout => s!"submit {Layout.plain.write timeout}"
  | closed => "close"
  | stopped => "stop"
  | joined => "join"

/-- The number of workers of a pool if nothing else is said. -/
def standardWorkers : Nat := 2

/-- Why a supervisor has no text to give. -/
inductive Failure where
  /-- The text is at fault. -/
  | refused (message : String)
  | halted (timeout : Float)
  | broken (fault : Fault)
  /-- A pool runs single jobs only. -/
  | noBatches
deriving DecidableEq

/-- The wording of a failure; one whose cause is no matter of the text has none. -/
def Failure.message? : Failure → Option String
  | refused message => some message
  | halted timeout => some (haltedMessage (some timeout))
  | broken _ => none
  | noBatches => some "This wrapper does not support `map`."

/-- Work with a pool, which keeps the record of what the pool is told. -/
abbrev Supervising := EStateM Failure (List PoolEvent)

/-- Tells the pool something. -/
def tell (e : PoolEvent) : Supervising Unit := modify (· ++ [e])

/-! ## 2. The supervisor -/

/-- Workers, given by what becomes of each job, and the time that a job may take. -/
structure Supervisor where
  work : Job → Outcome
  timeout : Float

/-- What a chat asks of its replies: how deep the texts are read that they describe, and how a
result is escaped, so that it is not taken for formatting. -/
structure Chat where
  depth : Nat
  escape : String → String

/-- The reply to a result of `text`. -/
def Chat.reply (chat : Chat) (text result : String) : Supervising String :=
  match describe chat.depth text with
  | .ok description => return truncate (resultLine chat.escape description result)
  | .error e => throw (.refused e.message)

namespace Supervisor

/-- The text that an outcome gives. -/
def settle (timeout : Float) : Outcome → Supervising String
  | .answered text => return text
  | .refused message => throw (.refused message)
  | .broken f => throw (.broken f)
  | .overtime => throw (.halted timeout)

/-- The text of the result of a job. -/
def evaluate (s : Supervisor) (j : Job) : Supervising String := do
  tell (.submitted s.timeout)
  settle s.timeout (s.work j)

/-- The result of a job, or why there is none. -/
def attempt (s : Supervisor) (j : Job) : StateM (List PoolEvent) (Except Failure String) :=
  fun record =>
    match s.evaluate j record with
    | .ok text record => (.ok text, record)
    | .error f record => (.error f, record)

/-- The reply of a chat to a text.  A text that cannot be evaluated has a reply too. -/
def roll (s : Supervisor) (chat : Chat) (text : String) (seed : Option Int) :
    Supervising String := fun record =>
  match s.evaluate { text, seed } record with
  | .ok result record => chat.reply text result record
  | .error (.halted timeout) record => .ok (haltedMessage (some timeout)) record
  | .error (.refused message) record => .ok (errorReply message) record
  | .error f record => .error f record

/-- Ends the pool, after what has been submitted if that is waited for. -/
def dismiss (wait : Bool) : Supervising Unit := do
  tell (if wait then .closed else .stopped)
  tell .joined

/-- Some work with a pool that is opened before and stopped after it, whether or not it fails. -/
def within {α : Type} (workers : Nat) (body : Supervising α) : Supervising α := fun record =>
  match body (record ++ [.opened workers]) with
  | .ok a record => .ok a (record ++ [.stopped, .joined])
  | .error f record => .error f (record ++ [.stopped, .joined])

end Supervisor

end DiceNotation
