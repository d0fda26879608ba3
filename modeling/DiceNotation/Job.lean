/-
# Jobs

An evaluation as it is handed to a worker: a text, a seed if the rolls are to be repeatable, and
whether the result is to be sorted.  What comes back is text in any case, either the result or what
is wrong with the request.
-/
import DiceNotation.Evaluation

namespace DiceNotation

/-- An evaluation that is handed to a worker. -/
structure Job where
  text : String
  seed : Option Int := none
  sorted : Bool := false
deriving DecidableEq, Repr

/-- What becomes of a job. -/
inductive Outcome where
  | answered (text : String)
  /-- The text of the job is at fault. -/
  | refused (message : String)
  /-- The evaluation ended for another reason. -/
  | broken (fault : Fault)
  /-- The worker was still at work when the time was over. -/
  | overtime
deriving DecidableEq

/-- The text of a value, or of its sorted elements if that is asked for. -/
def showResult (sorted : Bool) (v : Value) : Except Fault String :=
  if sorted then
    match v with
    | .array items => .ok (Value.array (Value.sort items)).text
    | .scalar _ => .error EvalError.notSortable.fault
  else .ok v.text

namespace Job

/-- The text of the result of a job.  Its text is read down to `depth` levels, and without a seed
the rolls come from `fresh`. -/
def answer (depth : Nat) (fresh : Source) (j : Job) : Except Fault String :=
  let source :=
    match j.seed with
    | some seed => Source.ofSeed seed
    | none => fresh
  match evaluate depth j.text (Session.start source) with
  | .ok v _ => showResult j.sorted v
  | .error f _ => .error f

/-- What becomes of a job that is given all the time it needs. -/
def run (depth : Nat) (fresh : Source) (j : Job) : Outcome :=
  match j.answer depth fresh with
  | .ok text => .answered text
  | .error (.error e) => .refused e.message
  | .error f => .broken f

end Job

end DiceNotation
