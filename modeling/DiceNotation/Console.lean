/-
# The console

A line of input is either the word `help`, or a text to evaluate; with `sort` and a space in front
its result is sorted.  Everything that is written in answer is on one line, behind the prompt.

`Console.run` is a whole session: a pool is opened, the lines are answered one by one, and the pool
is stopped.  A setting that cannot be read ends the session early, and so does an evaluation that
ends for a reason that is no matter of its text.
-/
import DiceNotation.Supervisor
import DiceNotation.Settings

namespace DiceNotation

namespace Console

/-- What is written in front of every line of input. -/
def prompt : String := "> "

/-- What a line asks for. -/
inductive Request where
  | help
  | evaluation (text : String) (sorted : Bool)
deriving DecidableEq, Repr

/-- The word in front of a text whose result is to be sorted. -/
def sortMark : List Char := "sort ".toList

/-- Reads a line. -/
def Request.ofLine (line : String) : Request :=
  let text := line.toList
  if trimEnds isBlank text = "help".toList then .help
  else if sortMark.isPrefixOf text then
    .evaluation (String.ofList (text.drop sortMark.length)) true
  else .evaluation line false

/-- The answer to `help`. -/
def helpLine : String := s!"operators: {Op.catalogue}\n"

/-- Why a session ends before its input does. -/
inductive Stop where
  | badSetting (e : SettingError)
  | broken (fault : Fault)
deriving DecidableEq

/-- The line for a result or a failure, unless the failure ends the session. -/
def answerLine : Except Failure String → Except Stop String
  | .ok text => .ok (text ++ "\n")
  | .error (.broken f) => .error (.broken f)
  | .error f => .ok ("error: " ++ f.message?.getD "" ++ "\n")

/-- Answers a line, given a way to evaluate jobs: what is written, or why the session ends. -/
def answer {m : Type → Type} [Monad m] (evaluate : Job → m (Except Failure String))
    (settings : Settings) (line : String) : m (Except Stop String) :=
  match Request.ofLine line with
  | .help => return .ok helpLine
  | .evaluation text sorted =>
    match settings.seed with
    | .error e => return .error (.badSetting e)
    | .ok seed => return answerLine (← evaluate { text, seed, sorted })

/-- What a session has written, what the pool was told, and why it ended early if it did. -/
structure Transcript where
  output : String := ""
  record : List PoolEvent := []
  stop : Option Stop := none

/-- Answers lines one by one. -/
def answerLines (s : Supervisor) (settings : Settings) (t : Transcript) :
    List String → Transcript
  | [] => { t with output := t.output ++ prompt }
  | line :: rest =>
    let (answered, record) := (answer s.attempt settings line).run t.record
    let t := { t with output := t.output ++ prompt, record }
    match answered with
    | .ok text => answerLines s settings { t with output := t.output ++ text } rest
    | .error stop => { t with stop := some stop }

/-- A session with workers, settings and lines of input. -/
def run (work : Job → Outcome) (settings : Settings) (lines : List String) : Transcript :=
  match settings.timeout with
  | .error e => { stop := some (.badSetting e) }
  | .ok timeout =>
    let t := answerLines ⟨work, timeout⟩ settings { record := [.opened standardWorkers] } lines
    { t with record := t.record ++ [.stopped, .joined] }

end Console

end DiceNotation
