/-
# The program

Reads lines from standard input and answers them, as `Console` says.  The settings come from the
environment: `DICE_SEED` and `EVAL_TIMEOUT`.  Each evaluation runs in a thread of its own, and is
given up when its time is over.
-/
import DiceNotation.Console

namespace DiceNotation.Program

/-- The settings in the environment. -/
def readSettings : IO Settings := do
  return { seedText := ← IO.getEnv "DICE_SEED", timeoutText := ← IO.getEnv "EVAL_TIMEOUT" }

/-- A source of rolls that nobody can foresee. -/
def freshSource : IO Source := do
  let bytes ← IO.getRandomBytes 32
  return Source.ofSeed (bytes.foldl (fun n b => 256 * n + b.toNat) 0)

/-- The source for a seed, or a fresh one. -/
def sourceFor (seed : Option Int) : IO Source :=
  match seed with
  | some n => return Source.ofSeed n
  | none => freshSource

/-- More words than a generator can give in a millisecond. -/
def wordsPerMillisecond : Nat := 20000

/-- Waits for a task until a time in milliseconds, and tells whether it has ended. -/
partial def waitUntil {α : Type} (task : Task α) (deadline : Nat) : IO Bool := do
  if ← IO.hasFinished task then return true
  if deadline ≤ (← IO.monoMsNow) then return false
  IO.sleep 1
  waitUntil task deadline

/-- The number of levels down to which texts are read. -/
def depth : Nat := 480

/-- Runs a job for at most some seconds.  Its source is limited, so that a job that has been given
up comes to an end. -/
def runJob (timeout : Float) (j : Job) : IO Outcome := do
  let duration := (timeout * 1000).ceil.toUInt64.toNat
  let source := (← sourceFor j.seed).limit (wordsPerMillisecond * (duration + 1))
  let start ← IO.monoMsNow
  let task := Task.spawn (fun _ => { j with seed := none }.run depth source) .dedicated
  if ← waitUntil task (start + duration) then
    match task.get with
    | .broken .rollsExhausted => return .overtime
    | outcome => return outcome
  else return .overtime

/-- What becomes of a job as a result or a failure. -/
def resultOf (timeout : Float) (outcome : Outcome) : Except Failure String :=
  match Supervisor.settle timeout outcome [] with
  | .ok text _ => .ok text
  | .error f _ => .error f

/-- What is said when the program ends before its input does. -/
def farewell : Console.Stop → String
  | .badSetting e => e.message
  | .broken _ => "the result holds an integer with too many digits"

/-- Answers lines until the input ends. -/
partial def answerInput (settings : Settings) (timeout : Float) : IO UInt32 := do
  let stdout ← IO.getStdout
  stdout.putStr Console.prompt
  stdout.flush
  let line ← (← IO.getStdin).getLine
  if line.isEmpty then return 0
  let evaluate (j : Job) : IO (Except Failure String) := do
    return resultOf timeout (← runJob timeout j)
  match ← Console.answer evaluate settings (line.dropEndWhile (· == '\n')).toString with
  | .ok answer =>
    stdout.putStr answer
    answerInput settings timeout
  | .error stop =>
    IO.eprintln (farewell stop)
    return 1

/-- Answers standard input. -/
def answerAll : IO UInt32 := do
  let settings ← readSettings
  match settings.timeout with
  | .error e =>
    IO.eprintln (farewell (.badSetting e))
    return 1
  | .ok timeout => answerInput settings timeout

end DiceNotation.Program

/-- The program. -/
def main : IO UInt32 := DiceNotation.Program.answerAll
