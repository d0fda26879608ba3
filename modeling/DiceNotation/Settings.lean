/-
# Settings

What the surroundings of the program decide: a seed that makes every roll repeatable, and the time
that an evaluation may take.  Both are read from texts and may be left out.
-/
import DiceNotation.Text.Number

namespace DiceNotation

/-- A setting that cannot be read. -/
inductive SettingError where
  | badSeed (text : String)
  | badTimeout (text : String)
deriving DecidableEq, Repr

/-- The wording of a setting that cannot be read. -/
def SettingError.message : SettingError → String
  | badSeed text => s!"the seed is no integer: {text}"
  | badTimeout text => s!"the time limit is no number: {text}"

/-- The settings as texts. -/
structure Settings where
  seedText : Option String := none
  timeoutText : Option String := none
deriving DecidableEq, Repr

namespace Settings

/-- The time that an evaluation may take if nothing is set, in seconds. -/
def standardTimeout : Float := 0.05

/-- The seed, if one is set. -/
def seed (s : Settings) : Except SettingError (Option Int) :=
  match s.seedText with
  | none => .ok none
  | some text =>
    match readInteger? text with
    | some n => .ok (some n)
    | none => .error (.badSeed text)

/-- The time that an evaluation may take, in seconds. -/
def timeout (s : Settings) : Except SettingError Float :=
  match s.timeoutText with
  | none => .ok standardTimeout
  | some text =>
    match readReal? text with
    | some x => .ok x
    | none => .error (.badTimeout text)

end Settings

end DiceNotation
