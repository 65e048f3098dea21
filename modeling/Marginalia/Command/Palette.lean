import Marginalia.Color.Hsl
import Marginalia.Command.Outcome

/-! The command that converts colors and shows a record of each level. -/
namespace Marginalia.Command.Palette

def usage : String := "usage: mlog_demo [--time] [--date] [--time-first] [--quit] [COLOR...]"

/-- What the arguments ask for. -/
structure Settings where
  config : Console.Config
  quit : Bool
  colors : List String
deriving DecidableEq

/-- An argument that ends the command before it has done anything. -/
inductive Stop where
  | help
  | unknownFlag (flag : String)
deriving DecidableEq

/-- What a single argument means. -/
inductive Argument where
  | time
  | date
  | timeFirst
  | quit
  | color (text : String)
  | stop (s : Stop)
deriving DecidableEq

/-- Anything is a color that is neither a flag nor begins with two dashes. -/
def Argument.ofText (s : String) : Argument :=
  if s = "--time" then .time
  else if s = "--date" then .date
  else if s = "--time-first" then .timeFirst
  else if s = "--quit" then .quit
  else if s = "-h" ∨ s = "--help" then .stop .help
  else if s.toList.take 2 = ['-', '-'] then .stop (.unknownFlag s)
  else .color s

/-- Reads the arguments in order, up to the first one that ends the command. -/
def Settings.read (s : Settings) : List String → Except Stop Settings
  | [] => .ok s
  | arg :: rest =>
    match Argument.ofText arg with
    | .time => read { s with config := s.config.withTime true } rest
    | .date => read { s with config := s.config.withDate true } rest
    | .timeFirst => read { s with config := s.config.withTimeFirst true } rest
    | .quit => read { s with quit := true } rest
    | .color text => read { s with colors := s.colors ++ [text] } rest
    | .stop stop => .error stop

/-- The entry of a color: what it converts to, or why it is none. -/
def colorEntry (s : String) : Console.Entry :=
  match Rgba.parse s with
  | .ok c => ⟨.info, s ++ " is " ++ c.text ++ ", " ++ (Hsl.ofRgba c).text⟩
  | .error e => ⟨.warning, e.message⟩

/-- The entries of a run. Quitting leaves out the last one. -/
def Settings.entries (s : Settings) : List Console.Entry :=
  s.colors.map colorEntry ++
    [⟨.info, toString s.colors.length ++ " color(s) converted"⟩,
      ⟨.success, "all levels printed"⟩,
      ⟨.error, "quit requested: " ++ (if s.quit then "true" else "false")⟩] ++
    (if s.quit then [] else [⟨.warning, "still running after a non-fatal error"⟩])

/-- Runs the command. -/
def run (env : Console.Environment) (args : List String) : Outcome :=
  match Settings.read ⟨.ofEnvironment env, false, []⟩ args with
  | .error .help => ⟨.plain, usage ++ "\n", [], "", 0⟩
  | .error (.unknownFlag flag) =>
    ⟨.plain, "", [], "Error: unknown flag " ++ Text.quoted flag ++ "\n" ++ usage ++ "\n", 1⟩
  | .ok s => ⟨s.config, "", s.entries, "", if s.quit then 1 else 0⟩

end Marginalia.Command.Palette
