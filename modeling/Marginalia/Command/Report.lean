import Marginalia.Command.Outcome
import Marginalia.Project

/-! The command that writes the checklist of a project and links it from the readme. -/
namespace Marginalia.Command.Report

/-- The options for a command line: the first argument is the root, the working directory without
one. The program does not read its own file. -/
def options (program : Option String) (args : List String) : Options :=
  let o := Options.ofRoot ⟨args.headD "."⟩
  match program.bind fun p => (Path.mk p).fileName? with
  | some name => o.excludeFile name
  | none => o

/-- Runs the command on a tree, which comes back as the command leaves it. -/
def run (env : Console.Environment) (program : Option String) (args : List String) (top : Node)
    (report readme : Transfer) : Outcome × Node :=
  let done := Project.run top report readme (options program args)
  let config := Console.Config.ofEnvironment env
  match done.result with
  | .ok _ => (⟨config, "", done.entries, "", 0⟩, done.top)
  | .error e => (⟨config, "", done.entries ++ [⟨.error, e.message⟩], "", 1⟩, done.top)

end Marginalia.Command.Report
