import Marginalia.Command.Palette
import Marginalia.Command.Report
import Std.Time

/-! The program: reading arguments, environment, clock and files, and doing what a command leaves
to be done. -/
namespace Marginalia.Program

/-- The time that the local clock shows, universal time where the time zone is not known. -/
def clock : IO Moment := do
  try
    let now ← Std.Time.DateTime.now
    return ⟨now.toTimestamp.toSecondsSinceUnixEpoch.val, 0, now.offset.second.val⟩
  catch _ =>
    let now ← Std.Time.Timestamp.now
    return ⟨now.toSecondsSinceUnixEpoch.val, 0, 0⟩

/-- The variables that a configuration is made of. -/
def environment : IO Console.Environment := do
  let values ← Console.Config.variableNames.mapM fun name => do
    return (name, (← IO.getEnv name).map fun s => Text.encode s.toList)
  return fun name => (values.lookup name).join

/-- Prints what a command says, each record with its own time, and gives back its status. -/
def finish (o : Command.Outcome) : IO UInt32 := do
  IO.print o.plain
  for e in o.entries do
    IO.print (e.record o.config (← clock))
  IO.eprint o.errors
  return o.status.toUInt32

/-- Reads the entries of a directory. A link to a file stands for its file, a link to a directory
for a link to the top, and any other link for one that leads nowhere. -/
partial def load (entries : Array IO.FS.DirEntry) : IO Entries := do
  let nodes ← entries.toList.mapM fun e => do
    match (← e.path.symlinkMetadata).type with
    | .dir => return some (e.fileName, Node.directory (← load (← e.path.readDir)))
    | .symlink =>
      if ← e.path.isDir then return some (e.fileName, Node.link ⟨"/"⟩)
      else if ← e.path.pathExists then
        return some (e.fileName, Node.file (← IO.FS.readBinFile e.path).toList)
      else return some (e.fileName, Node.link ⟨e.fileName ++ "~"⟩)
    | .file => return some (e.fileName, Node.file (← IO.FS.readBinFile e.path).toList)
    | .other => return none
  return nodes.filterMap id

/-- A node with directories around it that lead to a location. -/
def nest : Location → Node → Node
  | [], node => node
  | name :: rest, node => .directory [(name, nest rest node)]

/-- The tree below a path; a path that cannot be listed is left out. -/
def tree (p : Path) : IO Node := do
  try
    let root ← IO.FS.realPath p.text
    if ← root.isDir then return nest p.location (.directory (← load (← root.readDir)))
    else return nest p.location (.file [])
  catch _ => return .directory []

/-- Writes the file of a path when a command has changed it. -/
def store (before after : Node) (p : Path) : IO Unit := do
  match before.read p, after.read p with
  | old, .ok content =>
    if old.toOption != some content then IO.FS.writeBinFile p.text ⟨content.toArray⟩
  | _, .error _ => return ()

/-- Runs the report command on the files below its root. -/
def report (args : List String) : IO UInt32 := do
  let program := (← IO.appPath).toString
  let options := Command.Report.options (some program) args
  let before ← tree options.root
  let (o, after) :=
    Command.Report.run (← environment) (some program) args before .complete .complete
  store before after options.reportPath
  store before after options.readmePath
  finish o

/-- Runs the command that the first argument names. -/
def run : List String → IO UInt32
  | "palette" :: args => do finish (Command.Palette.run (← environment) args)
  | "report" :: args => report args
  | _ => do
    IO.eprintln "usage: marginalia palette [ARGUMENT...] | marginalia report [ROOT]"
    return 2

end Marginalia.Program

def main (args : List String) : IO UInt32 := Marginalia.Program.run args
