import Marginalia.Checklist
import Marginalia.Readme
import Marginalia.Scan

/-! The work on a project: writing the checklist of its findings, and linking it from the
readme. -/
namespace Marginalia

/-- Why the work on a project ends early. -/
inductive ProjectError where
  | unlistable (cause : FileError)
  | file (failure : FileFailure)
  | missingReadme (path : Path)
  | missingMarkers (path : Path)
deriving DecidableEq

def ProjectError.message : ProjectError → String
  | .unlistable cause => cause.message
  | .file failure => failure.message
  | .missingReadme path =>
    "the " ++ path.quoted ++ " file doesn't exist, create it with the " ++
      Text.quoted Readme.startMarker ++ " and " ++ Text.quoted Readme.endMarker ++ " markers"
  | .missingMarkers path =>
    "the " ++ path.quoted ++ " file doesn't have the " ++ Text.quoted Readme.startMarker ++
      " and " ++ Text.quoted Readme.endMarker ++ " markers in it yet"

/-- What a piece of work leaves behind: the files, what was said on the console, the events, and
the result. -/
structure Outcome (α : Type) where
  top : Node
  entries : List Console.Entry
  events : List ScanEvent
  result : Except ProjectError α

namespace Project

/-- What is said before a walk. -/
def opening (o : Options) : List Console.Entry :=
  [⟨.info, "Starting project scan of " ++ o.root.text⟩,
    ⟨.info, "Types targeted: " ++ ", ".intercalate (Kind.all.map Kind.name)⟩]

/-- What is said after a walk. -/
def closing (findings : List Finding) : List Console.Entry :=
  ⟨.info, "Found " ++ toString findings.length ++ " total comments."⟩ ::
    if findings.isEmpty then
      [⟨.info, "No outstanding comments found. Creating clean report."⟩]
    else []

/-- Walks through a project and writes the checklist. -/
def generate (top : Node) (transfer : Transfer) (o : Options) : Outcome (List Finding) :=
  match Scan.run top o with
  | .error cause => ⟨top, opening o, [], .error (.unlistable cause)⟩
  | .ok scan =>
    let said := opening o ++ scan.entries ++ closing scan.findings
    match top.write transfer o.reportPath (Checklist.render scan.findings) with
    | (top, .error failure) => ⟨top, said, scan.events, .error (.file failure)⟩
    | (top, .ok ()) =>
      ⟨top, said ++ [⟨.success, "Full report successfully generated in " ++ o.reportPath.text⟩],
        scan.events, .ok scan.findings⟩

/-- Links the checklist from the readme. -/
def updateReadme (top : Node) (transfer : Transfer) (o : Options) : Outcome Unit :=
  let path := o.readmePath
  if !top.has path then ⟨top, [], [], .error (.missingReadme path)⟩
  else
    match top.readText path with
    | .error failure => ⟨top, [], [], .error (.file failure)⟩
    | .ok readme =>
      match Readme.link? readme o.reportFile with
      | none => ⟨top, [], [], .error (.missingMarkers path)⟩
      | some linked =>
        match top.write transfer path linked with
        | (top, .error failure) => ⟨top, [], [], .error (.file failure)⟩
        | (top, .ok ()) =>
          ⟨top,
            [⟨.success, "Successfully updated link within " ++ path.text ++ " markers."⟩],
            [], .ok ()⟩

/-- Writes the checklist, then links it. Each of the two files has a transfer of its own. -/
def run (top : Node) (report readme : Transfer) (o : Options) : Outcome (List Finding) :=
  let first := generate top report o
  match first.result with
  | .error e => { first with result := .error e }
  | .ok findings =>
    let second := updateReadme first.top readme o
    ⟨second.top, first.entries ++ second.entries, first.events ++ second.events,
      second.result.map fun _ => findings⟩

end Project

end Marginalia
