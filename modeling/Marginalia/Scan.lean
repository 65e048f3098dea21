import Marginalia.Console.Record
import Marginalia.Files.Change
import Marginalia.Tag.Finding

/-! The walk through a project: which files are read, in which order, and what is found. -/
namespace Marginalia

/-- Where a project is, what its checklist and its readme are called, and what is skipped. -/
structure Options where
  root : Path
  reportFile : String
  readmeFile : String
  excludedDirectories : List String
  excludedFiles : List String
deriving DecidableEq

namespace Options

/-- The options of a project in which nothing is named differently. -/
def ofRoot (root : Path) : Options where
  root := root
  reportFile := "TODO.md"
  readmeFile := "README.md"
  excludedDirectories := [".venv", "node_modules", "dist", ".git", "__pycache__"]
  excludedFiles := ["TODO.md", "README.md"]

/-- Skips files of a name, too. -/
def excludeFile (o : Options) (name : String) : Options :=
  { o with
    excludedFiles :=
      if o.excludedFiles.contains name then o.excludedFiles else name :: o.excludedFiles }

/-- Skips directories of a name, too. -/
def excludeDirectory (o : Options) (name : String) : Options :=
  { o with
    excludedDirectories :=
      if o.excludedDirectories.contains name then o.excludedDirectories
      else name :: o.excludedDirectories }

/-- No longer skips files of a name. -/
def includeFile (o : Options) (name : String) : Options :=
  { o with excludedFiles := o.excludedFiles.filter (· != name) }

/-- No longer skips directories of a name. -/
def includeDirectory (o : Options) (name : String) : Options :=
  { o with excludedDirectories := o.excludedDirectories.filter (· != name) }

def reportPath (o : Options) : Path := o.root.join ⟨o.reportFile⟩

def readmePath (o : Options) : Path := o.root.join ⟨o.readmeFile⟩

end Options

/-- A happening that is of interest only to someone who looks for the cause of a problem. -/
inductive ScanEvent where
  | linkSkipped (path : Path)
  | unlistable (cause : FileError)
  | started (files : Nat) (root : Path)
  | unreadable (failure : FileFailure)
deriving DecidableEq

def ScanEvent.text : ScanEvent → String
  | .linkSkipped path => "not following directory link " ++ path.quoted
  | .unlistable cause => cause.message
  | .started files root =>
    "scanning " ++ toString files ++ " file(s) under " ++ root.quoted
  | .unreadable failure => failure.message

/-- A directory that cannot be listed, and why. -/
structure ClosedDirectory where
  path : Path
  cause : FileError
deriving DecidableEq

/-- What is said of a directory that cannot be listed. -/
def ClosedDirectory.warning (d : ClosedDirectory) : Console.Entry :=
  ⟨.warning, "Could not list directory: " ++ d.path.text⟩

/-- What a walk meets in a directory and below it: files to be read, links to directories, and
directories that cannot be listed. -/
structure Inventory where
  files : List Path
  links : List Path
  closed : List ClosedDirectory
deriving DecidableEq

/-- Things that have a path in the order of their paths. -/
def byPath {α : Type} (xs : List (Path × α)) : List (Path × α) :=
  xs.mergeSort fun a b => a.1.notAfter b.1

namespace Options

/-- Whether the walk enters directories of a name. -/
def enters (o : Options) (name : String) : Bool :=
  !(name.toList.head? == some '.') && !o.excludedDirectories.contains name

/-- The files of a directory: all its entries but directories, links to directories and files of
excluded names. -/
def ownFiles (o : Options) (top : Node) (path : Path) (entries : Entries) : List Path :=
  entries.filterMap fun e =>
    let file := path.join ⟨e.1⟩
    match e.2 with
    | .directory _ => none
    | .link _ => if top.hasDirectory file || o.excludedFiles.contains e.1 then none else some file
    | .file _ => if o.excludedFiles.contains e.1 then none else some file

/-- The links to directories among the entries of a directory. -/
def directoryLinks (top : Node) (path : Path) (entries : Entries) : List Path :=
  entries.filterMap fun e =>
    match e.2 with
    | .link _ => if top.hasDirectory (path.join ⟨e.1⟩) then some (path.join ⟨e.1⟩) else none
    | _ => none

mutual

/-- The inventory of a directory: first its own files, then those of its subdirectories, both in
the order of their paths. Every directory is listed by its path, which fails far below the root
when the path has become too long. -/
def inventory (o : Options) (top : Node) (path : Path) : Node → Inventory
  | .directory entries =>
    match top.list path with
    | .error cause => ⟨[], [], [⟨path, cause⟩]⟩
    | .ok _ =>
      let below := byPath (inventories o top path entries)
      ⟨(o.ownFiles top path entries).mergeSort Path.notAfter ++ below.flatMap (·.2.files),
        directoryLinks top path entries ++ below.flatMap (·.2.links),
        below.flatMap (·.2.closed)⟩
  | .file _ => ⟨[], [], []⟩
  | .link _ => ⟨[], [], []⟩

/-- The inventories of the subdirectories that the walk enters. -/
def inventories (o : Options) (top : Node) (path : Path) :
    List (String × Node) → List (Path × Inventory)
  | [] => []
  | (name, node) :: rest =>
    if node.isDirectory && o.enters name then
      (path.join ⟨name⟩, inventory o top (path.join ⟨name⟩) node) :: inventories o top path rest
    else inventories o top path rest

end

/-- The path of a file as findings show it: what is left behind the root. -/
def relative (o : Options) (file : Path) : Path := (file.stripPrefix? o.root).getD file

end Options

/-- The outcome of a walk: the findings, what is said on the console, and the events. -/
structure Scan where
  findings : List Finding
  entries : List Console.Entry
  events : List ScanEvent
deriving DecidableEq

namespace Scan

/-- What a file brings to a walk. A file that cannot be read brings a warning. -/
def ofFile (top : Node) (o : Options) (file : Path) : Scan :=
  match top.readText file with
  | .ok text => ⟨Finding.ofLines (o.relative file) text.toList, [], []⟩
  | .error failure =>
    ⟨[], [⟨.warning, "Could not read file: " ++ file.text⟩], [.unreadable failure]⟩

/-- Walks through a project. It fails only when its root cannot be listed. -/
def run (top : Node) (o : Options) : Except FileError Scan :=
  (top.list o.root).map fun entries =>
    let found := o.inventory top o.root (.directory entries)
    let scans := found.files.map (ofFile top o)
    ⟨scans.flatMap (·.findings),
      found.closed.map ClosedDirectory.warning ++ scans.flatMap (·.entries),
      found.links.map .linkSkipped ++ found.closed.map (fun d => .unlistable d.cause) ++
        [.started found.files.length o.root] ++ scans.flatMap (·.events)⟩

end Scan

end Marginalia
