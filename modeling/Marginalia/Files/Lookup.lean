import Marginalia.Files.Error
import Marginalia.Files.Tree
import Marginalia.Text.Utf8

/-! Following a path through a tree, links included. -/
namespace Marginalia

/-- A step of a path. -/
inductive PathStep where
  | stay
  | up
  | into (name : String)
deriving DecidableEq

/-- The steps of a path: repeated slashes count once, a single dot is a step of its own. -/
def Path.steps (p : Path) : List PathStep :=
  (p.segments.filter (· != "")).map fun n =>
    if n = "." then .stay else if n = ".." then .up else .into n

/-- Where a step leads from a location when it meets no link. -/
def PathStep.after (l : Location) : PathStep → Location
  | .stay => l
  | .up => l.dropLast
  | .into name => l ++ [name]

/-- The location that a path has below the top when it meets no link on the way. -/
def Path.location (p : Path) : Location := p.steps.foldl PathStep.after []

/-- What a path is followed for. To look up and to create a file a link at its end is followed,
to create a directory it is not. -/
inductive Purpose where
  | find
  | createFile
  | createDirectory
deriving DecidableEq

/-- Where a path ends: at an entry, or at a free name in a directory. -/
inductive Place where
  | taken (location : Location)
  | free (directory : Location) (name : String)
deriving DecidableEq

namespace Node

/-- The longest name of an entry, in bytes. -/
def longestName : Nat := 255

/-- The longest path that can be followed, in bytes. -/
def longestPath : Nat := 4095

/-- How many links can be followed on one path. -/
def linkLimit : Nat := 40

/-- Takes steps from a location. Every step needs a directory to start from. `followLink` goes on
at a link, given the directory it stands in, its target and the steps after it. With `slash` the
path ends with a slash: then no file can be created under its last name, and what is found must be
a directory. -/
def walk (top : Node) (purpose : Purpose) (slash : Bool)
    (followLink : Location → Path → List PathStep → Except FileError Place) :
    Location → List PathStep → Except FileError Place
  | location, [] =>
    if slash && purpose == .find && !((top.at? location).any Node.isDirectory) then
      .error .notDirectory
    else .ok (.taken location)
  | location, step :: rest =>
    match top.at? location with
    | some (.directory entries) =>
      match step with
      | .stay => walk top purpose slash followLink location rest
      | .up => walk top purpose slash followLink location.dropLast rest
      | .into name =>
        if rest.isEmpty && slash && purpose == .createFile then .error .isDirectory
        else if longestName < Text.byteLength name.toList then .error .nameTooLong
        else
          match entries.lookup name with
          | none => if rest.isEmpty then .ok (.free location name) else .error .missing
          | some (.link target) =>
            if rest.isEmpty && purpose == .createDirectory then .ok (.taken (location ++ [name]))
            else followLink location target rest
          | some _ => walk top purpose slash followLink (location ++ [name]) rest
    | _ => .error .notDirectory

/-- Takes steps and follows at most `links` links on the way. The target of a link is taken from
the directory that the link stands in. -/
def follow (top : Node) (purpose : Purpose) :
    Nat → Bool → Location → List PathStep → Except FileError Place
  | 0, slash => walk top purpose slash fun _ _ _ => .error .tooManyLinks
  | links + 1, slash => walk top purpose slash fun location target rest =>
    follow top purpose links (slash || (rest.isEmpty && target.endsWithSlash))
      (if target.isAbsolute then [] else location) (target.steps ++ rest)

/-- Where a path leads. -/
def locate (top : Node) (purpose : Purpose) (p : Path) : Except FileError Place :=
  if p.text.toList.contains (Char.ofNat 0) then .error .nulCharacter
  else if p.isEmpty then .error .missing
  else if longestPath < Text.byteLength p.text.toList then .error .nameTooLong
  else follow top purpose linkLimit p.endsWithSlash [] p.steps

/-- The location and the node that a path names, links being followed. -/
def find (top : Node) (p : Path) : Except FileError (Location × Node) :=
  match top.locate .find p with
  | .error e => .error e
  | .ok (.free _ _) => .error .missing
  | .ok (.taken location) =>
    match top.at? location with
    | some node => .ok (location, node)
    | none => .error .missing

/-- Whether a path names anything. -/
def has (top : Node) (p : Path) : Bool := (top.find p).toOption.isSome

/-- Whether a path names a directory. -/
def hasDirectory (top : Node) (p : Path) : Bool :=
  match top.find p with
  | .ok (_, node) => node.isDirectory
  | .error _ => false

/-- The entries of the directory that a path names. -/
def list (top : Node) (p : Path) : Except FileError Entries :=
  match top.find p with
  | .ok (_, .directory entries) => .ok entries
  | .ok _ => .error .notDirectory
  | .error e => .error e

/-- The bytes of the file that a path names. -/
def read (top : Node) (p : Path) : Except FileError (List UInt8) :=
  match top.find p with
  | .ok (_, .file content) => .ok content
  | .ok _ => .error .isDirectory
  | .error e => .error e

end Node

end Marginalia
