import Marginalia.Files.Lookup

/-! Reading and changing the files of a tree. Failures carry the path that was asked for; what was
done before a failure stays done. -/
namespace Marginalia

/-- What becomes of bytes on their way into an open file. The device takes them all; or it takes no
more than some number of them and fails at the next; or it fails when it is flushed at the end, and
no more than some number of them is kept. -/
inductive Transfer where
  | complete
  | cutInWrite (count : Nat) (cause : FileError)
  | cutInFlush (count : Nat) (cause : FileError)
deriving DecidableEq

namespace Transfer

/-- The bytes that get into the file. -/
def kept : Transfer → List UInt8 → List UInt8
  | .complete, content => content
  | .cutInWrite count _, content => content.take count
  | .cutInFlush count _, content => content.take count

/-- What is said of the transfer of bytes to the file of a path. -/
def result (p : Path) : Transfer → List UInt8 → Except FileFailure Unit
  | .complete, _ => .ok ()
  | .cutInWrite count cause, content =>
    if content.length ≤ count then .ok () else .error ⟨.write, p, cause⟩
  | .cutInFlush _ cause, _ => .error ⟨.flush, p, cause⟩

end Transfer

namespace Node

/-- Creates one directory. -/
def createDirectory (top : Node) (p : Path) : Except FileError Node :=
  match top.locate .createDirectory p with
  | .error e => .error e
  | .ok (.taken _) => .error .exists
  | .ok (.free location name) => .ok (top.put (location ++ [name]) (.directory []))

/-- Creates the first of these directories, each being followed by the ones above it. Where one
is missing above, it is created before. -/
def createChain (top : Node) : List Path → Node × Except FileError Unit
  | [] => (top, .ok ())
  | p :: above =>
    if p.isEmpty then (top, .ok ())
    else
      match top.createDirectory p with
      | .ok top => (top, .ok ())
      | .error .missing =>
        match createChain top above with
        | (top, .error e) => (top, .error e)
        | (top, .ok ()) =>
          match top.createDirectory p with
          | .ok top => (top, .ok ())
          | .error e => (top, if top.hasDirectory p then .ok () else .error e)
      | .error e => (top, if top.hasDirectory p then .ok () else .error e)

/-- Makes sure that a path names something, by creating directories along it when it does not. -/
def createDirectories (top : Node) (p : Path) : Node × Except FileFailure Unit :=
  if top.has p then (top, .ok ())
  else
    match top.createChain (p :: p.ancestors) with
    | (top, .ok ()) => (top, .ok ())
    | (top, .error e) => (top, .error ⟨.createDirectory, p, e⟩)

/-- Makes sure that there are directories above a path. -/
def createAbove (top : Node) (p : Path) : Node × Except FileFailure Unit :=
  match p.parent? with
  | some parent => if parent.isEmpty then (top, .ok ()) else top.createDirectories parent
  | none => (top, .ok ())

/-- Opens the file that a path names for new bytes, which takes away those that it had, or a new
file where there is none. -/
def truncate (top : Node) (p : Path) : Except FileError (Location × Node) :=
  match top.locate .createFile p with
  | .error e => .error e
  | .ok (.free location name) =>
    .ok (location ++ [name], top.put (location ++ [name]) (.file []))
  | .ok (.taken location) =>
    match top.at? location with
    | some (.file _) => .ok (location, top.put location (.file []))
    | _ => .error .isDirectory

/-- Opens a file for new bytes, creating the directories above it where they are missing. -/
def createFile (top : Node) (p : Path) : Node × Except FileFailure Location :=
  match top.createAbove p with
  | (top, .error failure) => (top, .error failure)
  | (top, .ok ()) =>
    match top.truncate p with
    | .ok (location, top) => (top, .ok location)
    | .error e => (top, .error ⟨.create, p, e⟩)

/-- Writes a file. Whatever the device refuses, the bytes that were there are gone once the file has
been opened. -/
def writeBytes (top : Node) (transfer : Transfer) (p : Path) (content : List UInt8) :
    Node × Except FileFailure Unit :=
  match top.createFile p with
  | (top, .error failure) => (top, .error failure)
  | (top, .ok location) =>
    (top.put location (.file (transfer.kept content)), transfer.result p content)

/-- Writes a text to a file. -/
def write (top : Node) (transfer : Transfer) (p : Path) (text : String) :
    Node × Except FileFailure Unit :=
  top.writeBytes transfer p (Text.encode text.toList)

/-- Reads a file as text, whatever its bytes. -/
def readText (top : Node) (p : Path) : Except FileFailure String :=
  match top.read p with
  | .ok bytes => .ok (String.ofList (Text.decodeLossy bytes))
  | .error e => .error ⟨.read, p, e⟩

end Node

end Marginalia
