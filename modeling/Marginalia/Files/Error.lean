import Marginalia.Files.Path

/-! Failures of the file system, and of the operations that report them with the path they were
about. -/
namespace Marginalia

/-- Why the file system refuses a path, or the device behind it the bytes for a file. -/
inductive FileError where
  | missing
  | notDirectory
  | isDirectory
  | exists
  | nameTooLong
  | tooManyLinks
  | nulCharacter
  /-- A failure of the device, by its text. -/
  | device (text : String)
deriving DecidableEq

def FileError.message : FileError → String
  | .missing => "No such file or directory (os error 2)"
  | .exists => "File exists (os error 17)"
  | .notDirectory => "Not a directory (os error 20)"
  | .isDirectory => "Is a directory (os error 21)"
  | .nameTooLong => "File name too long (os error 36)"
  | .tooManyLinks => "Too many levels of symbolic links (os error 40)"
  | .nulCharacter => "file name contained an unexpected NUL byte"
  | .device text => text

/-- What was tried on a path. -/
inductive FileTask where
  | read
  | create
  | createDirectory
  | write
  | flush
deriving DecidableEq

/-- A task that failed on a path. -/
structure FileFailure where
  task : FileTask
  path : Path
  cause : FileError
deriving DecidableEq

def FileFailure.message (f : FileFailure) : String :=
  (match f.task with
    | .read => "failed to open file for reading: "
    | .create => "failed to create file for writing: "
    | .createDirectory => "failed to create directory "
    | .write => "failed to write file: "
    | .flush => "failed to flush file: ") ++
    f.path.quoted ++ ": " ++ f.cause.message

end Marginalia
