import Marginalia.Files.Path
import Marginalia.Tag.Mark
import Marginalia.Text.Lines
import Marginalia.Text.Utf8

/-! Tagged comments found in files. -/
namespace Marginalia

/-- A tagged comment and the file that it stands in. -/
structure Finding where
  path : Path
  kind : Kind
  label : String
  message : String
deriving DecidableEq

namespace Finding

/-- The finding that a mark stands for, with label and message trimmed. -/
def ofMark? (path : Path) (m : Mark) : Option Finding :=
  m.kind?.map fun kind =>
    ⟨path, kind, String.ofList (Text.trim m.label), String.ofList (Text.trim m.message)⟩

/-- The findings of a text, in order. -/
def ofText (path : Path) (s : List Char) : List Finding := (marks s).filterMap (ofMark? path)

/-- The findings of the lines of a text, each line read by itself. -/
def ofLines (path : Path) (s : List Char) : List Finding := (Text.lines s).flatMap (ofText path)

/-- The findings of a file with these bytes. -/
def ofBytes (path : Path) (bytes : List UInt8) : List Finding :=
  ofLines path (Text.decodeLossy bytes)

/-- The item of a finding in a checklist. -/
def item (f : Finding) : String :=
  "- [ ] " ++ (if f.path.isEmpty then "" else "(" ++ f.path.text ++ ") - ") ++ f.label ++
    (if f.message.isEmpty then "" else ": " ++ f.message)

/-- A finding as a tag that could be read again. -/
def tagText (f : Finding) : String :=
  f.kind.name ++ "(" ++ f.label ++ ")" ++ (if f.message.isEmpty then "" else ": " ++ f.message)

end Finding

end Marginalia
