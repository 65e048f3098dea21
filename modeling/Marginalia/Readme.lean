import Marginalia.Text.Blank
import Marginalia.Text.Lines

/-! The link from a readme to the checklist. It stands between two marker lines, and what stood
between them before is dropped. -/
namespace Marginalia.Readme

/-- The line that opens the block of the link. -/
def startMarker : String := "<!-- TODOS_START -->"

/-- The line that closes the block of the link. -/
def endMarker : String := "<!-- TODOS_END -->"

/-- What a line is, apart from the blanks around it. -/
inductive LineKind where
  | start
  | finish
  | other
deriving DecidableEq

def lineKind (line : List Char) : LineKind :=
  let s := Text.trim line
  if s = startMarker.toList then .start
  else if s = endMarker.toList then .finish
  else .other

/-- The line that links to a checklist of a given name. -/
def linkLine (name : String) : String :=
  "This project also has a [\"todo list \"](" ++ name ++ ")."

/-- What is written for the pieces of a readme. A start marker brings the link with it and opens
the block, an end marker closes it, and other pieces are kept outside the block. -/
def linked (name : String) : Bool → List (List Char) → List Char
  | _, [] => []
  | inBlock, piece :: rest =>
    match lineKind piece with
    | .start => (startMarker ++ "\n" ++ linkLine name ++ "\n").toList ++ linked name true rest
    | .finish => (endMarker ++ "\n").toList ++ linked name false rest
    | .other => (if inBlock then [] else piece) ++ linked name inBlock rest

/-- Whether a readme has a line of this kind. -/
def hasLine (kind : LineKind) (readme : List Char) : Bool :=
  (Text.lines readme).any fun line => decide (lineKind line = kind)

/-- The readme with the link in it; nothing when it lacks one of the markers. -/
def link? (readme name : String) : Option String :=
  let s := readme.toList
  if hasLine .start s && hasLine .finish s then
    some (String.ofList (linked name false (Text.pieces s)))
  else none

end Marginalia.Readme
