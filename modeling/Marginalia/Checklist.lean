import Marginalia.Tag.Finding

/-! The checklist of all findings: one section for each kind, each item once. -/
namespace Marginalia.Checklist

/-- The items that are not yet listed, in order and without repetition, and all items listed
after them. -/
def fresh : List String → List String → List String × List String
  | seen, [] => ([], seen)
  | seen, item :: rest =>
    if seen.contains item then fresh seen rest
    else
      let (items, seen) := fresh (item :: seen) rest
      (item :: items, seen)

/-- The items of one kind, in the order of the findings. -/
def itemsOf (kind : Kind) (findings : List Finding) : List String :=
  (findings.filter fun f => decide (f.kind = kind)).map Finding.item

/-- A section: its header and its items. A kind without findings has an empty line instead. -/
structure Section where
  kind : Kind
  bare : Bool
  items : List String
deriving DecidableEq

/-- The sections of some kinds, items that were listed before being left out. -/
def sections (findings : List Finding) : List String → List Kind → List Section
  | _, [] => []
  | seen, kind :: kinds =>
    let all := itemsOf kind findings
    let (items, seen) := fresh seen all
    ⟨kind, all.isEmpty, items⟩ :: sections findings seen kinds

def Section.text (s : Section) : String :=
  "# " ++ s.kind.header ++ "\n" ++ (if s.bare then "\n" else "") ++
    String.join (s.items.map (· ++ "\n"))

/-- What stands between two sections. -/
def separator : String := "\n---\n\n"

/-- The text of the checklist. -/
def render (findings : List Finding) : String :=
  if findings.isEmpty then "# No outstanding todos!\n"
  else separator.intercalate ((sections findings [] Kind.all).map Section.text)

end Marginalia.Checklist
