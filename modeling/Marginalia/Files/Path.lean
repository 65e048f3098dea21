import Marginalia.Text.Quoted

/-! Paths as texts, and the names that they are made of. Neither repeated slashes nor single dots
change what a path names, but its text keeps them. -/
namespace Marginalia

/-- A path as it is written. -/
structure Path where
  text : String
deriving DecidableEq

/-- Whether a name comes before another one or is the same, by code points. -/
def notAfter : List Char → List Char → Bool
  | [], _ => true
  | _ :: _, [] => false
  | a :: s, b :: t => decide (a.toNat < b.toNat) || (a == b && notAfter s t)

/-- A part of a path. -/
inductive Component where
  | root
  | here
  | up
  | name (n : String)
deriving DecidableEq

namespace Component

/-- The place of a component among components of other forms. -/
def rank : Component → Nat
  | .root => 0
  | .here => 1
  | .up => 2
  | .name _ => 3

/-- Whether a component comes before another one. -/
def before : Component → Component → Bool
  | .name a, .name b => !Marginalia.notAfter b.toList a.toList
  | c, d => decide (c.rank < d.rank)

/-- Whether a sequence of components comes before another one or is the same; the first
difference decides. -/
def notAfter : List Component → List Component → Bool
  | [], _ => true
  | _ :: _, [] => false
  | c :: cs, d :: ds => c.before d || (decide (c = d) && notAfter cs ds)

/-- The component that a segment names at any place but the first, if it names one. -/
def ofSegment? (segment : String) : Option Component :=
  if segment = "" ∨ segment = "." then none
  else if segment = ".." then some .up
  else some (.name segment)

/-- The segments behind those that name these components, one after the other. -/
def behind? : List Component → List String → Option (List String)
  | [], segments => some segments
  | _ :: _, [] => none
  | c :: cs, s :: segments =>
    match ofSegment? s with
    | none => behind? (c :: cs) segments
    | some d => if d = c then behind? cs segments else none

end Component

namespace Path

/-- The parts of a text between slashes; there is one more of them than slashes. -/
def splitSlash : List Char → List (List Char)
  | [] => [[]]
  | c :: rest =>
    if c = '/' then [] :: splitSlash rest
    else match splitSlash rest with
      | [] => [[c]]
      | first :: others => (c :: first) :: others

def isAbsolute (p : Path) : Bool := p.text.toList.head? == some '/'

def isEmpty (p : Path) : Bool := p.text.toList.isEmpty

/-- Whether the path ends with a slash. -/
def endsWithSlash (p : Path) : Bool := p.text.toList.getLast? == some '/'

/-- The parts between slashes, after the leading slash of an absolute path. -/
def segments (p : Path) : List String :=
  let s := p.text.toList
  (splitSlash (if p.isAbsolute then s.drop 1 else s)).map String.ofList

/-- The components of a path. A single dot counts only where a relative path begins with it. -/
def components (p : Path) : List Component :=
  let parts := p.segments
  let start : List Component :=
    if p.isAbsolute then [.root] else if parts.head? == some "." then [.here] else []
  start ++ (parts.filter fun n => n != "" && n != ".").map fun n =>
    if n = ".." then .up else .name n

/-- The last component, when it is a name. -/
def fileName? (p : Path) : Option String :=
  match p.components.getLast? with
  | some (.name n) => some n
  | _ => none

/-- A path below another one; an absolute path stands for itself. -/
def join (p q : Path) : Path :=
  if q.isAbsolute then q
  else if p.isEmpty || p.endsWithSlash then ⟨p.text ++ q.text⟩
  else ⟨p.text ++ "/" ++ q.text⟩

/-- Whether a segment adds no component, `before` being the segments to its left. -/
def isVoid (absolute : Bool) (segment : String) (before : List String) : Bool :=
  segment == "" || (segment == "." && (absolute || !before.isEmpty))

/-- The path of segments given from right to left, without void segments at its end. -/
def ofReversed (absolute : Bool) : List String → Path
  | [] => ⟨if absolute then "/" else ""⟩
  | s :: before =>
    if isVoid absolute s before then ofReversed absolute before
    else ⟨(if absolute then "/" else "") ++ "/".intercalate (s :: before).reverse⟩

/-- The directories above a path, the innermost first, for segments given from right to left. -/
def above (absolute : Bool) : List String → List Path
  | [] => []
  | s :: before =>
    if isVoid absolute s before then above absolute before
    else ofReversed absolute before :: above absolute before

/-- The directories above a path, the innermost first. -/
def ancestors (p : Path) : List Path := above p.isAbsolute p.segments.reverse

/-- The directory that holds what a path names. -/
def parent? (p : Path) : Option Path := p.ancestors.head?

/-- Whether a path comes before another one or has the same components. -/
def notAfter (p q : Path) : Bool := Component.notAfter p.components q.components

/-- The path of segments without those at either end that name nothing. -/
def ofSegments (segments : List String) : Path :=
  ofReversed false (segments.dropWhile fun s => (Component.ofSegment? s).isNone).reverse

/-- What is left of a path behind another one, if it begins with all components of that one. -/
def stripPrefix? (p base : Path) : Option Path :=
  let startsHere := !p.isAbsolute && p.segments.head? == some "."
  match base.components with
  | [] => some (ofReversed p.isAbsolute p.segments.reverse)
  | .root :: rest =>
    if p.isAbsolute then (Component.behind? rest p.segments).map ofSegments else none
  | .here :: rest =>
    if startsHere then (Component.behind? rest p.segments.tail).map ofSegments else none
  | c :: rest =>
    if p.isAbsolute || startsHere then none
    else (Component.behind? (c :: rest) p.segments).map ofSegments

def quoted (p : Path) : String := Text.quoted p.text

end Path

end Marginalia
