import Marginalia.Text.Quoted

/-! The kinds of tagged comments, in the order of their sections in a checklist. -/
namespace Marginalia

/-- The kind of a tagged comment. -/
inductive Kind where
  | todo
  | fixme
  | bug
  | danger
  | todocs
deriving DecidableEq

namespace Kind

/-- All kinds, in order. -/
def all : List Kind := [.todo, .fixme, .bug, .danger, .todocs]

/-- The word that a tag of this kind begins with, in upper case. -/
def word : Kind → List Char
  | .todo => ['T', 'O', 'D', 'O']
  | .fixme => ['F', 'I', 'X', 'M', 'E']
  | .bug => ['B', 'U', 'G']
  | .danger => ['D', 'A', 'N', 'G', 'E', 'R']
  | .todocs => ['T', 'O', 'D', 'O', 'C', 'S']

def name (k : Kind) : String := String.ofList k.word

/-- The header of the section that lists this kind. -/
def header : Kind → String
  | .todo => "TODOs"
  | .fixme => "'FIXME's"
  | .bug => "BUGs"
  | .danger => "DANGERs"
  | .todocs => "TODOCSes"

/-- The place of a kind in the order. -/
def index : Kind → Nat
  | .todo => 0
  | .fixme => 1
  | .bug => 2
  | .danger => 3
  | .todocs => 4

/-- The kind with this word in any ASCII case. -/
def ofWord? (s : List Char) : Option Kind :=
  all.find? fun k => decide (s.map Char.toUpper = k.word)

/-- What is said of a word that names no kind. -/
def unknownMessage (s : String) : String := "unknown comment kind " ++ Text.quoted s

end Kind

end Marginalia
