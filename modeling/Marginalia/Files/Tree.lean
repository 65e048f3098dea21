import Marginalia.Files.Path

/-! A tree of files, directories and links. The working directory is the top of the tree, and the
directory above it is the top again.

Left out are a working directory below the top, from which relative paths would start; names that
are not UTF-8, which would be shown with replacement characters; and permissions, hard links and
special files. -/
namespace Marginalia

/-- What can stand under a name: a file with its bytes, a link with its target as written, or a
directory with its entries in the order in which they are listed. -/
inductive Node where
  | file (content : List UInt8)
  | link (target : Path)
  | directory (entries : List (String × Node))

/-- The entries of a directory. -/
abbrev Entries := List (String × Node)

/-- The names that lead from the top to an entry, none of them a link. -/
abbrev Location := List String

/-- The entries with a node under a name, in the place of the entry of that name or at the end. -/
def Entries.insert : Entries → String → Node → Entries
  | [], name, node => [(name, node)]
  | (n, x) :: rest, name, node =>
    if n = name then (name, node) :: rest else (n, x) :: Entries.insert rest name node

/-- The entries without a name. -/
def Entries.remove (entries : Entries) (name : String) : Entries :=
  entries.filter fun e => e.1 != name

namespace Node

def isDirectory : Node → Bool
  | .directory _ => true
  | _ => false

/-- The node at a location below this one. -/
def at? : Node → Location → Option Node
  | node, [] => some node
  | .directory entries, name :: rest =>
    match entries.lookup name with
    | some node => node.at? rest
    | none => none
  | _, _ :: _ => none

/-- The tree with a node at a location; nothing changes where no directory holds the location. -/
def put : Node → Location → Node → Node
  | _, [], new => new
  | .directory entries, name :: rest, new =>
    match entries.lookup name, rest with
    | some node, _ => .directory (Entries.insert entries name (node.put rest new))
    | none, [] => .directory (Entries.insert entries name new)
    | none, _ :: _ => .directory entries
  | node, _ :: _, _ => node

/-- The tree without the node at a location. -/
def erase : Node → Location → Node
  | node, [] => node
  | .directory entries, [name] => .directory (Entries.remove entries name)
  | .directory entries, name :: rest =>
    match entries.lookup name with
    | some node => .directory (Entries.insert entries name (node.erase rest))
    | none => .directory entries
  | node, _ :: _ => node

mutual

/-- The entries below a node with the way to them: a slash follows a directory, an arrow a link. -/
def listing (way : String) : Node → List String
  | .directory entries => listingOf way entries
  | .file _ => []
  | .link _ => []

/-- The listings of the entries of a directory, one after the other. -/
def listingOf (way : String) : List (String × Node) → List String
  | [] => []
  | (name, node) :: rest =>
    let mark :=
      match node with
      | .file _ => ""
      | .link _ => " ->"
      | .directory _ => "/"
    (way ++ name ++ mark) :: (node.listing (way ++ name ++ "/") ++ listingOf way rest)

end

end Node

end Marginalia
