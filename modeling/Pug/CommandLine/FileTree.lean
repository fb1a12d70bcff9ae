/-!
# Trees of files

The files below a path, as a value. A path is resolved name by name; `.` stays where it is, `..`
goes up, and both need a folder to stand in. A tree is walked depth first, each folder before what
is in it, and the entries of a folder by the bytes of their names, which is the order of their
code points.
-/

namespace Pug

/-- A file or a folder. -/
inductive FileTree where
  /-- A file: its bytes, or why they cannot be read. -/
  | file (content : Except String ByteArray)
  | folder (entries : List (String × FileTree))

/-- What a walk comes across: a path, and the bytes there or why they cannot be read. -/
structure FileTree.Entry where
  path : String
  content : Except String ByteArray

namespace FileTree

/-- The parts of a path between its slashes. -/
def pathParts (path : String) : List String :=
  (path.toList.splitOn '/').map String.ofList

/-- Puts a file or folder where some names lead, in folders that are made where they are missing.
-/
def insert (tree : FileTree) : List String → FileTree → FileTree
  | [], new => new
  | name :: names, new =>
    let entries := match tree with
      | .folder entries => entries
      | .file _ => []
    let inner := (entries.lookup name).getD (.folder [])
    .folder ((name, inner.insert names new) :: entries.filter (·.1 != name))

/-- Goes down a path from the innermost of some nested folders, whose enclosing ones follow it. -/
def descend : List FileTree → List String → Option FileTree
  | [], _ => none
  | tree :: _, [] => some tree
  | .file _ :: _, _ :: _ => none
  | .folder entries :: around, part :: parts =>
    if part == "" || part == "." then descend (.folder entries :: around) parts
    else if part == ".." then descend around parts
    else
      match entries.lookup part with
      | none => none
      | some tree => descend (tree :: .folder entries :: around) parts

/-- What stands at a relative path. -/
def resolve (tree : FileTree) (path : String) : Option FileTree :=
  if path.toList.head? == some '/' then none else descend [tree] (pathParts path)

/-- The path of an entry of the folder at `path`. -/
def join (path name : String) : String :=
  if path.toList.getLast? == some '/' then path ++ name else path ++ "/" ++ name

/-- The name that a path ends in; `.` is no name, and a path that ends in `..` has none. -/
def fileName? (path : String) : Option String :=
  match ((pathParts path).filter (fun part ↦ part != "" && part != ".")).getLast? with
  | some ".." => none
  | name => name

/-- What follows the last dot of a name, unless that dot is its first character. -/
def extension? (name : String) : Option String :=
  let cs := name.toList
  let ext := (cs.reverse.takeWhile (· != '.')).reverse
  if ext.length + 1 < cs.length then some (String.ofList ext) else none

/-- The path is that of a template. -/
def isTemplate (path : String) : Bool :=
  match (fileName? path).bind extension? with
  | some ext => ext == "pug" || ext == "jade"
  | none => false

/-- Puts the walks of some entries in the order of the names. -/
def inOrder (walks : List (String × List Entry)) : List Entry :=
  (walks.mergeSort (fun v w ↦ !(w.1 < v.1))).flatMap Prod.snd

mutual

/-- The tree at a path, and all below it, in order. -/
def walk (path : String) : FileTree → List Entry
  | .file content => [⟨path, content⟩]
  | .folder entries =>
    ⟨path, .error "Is a directory (os error 21)"⟩ :: inOrder (walkEach path entries)

/-- The walks of the entries of the folder at a path, with their names. -/
def walkEach (path : String) : List (String × FileTree) → List (String × List Entry)
  | [] => []
  | (name, tree) :: entries => (name, walk (join path name) tree) :: walkEach path entries

end

/-- The templates at and below a path, in order. -/
def templates (path : String) (tree : FileTree) : List Entry :=
  (tree.walk path).filter (fun e ↦ isTemplate e.path)

end FileTree

end Pug
