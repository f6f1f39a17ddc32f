/-!
# File trees

Directories and what is below them, as data: files with their texts, and a device that
holds nothing. Paths are texts with slashes; they are resolved part by part, and each
part but the last must name a directory. A path that starts with a slash is resolved
from the root, any other from the directory that the tree is used from.
-/

namespace ArrayGraph

/-- Why a file can't be read or written. -/
inductive FileError
  | notFound | exists | notADirectory | isADirectory | nameTooLong
  /-- The path has a null character in it. -/
  | nullCharacter
  /-- A reason in words of its own. -/
  | other (message : String)
  deriving DecidableEq, Repr

def FileError.message : FileError → String
  | notFound => "No such file or directory (os error 2)"
  | .exists => "File exists (os error 17)"
  | notADirectory => "Not a directory (os error 20)"
  | isADirectory => "Is a directory (os error 21)"
  | nameTooLong => "File name too long (os error 36)"
  | nullCharacter => "file name contained an unexpected NUL byte"
  | other message => message

/-! ## Nodes -/

inductive FileNode
  | file (text : String)
  /-- A file that is empty and stays so, whatever is written to it. -/
  | sink
  | directory (entries : List (String × FileNode))

namespace FileNode

/-- The text of a file. -/
def text? : FileNode → Option String
  | file text => some text
  | sink => some ""
  | directory _ => none

def isDirectory (n : FileNode) : Bool := n.text?.isNone

/-- What is in a directory under a name. -/
def child? (n : FileNode) (name : String) : Option FileNode :=
  match n with
  | directory entries => entries.lookup name
  | _ => none

/-- The directory with a node under a name, in the place of what was there. -/
def withChild (n : FileNode) (name : String) (c : FileNode) : FileNode :=
  match n with
  | directory entries => directory ((name, c) :: entries.filter (·.1 != name))
  | n => n

/-- What is there after a text was written. -/
def rewritten (text : String) : Option FileNode → FileNode
  | some sink => sink
  | _ => file text

/-- What is at the end of a way down. -/
def at? (n : FileNode) : List String → Option FileNode
  | [] => some n
  | name :: names =>
    match n.child? name with
    | some c => c.at? names
    | none => none

/-- The node with another at the end of a way down, of which all but the last step is
there. -/
def put (n : FileNode) : List String → FileNode → FileNode
  | [], e => e
  | name :: names, e =>
    match n.child? name with
    | some c => n.withChild name (c.put names e)
    | none => n.withChild name e

end FileNode

/-! ## Trees -/

structure FileTree where
  root : FileNode
  /-- The way from the root to the directory that the tree is used from. -/
  here : List String
  /-- The number of bytes that are put before a path that does not start with a slash. -/
  lead : Nat

namespace FileTree

/-- A tree that is used from an empty directory. -/
def empty : FileTree where
  root := .directory
    [("dev", .directory [("null", .sink)]), ("tmp", .directory [("scratch.0", .directory [])])]
  here := ["tmp", "scratch.0"]
  lead := 0

/-- The longest path, in bytes. -/
def pathLimit : Nat := 4095

/-- The longest name that a directory can hold, in bytes. -/
def nameLimit : Nat := 255

/-- The parts of a path from inside a part on, whose characters so far are reversed. -/
def partsFrom (part : List Char) : List Char → List String
  | [] => [String.ofList part.reverse]
  | c :: cs =>
    if c = '/' then String.ofList part.reverse :: partsFrom [] cs else partsFrom (c :: part) cs

/-- The parts of a path. -/
def parts (path : String) : List String := partsFrom [] path.toList

/-- Whether a part of a path stays where it is. -/
def isStill (part : String) : Bool := part == "" || part == "."

/-- The parts of a path that is fit to be used. -/
def usableParts (t : FileTree) (path : String) : Except FileError (List String) :=
  if path.toList.contains '\x00' then .error .nullCharacter
  else if pathLimit < (if path.startsWith "/" then 0 else t.lead) + path.utf8ByteSize then
    .error .nameTooLong
  else .ok (parts path)

/-- Where a path starts. -/
def start (t : FileTree) (path : String) : List String :=
  if path.startsWith "/" then [] else t.here

/-- Goes on from a place below a node; what the parts lead to need not be there. -/
def walk (root : FileNode) (here : List String) : List String → Except FileError (List String)
  | [] => .ok here
  | part :: rest =>
    match root.at? here with
    | none => .error .notFound
    | some n =>
      if !n.isDirectory then .error .notADirectory
      else if isStill part then walk root here rest
      else if part = ".." then walk root here.dropLast rest
      else if nameLimit < part.utf8ByteSize then .error .nameTooLong
      else walk root (here ++ [part]) rest

/-- The text of a file. -/
def read (t : FileTree) (path : String) : Except FileError String := do
  let names ← walk t.root (t.start path) (← t.usableParts path)
  match t.root.at? names with
  | none => .error .notFound
  | some n =>
    match n.text? with
    | some text => .ok text
    | none => .error .isADirectory

/-- Where a file can be written: a path that ends with a slash names a directory, be
it there or not. -/
def target (root : FileNode) (here : List String) (ps : List String) :
    Except FileError (List String) := do
  let kept := (ps.reverse.dropWhile (· == "")).reverse
  match kept.getLast? with
  | none => .error .isADirectory
  | some last =>
    if ps.getLast? = some "" ∧ last ≠ "." ∧ last ≠ ".." then
      let _ ← walk root here (kept.dropLast ++ [""])
      .error .isADirectory
    else
      let names ← walk root here ps
      if (root.at? names).any FileNode.isDirectory then .error .isADirectory else .ok names

/-- The tree with a file written. The directory that holds it must be there. -/
def write (t : FileTree) (path text : String) : Except FileError FileTree := do
  let names ← target t.root (t.start path) (← t.usableParts path)
  return { t with root := t.root.put names (.rewritten text (t.root.at? names)) }

/-! ## Making directories -/

/-- The node with the directories of a way made, as far as nothing hinders it, and
what hinders it. A file on the way is said to exist when it is the last step or
directories were made before it, and otherwise to be no directory. -/
def ensure (root : FileNode) (here : List String) (made : Bool) :
    List String → FileNode × Option FileError
  | [] => (root, none)
  | part :: rest =>
    if isStill part then ensure root here made rest
    else if part = ".." then ensure root here.dropLast made rest
    else if nameLimit < part.utf8ByteSize then (root, some .nameTooLong)
    else
      let next := here ++ [part]
      match root.at? next with
      | none => ensure (root.put next (.directory [])) next true rest
      | some n =>
        if n.isDirectory then ensure root next made rest
        else (root, some (if made || rest.isEmpty then .exists else .notADirectory))

/-- The parts of the path to the directory that holds what a path leads to. -/
def parentParts (path : String) : List String :=
  (((parts path).reverse.dropWhile isStill).tail.dropWhile isStill).reverse

/-- The tree with the directory made that holds what a path leads to, and those that
lead to it, as far as nothing hinders it, and what hinders it. -/
def ensureParent (t : FileTree) (path : String) : FileTree × Option FileError :=
  let ps := parentParts path
  match t.usableParts (String.intercalate "/" ps) with
  | .error e => (t, some e)
  | .ok _ =>
    let (root, e) := ensure t.root (t.start path) false ps
    ({ t with root }, e)

/-! ## Names of files -/

/-- The name at the end of a path. -/
def fileName? (path : String) : Option String :=
  ((parts path).filter (!isStill ·)).getLast?.filter (· != "..")

/-- What follows the last dot of the name at the end of a path. A dot at the start
of a name does not count. -/
def extension? (path : String) : Option String :=
  (fileName? path).bind fun name =>
    let reversed := name.toList.reverse
    let after := reversed.takeWhile (· != '.')
    match reversed.dropWhile (· != '.') with
    | _ :: _ :: _ => some (String.ofList after.reverse)
    | _ => none

/-- A path that goes on from a directory. -/
def join (directory path : String) : String :=
  if path.startsWith "/" || directory = "" then path
  else if directory.endsWith "/" then directory ++ path
  else directory ++ "/" ++ path

end FileTree

end ArrayGraph
