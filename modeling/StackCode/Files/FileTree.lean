/-
Files in memory: a tree of directories, in one of which the work is done.
-/
import StackCode.Files.Access
import StackCode.Files.Path

namespace StackCode

inductive FileNode where
  | directory
  | file (content : ByteArray)

/-- A tree of files. -/
structure FileTree where
  /-- What there is below the root, by the names that lead there. -/
  nodes : List (List String × FileNode) := []
  /-- The directory that relative paths start from. -/
  workDir : List String := []

namespace FileTree

/-! ## Building -/

def put (t : FileTree) (place : List String) (node : FileNode) : FileTree :=
  { t with nodes := (place, node) :: t.nodes.filter (·.1 != place) }

/-- The tree with a directory, and with all directories that it stands in. -/
def putDirectory (t : FileTree) (place : List String) : FileTree :=
  (List.range place.length).foldl (fun t n => t.put (place.take (n + 1)) .directory) t

/-- The tree with a file, and with all directories that it stands in. -/
def putFile (t : FileTree) (place : List String) (content : ByteArray) : FileTree :=
  (t.putDirectory place.dropLast).put place (.file content)

/-- The place that a path in the work directory names. -/
def place (t : FileTree) (path : String) : List String :=
  t.workDir ++ (Path.parts path).filter (!Path.isIdle ·)

/-- An empty work directory below the root. -/
def empty : FileTree := { workDir := ["work"] : FileTree }.putDirectory ["work"]

/-! ## Paths -/

def node? (t : FileTree) : List String → Option FileNode
  | [] => some .directory
  | place => t.nodes.lookup place

/-- Names and paths have a greatest length in bytes. -/
def maxName : Nat := 255

def maxPath : Nat := 4095

/-- A path leads on from a directory only. -/
def checkDirectory (t : FileTree) (here : List String) : Except FileFault Unit :=
  match t.node? here with
  | none => .error .missing
  | some (.file _) => .error .notDirectory
  | some .directory => .ok ()

/-- The place that a part of a path leads to from a place. There need not be anything yet. -/
def step (t : FileTree) (here : List String) (part : String) : Except FileFault (List String) := do
  t.checkDirectory here
  if Path.isIdle part then return here
  else if part == ".." then return here.dropLast
  else if maxName < part.utf8ByteSize then throw .nameTooLong
  else return here ++ [part]

/-- The place that the parts of a path lead to. -/
def walk (t : FileTree) (path : String) (parts : List String) : Except FileFault (List String) :=
  parts.foldlM t.step (if Path.isAbsolute path then [] else t.workDir)

/-- The parts of a path that can be looked up. -/
def checkedParts (path : String) : Except FileFault (List String) :=
  if path.contains '\x00' then .error .zeroInName
  else if path == "" then .error .missing
  else if maxPath < path.utf8ByteSize then .error .nameTooLong
  else .ok (Path.parts path)

/-! ## Access -/

def readText (t : FileTree) (path : String) : Except FileFault String := do
  let place ← t.walk path (← checkedParts path)
  match t.node? place with
  | none => throw .missing
  | some .directory => throw .isDirectory
  | some (.file content) =>
    match String.fromUTF8? content with
    | some text => return text
    | none => throw .notText

/-- The tree with a file written anew. The directory that it stands in must be there. A name with
a slash behind it is that of a directory, however long it is. -/
def writeText (t : FileTree) (path content : String) : Except FileFault FileTree := do
  let parts ← checkedParts path
  match parts.reverse.dropWhile (· == "") with
  | [] => throw .isDirectory
  | name :: above =>
    let above ← t.walk path above.reverse
    t.checkDirectory above
    if parts.getLast? = some "" then throw .isDirectory
    let place ← t.step above name
    match t.node? place with
    | some .directory => throw .isDirectory
    | _ => return t.put place (.file content.toUTF8)

/-- The access to the files of a tree. -/
def access : FileAccess (StateM FileTree) where
  read path := do return (← get).readText path
  write path content := do
    match (← get).writeText path content with
    | .ok t =>
      set t
      return .ok ()
    | .error e => return .error e

end FileTree
end StackCode
