/-
The search for included texts in files. A name that starts with `library:` is
looked for in the library directories first; every name is looked for beside the
module that asks for it, and then from the work directory.
-/
import StackCode.Files.Path
import StackCode.Include.Basic
import StackCode.Tree.Traversal

namespace StackCode.Include

def libraryMark : String := "library:"

/-- Whether a text is asked for from the library, and the path of its file. -/
def target (name : String) : Bool × String :=
  match name.dropPrefix? libraryMark with
  | some path => (true, path.copy)
  | none => (false, name)

/-- The paths where a text may be, in the order of the search. -/
def candidates (libraryDirs : List String) (name source : String) :
    Except IncludeFault (List String) :=
  let (inLibrary, path) := target name
  if path.isEmpty then .error .emptyPath
  else if Path.isAbsolute path then .ok [path]
  else
    .ok ((if inLibrary then libraryDirs.map (Path.join · path) else []) ++
      ((Path.parent? source).map (Path.join · path)).toList ++ [path])

/-- The content of the first of the paths that has a file. -/
def firstFile {m : Type → Type} [Monad m] (files : FileAccess m) (name : String)
    (searched : List String) : List String → m (Except IncludeFault String)
  | [] => return .error (.notFound name searched)
  | path :: rest => do
    match ← files.read path with
    | .ok text => return .ok text
    | .error fault =>
      if fault.isAbsence then firstFile files name searched rest
      else return .error (.unreadable path fault)

/-- The text of the given name that the module at `source` asks for. -/
def search {m : Type → Type} [Monad m] (files : FileAccess m) (libraryDirs : List String)
    (name source : String) : m (Except IncludeFault String) :=
  match candidates libraryDirs name source with
  | .error fault => return .error fault
  | .ok paths => firstFile files name paths paths

/-! ## Programs -/

/-- The name of the text that a statement includes. -/
def name? : Statement → Option String
  | .directive "%asminclude" (.str name :: _) _ => some name
  | _ => none

/-- The texts that a program may ask for, with the paths of the modules that do. -/
def requests (t : Tree) : List (String × String) :=
  t.modules.flatMap fun m =>
    (m.blocks.flatMap fun b => (Statement.allOf b.statements).filterMap name?).map (·, m.source)

/-- All texts that a program may ask for, read ahead. -/
def loader {m : Type → Type} [Monad m] (files : FileAccess m) (libraryDirs : List String)
    (t : Tree) : m IncludeLoader := do
  let texts ← (requests t).mapM fun (name, source) => do
    return ((name, source), ← search files libraryDirs name source)
  return fun name source => (texts.lookup (name, source)).getD (.error (.unknown name))

end StackCode.Include
