/-
The compiler from end to end: the text of a checked program becomes the text of an
intermediate program.
-/
import StackCode.Configuration
import StackCode.Include.Search
import StackCode.Lowering.Tree
import StackCode.Tree.Data.Program

namespace StackCode

/-- Why nothing is compiled. -/
inductive CompileError where
  | invalidTree
  /-- The configuration, of the file at the path, cannot be read. -/
  | invalidConfiguration (path : String)
  | lowering (e : LowerError)
  | sourceFile (fault : FileFault)
  | outputFile (fault : FileFault)
  | configurationFile (path : String) (fault : FileFault)

def CompileError.message : CompileError → String
  | invalidTree => "Invalid program tree"
  | invalidConfiguration path => s!"Invalid configuration ({path})"
  | lowering e => "Lowering failed: " ++ e.message
  | sourceFile fault => "Failed to read source file: " ++ fault.message
  | outputFile fault => "Failed to write output file: " ++ fault.message
  | configurationFile path fault => s!"Failed to read config file {path}: {fault.message}"

/-- The intermediate program of a checked program, under a configuration. -/
def Tree.program (t : Tree) (c : Configuration) (loader : IncludeLoader) :
    Except LowerError Program :=
  t.lower { symbols := .ofTree t, markLines := c.markLines, loader }

/-- The checked program that a text holds. -/
def Tree.ofText (text : String) : Except CompileError Tree :=
  match Tree.parse? text with
  | some t => .ok t
  | none => .error .invalidTree

/-- Compiles a checked program to text. -/
def Tree.compile (t : Tree) (c : Configuration) (loader : IncludeLoader) :
    Except CompileError String :=
  match t.program c loader with
  | .ok p => .ok (p.render c.format)
  | .error e => .error (.lowering e)

/-! ## With files -/

section Files

variable {m : Type → Type} [Monad m] (files : FileAccess m)

/-- Compiles a text; the texts that it includes are read from files. -/
def compileText (c : Configuration) (text : String) : ExceptT CompileError m String := do
  let t ← Tree.ofText text
  let loader ← ExceptT.lift (Include.loader files c.libraryDirs t)
  t.compile c loader

def readSource (path : String) : ExceptT CompileError m String := do
  match ← ExceptT.lift (files.read path) with
  | .ok text => return text
  | .error fault => throw (.sourceFile fault)

def writeOutput (path text : String) : ExceptT CompileError m Unit := do
  match ← ExceptT.lift (files.write path text) with
  | .ok () => return ()
  | .error fault => throw (.outputFile fault)

/-- Compiles the text in one file into another file. -/
def compileFile (c : Configuration) (input output : String) : ExceptT CompileError m Unit := do
  writeOutput files output (← compileText files c (← readSource files input))

/-- The configuration that a file holds. -/
def readConfiguration (path : String) : ExceptT CompileError m Configuration := do
  match ← ExceptT.lift (files.read path) with
  | .error fault => throw (.configurationFile path fault)
  | .ok text =>
    match Configuration.ofToml? text with
    | some c => return c
    | none => throw (.invalidConfiguration path)

end Files

end StackCode
