/-
The sink that code is written into.

A sink collects an intermediate program: a block is opened, and variables,
instructions and labels go to the block that was opened last. What has been
written stays, with two exceptions: the latest instruction can be taken back, and
of two line markers in a row only the second one is kept.

An operation on a sink gives the new sink also when it fails, since a label is
noted as defined before a block is looked for.
-/
import StackCode.Program.Basic

namespace StackCode

/-- A wrong use of a sink. -/
inductive SinkError where
  | noBlock
  | nothingToRemove (block : String)
  | duplicateLabel (name : String)
deriving DecidableEq, Repr

def SinkError.message : SinkError → String
  | noBlock => "no block is open"
  | nothingToRemove block => s!"no instruction to remove in block '{block}'"
  | duplicateLabel name => s!"label '{name}' defined twice"

/-- A block that is being written. -/
structure OpenBlock where
  name : String
  address : Option UInt16
  options : List String
  vars : List Variable := []
  pointers : List MemoryPointer := []
  /-- What has been written, the latest first. -/
  recent : List Entry := []
deriving DecidableEq, Repr

def OpenBlock.close (b : OpenBlock) : Block where
  name := b.name
  address := b.address
  options := b.options
  vars := b.vars
  pointers := b.pointers
  entries := b.recent.reverse

/-- A program that is being written. -/
structure Sink where
  name : String
  loadAddress : Option UInt16 := none
  /-- The finished blocks, the latest first. -/
  closed : List Block := []
  current : Option OpenBlock := none
  /-- The labels defined so far. -/
  labels : List String := []
deriving DecidableEq, Repr

/-- The program written so far. -/
def Sink.program (s : Sink) : Program where
  name := s.name
  loadAddress := s.loadAddress
  blocks := s.closed.reverse ++ (s.current.map OpenBlock.close).toList

/-- A sink that goes on where a program ends. Its labels are not known as defined. -/
def Sink.ofProgram (p : Program) : Sink :=
  let s : Sink := { name := p.name, loadAddress := p.loadAddress }
  match p.blocks.reverse with
  | [] => s
  | last :: earlier =>
    { s with
      closed := earlier
      current := some {
        name := last.name
        address := last.address
        options := last.options
        vars := last.vars
        pointers := last.pointers
        recent := last.entries.reverse } }

/-- Operations that change a sink and may fail. -/
abbrev SinkM := ExceptT SinkError (StateM Sink)

namespace Sink

/-- Opens a block; all that follows goes there. -/
def openBlock (name : String) (address : Option UInt16) (options : List String) : SinkM Unit :=
  modify fun s =>
    { s with
      closed := (s.current.map OpenBlock.close).toList ++ s.closed
      current := some { name, address, options } }

/-- Changes the open block. -/
def modifyBlock (f : OpenBlock → OpenBlock) : SinkM Unit := do
  match (← get).current with
  | none => throw .noBlock
  | some b => modify fun s => { s with current := some (f b) }

/-- Declares a name for a fixed address. -/
def pointer (name : String) (address : UInt16) (datatype : DataType) : SinkM Unit :=
  modifyBlock fun b => { b with pointers := b.pointers ++ [⟨name, address, datatype⟩] }

/-- Declares a variable where it lives. A constant lives nowhere and leaves no trace. -/
def declare (name : String) (datatype : DataType) (storage : Storage) (length : Option UInt16) :
    SinkM Unit :=
  match storage with
  | .plain =>
    modifyBlock fun b => { b with vars := b.vars ++ [⟨name, datatype, length⟩] }
  | .memory address => pointer name address datatype
  | .const => modifyBlock id

def write (e : Entry) : SinkM Unit :=
  modifyBlock fun b => { b with recent := e :: b.recent }

def instruction (i : Instruction) : SinkM Unit := write (.instruction i)

/-- Defines a label at the current place. -/
def label (name : String) (isSubroutine : Bool) : SinkM Unit := do
  if name ∈ (← get).labels then throw (.duplicateLabel name)
  modify fun s => { s with labels := name :: s.labels }
  write (.label name isSubroutine)

/-- The marker for a source line. -/
def lineMarker (line : Nat) (file : String) : Instruction where
  opcode := .line
  label := some s!"{line} {file}"

/-- Puts a marker in place of a marker right before it. -/
def mark (marker : Instruction) : List Entry → List Entry
  | last :: rest => if last.isLine then .instruction marker :: rest
    else .instruction marker :: last :: rest
  | [] => [.instruction marker]

/-- Notes the source line of the code that follows. -/
def line (line : Nat) (file : String) : SinkM Unit :=
  modifyBlock fun b => { b with recent := mark (lineMarker line file) b.recent }

/-- Takes the latest instruction that is no line marker out of a stream with the latest entry first.
There is none to take if a label was defined after it: the label would come to stand elsewhere. -/
def takeLatest : List Entry → Option (Instruction × List Entry)
  | [] => none
  | .label .. :: _ => none
  | .instruction i :: rest =>
    if i.isLine then (takeLatest rest).map fun (taken, left) => (taken, .instruction i :: left)
    else some (i, rest)

/-- Takes the latest instruction back, looking past line markers. -/
def removeLatest : SinkM Instruction := do
  match (← get).current with
  | none => throw .noBlock
  | some b =>
    match takeLatest b.recent with
    | none => throw (.nothingToRemove b.name)
    | some (i, left) =>
      modify fun s => { s with current := some { b with recent := left } }
      return i

end Sink
end StackCode
