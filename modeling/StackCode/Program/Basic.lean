/-
The intermediate program: blocks of variable declarations, memory-mapped names,
and a stream of instructions and labels. Labels and variables are named, not
numbered; the loader gives them their addresses.
-/
import StackCode.Opcode.Mnemonic
import StackCode.Value

namespace StackCode

/-- An opcode with its operands. -/
structure Instruction where
  opcode : Opcode
  arg : Option Value := none
  arg2 : Option Value := none
  /-- The label or variable that the instruction refers to. -/
  label : Option String := none
  /-- A text that the instruction carries along. -/
  payload : Option String := none
deriving DecidableEq, Repr

/-- An instruction or a label definition. -/
inductive Entry where
  | instruction (i : Instruction)
  | label (name : String) (isSubroutine : Bool)
deriving DecidableEq, Repr

/-- The instruction marks the source line of the code behind it. -/
def Instruction.isLine (i : Instruction) : Bool := i.opcode = .line

def Entry.instruction? : Entry → Option Instruction
  | instruction i => some i
  | label .. => none

def Entry.isLine : Entry → Bool
  | instruction i => i.isLine
  | label .. => false

/-- Where a declared variable lives. -/
inductive Storage where
  /-- In a slot that the machine manages. -/
  | plain
  /-- Nowhere: its uses have been replaced by its value. -/
  | const
  /-- At a fixed address. -/
  | memory (address : UInt16)
deriving DecidableEq, Repr

/-- A slot that the machine manages. -/
structure Variable where
  name : String
  datatype : DataType
  /-- The number of elements of a string or an array. -/
  length : Option UInt16
deriving DecidableEq, Repr

/-- A name for a fixed address. -/
structure MemoryPointer where
  name : String
  address : UInt16
  datatype : DataType
deriving DecidableEq, Repr

structure Block where
  name : String
  address : Option UInt16
  options : List String
  vars : List Variable
  pointers : List MemoryPointer
  entries : List Entry
deriving DecidableEq, Repr

def Block.instructions (b : Block) : List Instruction := b.entries.filterMap (·.instruction?)

structure Program where
  name : String
  loadAddress : Option UInt16
  blocks : List Block
deriving DecidableEq, Repr

end StackCode
