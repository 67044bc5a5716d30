/-
The listing of an intermediate program.
-/
import StackCode.Program.Basic
import StackCode.Text.Quoted

namespace StackCode

/-- The opcode and its operands, apart by one blank each. The payload stands in quotes. -/
def Instruction.listing (i : Instruction) : String :=
  " ".intercalate <|
    [i.opcode.mnemonic] ++ (i.arg.map Value.listing).toList ++ (i.arg2.map Value.listing).toList ++
      i.label.toList ++ (i.payload.map Text.quoted).toList

def Entry.listing : Entry → String
  | instruction i => "    " ++ i.listing
  | label name _ => name ++ ":"

def Variable.listing (v : Variable) : String :=
  match v.length with
  | some n => s!"{v.name} {v.datatype} {n}"
  | none => s!"{v.name} {v.datatype}"

/-- An address as an operand. -/
def addressText (address : UInt16) : String := (Value.ofAddress address).listing

def MemoryPointer.listing (p : MemoryPointer) : String :=
  s!"{p.name} {p.datatype} {addressText p.address}"

def Block.heading (b : Block) : String :=
  match b.address with
  | some address => s!"%block {b.name} {addressText address}"
  | none => s!"%block {b.name}"

/-- The lines of a block, with an empty line in front. -/
def Block.lines (b : Block) : List String :=
  ["", b.heading] ++
    (if b.options.isEmpty then [] else ["%options " ++ ",".intercalate b.options]) ++
    ["%variables"] ++ b.vars.map Variable.listing ++ ["%end_variables"] ++
    ["%memorypointers"] ++ b.pointers.map MemoryPointer.listing ++ ["%end_memorypointers"] ++
    ["%instructions"] ++ b.entries.map Entry.listing ++ ["%end_instructions"] ++
    ["%end_block"]

def Program.heading (p : Program) : String :=
  match p.loadAddress with
  | some address => s!"; program {p.name} at {addressText address}"
  | none => s!"; program {p.name}"

/-- The listing, every line of which ends with a line feed. -/
def Program.listing (p : Program) : String :=
  String.join ((p.heading :: p.blocks.flatMap Block.lines).map (· ++ "\n"))

end StackCode
