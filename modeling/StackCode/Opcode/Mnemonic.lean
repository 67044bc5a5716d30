/-
The names of the opcodes. A family of opcodes is named by one rule: the name of the
operation and the tag of the type or the size.
-/
import StackCode.Opcode.Basic

namespace StackCode.Opcode

/-- The tag of a type, with floats spelled out. -/
def longTag : NumType → String
  | .float => "FLOAT"
  | t => t.tag

/-- The tag of a size, with floats abbreviated. -/
def shortTag : Size → String
  | .float => "F"
  | s => s.tag

/-- The tag of the signed type of a size. -/
def signedTag : Size → String
  | .byte => "B"
  | .word => "W"
  | .float => "F"

/-- The tag of an integer type that tells signed from unsigned by a letter before the size. -/
def shiftTag (t : IntType) : String :=
  (if t.isSigned then "S" else "U") ++ t.size.tag

/-- The suffix of the instructions that test an integer of this size. -/
def testTag : IntSize → String
  | .byte => ""
  | .word => "W"

/-- The name of an opcode in listings and serialized programs. -/
def mnemonic : Opcode → String
  | push s => "PUSH_" ++ s.tag
  | pushVar s => "PUSH_VAR_" ++ s.tag
  | pushAddress => "PUSH_ADDR_HEAPVAR"
  | pushMem t => "PUSH_MEM_" ++ longTag t
  | pushMemRead => "PUSH_MEMREAD"
  | pushPair p => "PUSH_REG" ++ p.name ++ "_WORD"
  | dup .byte => "DUP_B"
  | dup .word => "DUP_W"
  | discard s => "DISCARD_" ++ s.tag
  | popVar s => "POP_VAR_" ++ s.tag
  | popMem s => "POP_MEM_" ++ s.tag
  | popMemWrite => "POP_MEMWRITE"
  | popPair p => "POP_REG" ++ p.name ++ "_WORD"
  | readIndexed s => "READ_INDEXED_VAR_" ++ s.tag
  | writeIndexed s => "WRITE_INDEXED_VAR_" ++ s.tag
  | incVar t => "INC_VAR_" ++ t.tag
  | decVar t => "DEC_VAR_" ++ t.tag
  | incIndexed t => "INC_INDEXED_VAR_" ++ longTag t
  | decIndexed t => "DEC_INDEXED_VAR_" ++ longTag t
  | incMemory => "INC_MEMORY"
  | decMemory => "DEC_MEMORY"
  | popIncMemory => "POP_INC_MEMORY"
  | popDecMemory => "POP_DEC_MEMORY"
  | add t => "ADD_" ++ t.tag
  | sub t => "SUB_" ++ t.tag
  | mul t => "MUL_" ++ t.tag
  | intDiv t => "IDIV_" ++ t.tag
  | floatDiv => "DIV_F"
  | remainder .byte => "REMAINDER_UB"
  | remainder .word => "REMAINDER_UW"
  | pow => "POW_F"
  | neg s => "NEG_" ++ signedTag s
  | abs s => "ABS_" ++ signedTag s
  | bitAnd s => "BITAND_" ++ s.tag
  | bitOr s => "BITOR_" ++ s.tag
  | bitXor s => "BITXOR_" ++ s.tag
  | boolAnd s => "AND_" ++ s.tag
  | boolOr s => "OR_" ++ s.tag
  | boolXor s => "XOR_" ++ s.tag
  | invert s => "INV_" ++ s.tag
  | boolNot s => "NOT_" ++ s.tag
  | msb => "MSB"
  | mkword => "MKWORD"
  | shiftedLeft s => "SHIFTEDL_" ++ s.tag
  | shiftedRight t => "SHIFTEDR_" ++ shiftTag t
  | shiftLeft s => "SHL_" ++ s.tag
  | shiftRight t => "SHR_" ++ shiftTag t
  | rotateLeft s => "ROL_" ++ s.tag
  | rotateRight s => "ROR_" ++ s.tag
  | rotateLeftCarry s => "ROL2_" ++ s.tag
  | rotateRightCarry s => "ROR2_" ++ s.tag
  | less t => "LESS_" ++ t.tag
  | greater t => "GREATER_" ++ t.tag
  | lessEq t => "LESSEQ_" ++ t.tag
  | greaterEq t => "GREATEREQ_" ++ t.tag
  | equal s => "EQUAL_" ++ shortTag s
  | notEqual s => "NOTEQUAL_" ++ shortTag s
  | compare t => "CMP_" ++ t.tag
  | cast source target _ => "CAST_" ++ source.tag ++ "_TO_" ++ target.tag
  | jump => "JUMP"
  | jumpZero s => "JZ" ++ testTag s
  | jumpNonzero s => "JNZ" ++ testTag s
  | branch test => test.mnemonic
  | call => "CALL"
  | ret => "RETURN"
  | returnFromIrq => "RETURNFROMIRQ"
  | syscall => "SYSCALL"
  | nop => "NOP"
  | setCarry => "SEC"
  | clearCarry => "CLC"
  | setInterrupt => "SEI"
  | clearInterrupt => "CLI"
  | saveRegisters => "RSAVE"
  | restoreRegisters => "RRESTORE"
  | saveX => "RSAVEX"
  | restoreX => "RRESTOREX"
  | carryToA => "CARRY_TO_A"
  | startProc => "START_PROCDEF"
  | endProc => "END_PROCDEF"
  | line => "LINE"
  | inlineAssembly => "INLINE_ASSEMBLY"
  | includeFile => "INCLUDE_FILE"
  | breakpoint => "BREAKPOINT"

instance : ToString Opcode := ⟨mnemonic⟩

def ofMnemonic? (s : String) : Option Opcode := all.find? (·.mnemonic == s)

end StackCode.Opcode
