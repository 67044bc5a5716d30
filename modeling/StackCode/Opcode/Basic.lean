/-
The instruction set of the stack machine.

An opcode is an operation together with the size or the type that it works on,
so the mnemonics of a family are made by one rule. `Opcode.all` lists the whole
set in its fixed order.
-/
import StackCode.DataType.Basic

namespace StackCode

/-- A pair of CPU registers that holds a word. -/
inductive RegisterPair where
  | ax
  | ay
  | xy
deriving DecidableEq, Repr

namespace RegisterPair

def all : List RegisterPair := [ax, ay, xy]

def name : RegisterPair → String
  | ax => "AX"
  | ay => "AY"
  | xy => "XY"

end RegisterPair

/-- A test of a CPU status flag. -/
inductive FlagTest where
  | carrySet
  | carryClear
  | zero
  | notZero
  | overflowSet
  | overflowClear
  | negative
  | positive
deriving DecidableEq, Repr

namespace FlagTest

def all : List FlagTest :=
  [carrySet, carryClear, zero, notZero, overflowSet, overflowClear, negative, positive]

def mnemonic : FlagTest → String
  | carrySet => "BCS"
  | carryClear => "BCC"
  | zero => "BZ"
  | notZero => "BNZ"
  | overflowSet => "BVS"
  | overflowClear => "BVC"
  | negative => "BNEG"
  | positive => "BPOS"

/-- The test that holds exactly when this one fails. -/
def complement : FlagTest → FlagTest
  | carrySet => carryClear
  | carryClear => carrySet
  | zero => notZero
  | notZero => zero
  | overflowSet => overflowClear
  | overflowClear => overflowSet
  | negative => positive
  | positive => negative

end FlagTest

/-- An instruction of the stack machine, without its operands. -/
inductive Opcode where
  -- The stack, variables and memory.
  | push (s : Size)
  | pushVar (s : Size)
  | pushAddress
  | pushMem (t : NumType)
  | pushMemRead
  | pushPair (p : RegisterPair)
  | dup (s : IntSize)
  | discard (s : Size)
  | popVar (s : Size)
  | popMem (s : Size)
  | popMemWrite
  | popPair (p : RegisterPair)
  | readIndexed (s : Size)
  | writeIndexed (s : Size)
  -- In place.
  | incVar (t : NumType)
  | decVar (t : NumType)
  | incIndexed (t : NumType)
  | decIndexed (t : NumType)
  | incMemory
  | decMemory
  | popIncMemory
  | popDecMemory
  -- Arithmetic.
  | add (t : NumType)
  | sub (t : NumType)
  | mul (t : NumType)
  | intDiv (t : IntType)
  | floatDiv
  /-- The remainder of unsigned integers. -/
  | remainder (s : IntSize)
  | pow
  /-- Negation and absolute value take the signed type of the size. -/
  | neg (s : Size)
  | abs (s : Size)
  -- Bits and truth values.
  | bitAnd (s : IntSize)
  | bitOr (s : IntSize)
  | bitXor (s : IntSize)
  | boolAnd (s : IntSize)
  | boolOr (s : IntSize)
  | boolXor (s : IntSize)
  | invert (s : IntSize)
  | boolNot (s : IntSize)
  | msb
  | mkword
  /-- The shifts by one, of a value on the stack. -/
  | shiftedLeft (s : IntSize)
  | shiftedRight (t : IntType)
  /-- The shifts and rotations of a variable in place. -/
  | shiftLeft (s : IntSize)
  | shiftRight (t : IntType)
  | rotateLeft (s : IntSize)
  | rotateRight (s : IntSize)
  | rotateLeftCarry (s : IntSize)
  | rotateRightCarry (s : IntSize)
  -- Comparisons.
  | less (t : NumType)
  | greater (t : NumType)
  | lessEq (t : NumType)
  | greaterEq (t : NumType)
  | equal (s : Size)
  | notEqual (s : Size)
  | compare (t : IntType)
  /-- The conversion between two different types. -/
  | cast (source target : NumType) (differ : source ≠ target)
  -- Jumps and calls.
  | jump
  | jumpZero (s : IntSize)
  | jumpNonzero (s : IntSize)
  | branch (test : FlagTest)
  | call
  | ret
  | returnFromIrq
  | syscall
  | nop
  -- The state of the CPU.
  | setCarry
  | clearCarry
  | setInterrupt
  | clearInterrupt
  | saveRegisters
  | restoreRegisters
  | saveX
  | restoreX
  | carryToA
  -- Marks for the assembler.
  | startProc
  | endProc
  | line
  | inlineAssembly
  | includeFile
  | breakpoint
deriving DecidableEq, Repr

namespace Opcode

/-- The conversion from one type to another, if they differ. -/
def cast? (source target : NumType) : Option Opcode :=
  if h : source ≠ target then some (cast source target h) else none

/-- The whole instruction set in its order. -/
def all : List Opcode :=
  Size.all.map push ++ Size.all.map pushVar ++ [pushAddress] ++ NumType.all.map pushMem ++
    [pushMemRead] ++ RegisterPair.all.map pushPair ++ IntSize.all.map dup ++
    Size.all.map discard ++ Size.all.map popVar ++ Size.all.map popMem ++ [popMemWrite] ++
    RegisterPair.all.map popPair ++
    Size.all.map readIndexed ++ Size.all.map writeIndexed ++
    NumType.all.map incVar ++ NumType.all.map decVar ++ NumType.all.map incIndexed ++
    NumType.all.map decIndexed ++ [incMemory, decMemory, popIncMemory, popDecMemory] ++
    NumType.all.map add ++ NumType.all.map sub ++ NumType.all.map mul ++
    IntType.all.map intDiv ++ [floatDiv] ++ IntSize.all.map remainder ++ [pow] ++
    Size.all.map neg ++ Size.all.map abs ++
    IntSize.all.map bitAnd ++ IntSize.all.map bitOr ++ IntSize.all.map bitXor ++
    IntSize.all.map boolAnd ++ IntSize.all.map boolOr ++ IntSize.all.map boolXor ++
    IntSize.all.map invert ++ IntSize.all.map boolNot ++ [msb, mkword] ++
    IntSize.all.map shiftedLeft ++ IntType.all.map shiftedRight ++ IntSize.all.map shiftLeft ++
    IntType.all.map shiftRight ++ IntSize.all.map rotateLeft ++ IntSize.all.map rotateRight ++
    IntSize.all.map rotateLeftCarry ++ IntSize.all.map rotateRightCarry ++
    NumType.all.map less ++ NumType.all.map greater ++ NumType.all.map lessEq ++
    NumType.all.map greaterEq ++ Size.all.map equal ++ Size.all.map notEqual ++
    IntType.all.map compare ++
    NumType.all.flatMap (fun source => NumType.all.filterMap (cast? source)) ++
    [jump, jumpZero .byte, jumpZero .word, jumpNonzero .byte, jumpNonzero .word] ++
    FlagTest.all.map branch ++ [call, ret, returnFromIrq, syscall, nop] ++
    [setCarry, clearCarry, setInterrupt, clearInterrupt, saveRegisters, restoreRegisters, saveX,
      restoreX, carryToA] ++
    [startProc, endProc, line, inlineAssembly, includeFile, breakpoint]

/-! ## Categories -/

/-- A jump on a CPU status flag. Only these cannot go to a fixed address. -/
def isBranch : Opcode → Bool
  | branch _ => true
  | _ => false

def isJump : Opcode → Bool
  | branch _ | jump | jumpZero _ | jumpNonzero _ => true
  | _ => false

def isCast : Opcode → Bool
  | cast .. => true
  | _ => false

end Opcode
end StackCode
