/-
The choice of opcodes: which opcode does an operation on values of a type. A type
without one is refused.
-/
import StackCode.Builtin
import StackCode.LowerError

namespace StackCode

/-- The size that a value of the type takes on the stack. A string or an array is there by its
address. -/
def DataType.stackSize? : DataType → Option Size
  | .num t => some t.size
  | .str | .strS | .array _ => some .word
  | .struct => none

/-- What is there, or the complaint that the operation has no opcode for the type. -/
def orInvalid {α : Type} (operation : String) (t : DataType) : Option α → Except LowerError α
  | some a => .ok a
  | none => .error (.invalidType operation t)

namespace Opcode

/-! ## Variables and memory -/

def pushVarFor : DataType → Except LowerError Opcode
  | .num t => .ok (pushVar t.size)
  | .struct => .error (.invalidType "push variable" .struct)
  | _ => .ok pushAddress

/-- The read of a variable at a fixed address. -/
def pushMemFor (t : DataType) : Except LowerError Opcode :=
  orInvalid "memory read" t (t.num?.map pushMem)

def popVarFor (t : DataType) : Except LowerError Opcode :=
  orInvalid "pop variable" t (t.stackSize?.map popVar)

def popMemFor (t : DataType) : Except LowerError Opcode :=
  orInvalid "memory write" t (t.stackSize?.map popMem)

def discardFor (t : DataType) : Except LowerError Opcode :=
  orInvalid "discard" t (t.stackSize?.map discard)

/-- The read of an element of a variable of the given type. -/
def readIndexedFor (t : DataType) : Except LowerError Opcode :=
  orInvalid "indexed read" t (t.element?.map fun e => readIndexed e.size)

def writeIndexedFor (t : DataType) : Except LowerError Opcode :=
  orInvalid "indexed write" t (t.element?.map fun e => writeIndexed e.size)

/-- The step of a variable by one. -/
def stepVar : Increment → NumType → Opcode
  | .up, t => incVar t
  | .down, t => decVar t

def stepVarFor (op : Increment) (t : DataType) : Except LowerError Opcode :=
  orInvalid (match op with | .up => "increment" | .down => "decrement") t (t.num?.map (stepVar op))

/-- The step of an element of an array. Strings have no such step. -/
def stepIndexedFor (op : Increment) (t : DataType) : Except LowerError Opcode :=
  match op, t with
  | .up, .array e => .ok (incIndexed e)
  | .down, .array e => .ok (decIndexed e)
  | .up, t => .error (.invalidType "indexed increment" t)
  | .down, t => .error (.invalidType "indexed decrement" t)

/-- The step of the byte at a fixed address. -/
def stepMemory : Increment → Opcode
  | .up => incMemory
  | .down => decMemory

/-- The step of the byte at an address from the stack. -/
def popStepMemory : Increment → Opcode
  | .up => popIncMemory
  | .down => popDecMemory

/-! ## Operators -/

/-- The opcode of an arithmetic operation. Remainders are for unsigned integers, powers for floats,
and bitwise operations for integers. -/
def arithmetic? : Arithmetic → NumType → Option Opcode
  | .add, t => some (add t)
  | .sub, t => some (sub t)
  | .mul, t => some (mul t)
  | .div, .int t => some (intDiv t)
  | .div, .float => some floatDiv
  | .remainder, .int t => if t.isSigned then none else some (remainder t.size)
  | .pow, .float => some pow
  | .bitAnd, .int t => some (bitAnd t.size)
  | .bitOr, .int t => some (bitOr t.size)
  | .bitXor, .int t => some (bitXor t.size)
  | _, _ => none

def connective : Connective → IntSize → Opcode
  | .and, s => boolAnd s
  | .or, s => boolOr s
  | .xor, s => boolXor s

def comparison : Comparison → NumType → Opcode
  | .less, t => less t
  | .greater, t => greater t
  | .lessEq, t => lessEq t
  | .greaterEq, t => greaterEq t
  | .equal, t => equal t.size
  | .notEqual, t => notEqual t.size

/-- The shift of an integer on the stack by one bit. -/
def shiftStep : Shift → IntType → Opcode
  | .left, t => shiftedLeft t.size
  | .right, t => shiftedRight t

/-- The opcode of an operator on two operands of one type. Shifts are made of steps. -/
def binary? : BinaryOp → NumType → Option Opcode
  | .arithmetic op, t => arithmetic? op t
  | .connective op, .int t => some (connective op t.size)
  | .connective _, .float => none
  | .comparison op, t => some (comparison op t)
  | .shift _, _ => none

def binaryFor (op : BinaryOp) (t : NumType) : Except LowerError Opcode :=
  orInvalid op.symbol (.num t) (binary? op t)

def shiftStepFor (op : Shift) (t : DataType) : Except LowerError Opcode :=
  orInvalid (BinaryOp.shift op).symbol t (t.int?.map (shiftStep op))

/-- The opcode of an operator before its operand, if it needs one. -/
def unaryFor : UnaryOp → DataType → Except LowerError (Option Opcode)
  | .plus, _ => .ok none
  | .minus, t =>
    orInvalid "negation" t (t.num?.bind fun n => if n.isSigned then some (some (neg n.size)) else none)
  | .invert, t => orInvalid "~" t (t.int?.map fun n => some (invert n.size))
  | .not, t => orInvalid "not" t (t.int?.map fun n => some (boolNot n.size))

/-- The shift or rotation of an integer that goes back to where it came from. -/
def inPlace : InPlaceShift → IntType → Opcode
  | .shiftLeft, t => shiftLeft t.size
  | .shiftRight, t => shiftRight t
  | .rotateLeft, t => rotateLeft t.size
  | .rotateRight, t => rotateRight t.size
  | .rotateLeftCarry, t => rotateLeftCarry t.size
  | .rotateRightCarry, t => rotateRightCarry t.size

def inPlaceFor (shift : InPlaceShift) (t : DataType) : Except LowerError Opcode :=
  orInvalid "in-place shift" t (t.int?.map (inPlace shift))

/-! ## Conditions -/

/-- The jump that is taken when the value on the stack is zero. -/
def jumpZeroFor (t : DataType) : Except LowerError Opcode :=
  orInvalid "condition" t (t.int?.map fun n => jumpZero n.size)

def jumpNonzeroFor (t : DataType) : Except LowerError Opcode :=
  orInvalid "condition" t (t.int?.map fun n => jumpNonzero n.size)

end Opcode
end StackCode
