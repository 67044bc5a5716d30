/-
Code that reads, writes and steps the places that hold values.

An element or a byte of memory lies at an index or an address that is computed
first. The functions here take the code for it as an argument: it may have failed,
and whether that matters is found out only when it is needed.
-/
import StackCode.Code.Widening
import StackCode.Typing.Inference

namespace StackCode

/-- Instructions that are carried out one after the other. -/
abbrev Code := List Instruction

/-- What comes out of lowering a part of a program. -/
abbrev Lowered := Except LowerError

/-! ## Instructions -/

namespace Opcode

def plain (op : Opcode) : Instruction where
  opcode := op

/-- The instruction that refers to a label or a variable. -/
def named (op : Opcode) (name : String) : Instruction where
  opcode := op
  label := some name

/-- The instruction with an immediate value. -/
def given (op : Opcode) (v : Value) : Instruction where
  opcode := op
  arg := some v

def addressed (op : Opcode) (address : UInt16) : Instruction := op.given (.ofAddress address)

end Opcode

def Value.push (v : Value) : Code := [(Opcode.push v.type.size).given v]

def Register.push (r : Register) : Code := [(Opcode.pushVar .byte).named r.name]

def Register.pop (r : Register) : Code := [(Opcode.popVar .byte).named r.name]

/-! ## Types and addresses -/

/-- The variable of a name that must be one. -/
def SymbolTable.needVar (symbols : SymbolTable) (name : String) : Lowered VariableInfo :=
  match symbols.var? name with
  | some info => .ok info
  | none => .error (.malformed (.notVariable name))

/-- The type of an expression that must have one. -/
def Expr.needType (symbols : SymbolTable) (e : Expr) : Lowered DataType :=
  match e.type? symbols with
  | some t => .ok t
  | none => .error (.malformed (.untyped e))

def Place.needType (symbols : SymbolTable) (p : Place) : Lowered DataType :=
  match p.type? symbols with
  | some t => .ok t
  | none => .error (.malformed (.untypedPlace p))

/-- A value as an address, if it is one. -/
def Value.address? (v : Value) : Option UInt16 :=
  v.int?.bind fun n => if 0 ≤ n ∧ n ≤ 65535 then some (UInt16.ofNat n.toNat) else none

/-- The fixed address that an expression stands for. One that is computed is no fixed address. -/
def Expr.fixedAddress? (symbols : SymbolTable) (e : Expr) : Lowered (Option UInt16) :=
  match e.constant? symbols with
  | none => .ok none
  | some v =>
    match v.address? with
    | some address => .ok (some address)
    | none => .error (.malformed (.memoryAddress v))

/-! ## Reading -/

def readVar (symbols : SymbolTable) (name : String) : Lowered Code := do
  let info ← symbols.needVar name
  match info.storage with
  | .plain => return [(← Opcode.pushVarFor info.type).named name]
  | .memory address => return [(← Opcode.pushMemFor info.type).addressed address]
  | .const => throw (.malformed (.unfoldedConstant name))

def readElement (symbols : SymbolTable) (array : String) (index : Lowered Code) : Lowered Code := do
  let op ← Opcode.readIndexedFor (← symbols.needVar array).type
  return (← index) ++ [op.named array]

/-- The read of the byte at an address. -/
def readMemory (symbols : SymbolTable) (address : Expr) (code : Lowered Code) : Lowered Code := do
  match ← address.fixedAddress? symbols with
  | some address => return [(Opcode.pushMem (.int .ubyte)).addressed address]
  | none => return (← code) ++ [Opcode.pushMemRead.plain]

/-- The address of what lives on the heap. A struct lives where its first member does. -/
def readAddress (symbols : SymbolTable) (name : String) : Lowered Code := do
  let info ← symbols.needVar name
  match info.type with
  | .num (.int t) => throw (.invalidType "address-of" (.int t))
  | .struct =>
    match info.members with
    | first :: _ => return [Opcode.pushAddress.named (memberName name first)]
    | [] => throw (.malformed (.structWithoutMembers name))
  | _ => return [Opcode.pushAddress.named name]

/-! ## Writing -/

def writeVar (symbols : SymbolTable) (name : String) : Lowered Code := do
  let info ← symbols.needVar name
  match info.storage with
  | .plain => return [(← Opcode.popVarFor info.type).named name]
  | .memory address => return [(← Opcode.popMemFor info.type).addressed address]
  | .const => throw (.malformed (.assignedConstant name))

/-- Stores the value on the stack in a place, whose index or address is computed by `inner`. -/
def Place.write (symbols : SymbolTable) (p : Place) (inner : Lowered Code) : Lowered Code := do
  match p with
  | var name => writeVar symbols name
  | register r => return r.pop
  | element array _ =>
    let op ← Opcode.writeIndexedFor (← symbols.needVar array).type
    return (← inner) ++ [op.named array]
  | memory address =>
    match ← address.fixedAddress? symbols with
    | some address => return [(Opcode.popMem .byte).addressed address]
    | none => return (← inner) ++ [Opcode.popMemWrite.plain]

/-! ## Stepping -/

/-- Steps a place by one, where it is. -/
def Place.step (symbols : SymbolTable) (op : Increment) (p : Place) (inner : Lowered Code) :
    Lowered Code := do
  match p with
  | var name =>
    let info ← symbols.needVar name
    if info.storage = .const then throw (.malformed (.modifiedConstant name))
    return [(← Opcode.stepVarFor op info.type).named name]
  | register r => return [(Opcode.stepVar op (.int .ubyte)).named r.name]
  | element array _ =>
    let op ← Opcode.stepIndexedFor op (← symbols.needVar array).type
    return (← inner) ++ [op.named array]
  | memory address =>
    match ← address.fixedAddress? symbols with
    | some address => return [(Opcode.stepMemory op).addressed address]
    | none => return (← inner) ++ [(Opcode.popStepMemory op).plain]

end StackCode
