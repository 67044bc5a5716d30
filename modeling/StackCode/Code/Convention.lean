/-
Calls of subroutines, in both conventions. An ordinary subroutine takes its
arguments in the variables of its parameters and leaves its results on the stack.
A machine subroutine takes and gives them in registers and in the carry flag.
-/
import StackCode.Code.Operand

namespace StackCode

/-! ## Ordinary subroutines -/

/-- Stores an argument in the variable of its parameter. -/
def passParameter (symbols : SymbolTable) (s : Signature) (p : Parameter) (arg : Operand) :
    Lowered Code := do
  let code ← arg.pushAs symbols p.type
  return code ++ [(← Opcode.popVarFor p.type).named (s.slot p)]

def ordinaryCall (symbols : SymbolTable) (s : Signature) (args : List Operand) : Lowered Code := do
  if args.length ≠ s.parameters.length then
    throw (.malformed (.argumentCount s.name s.parameters.length args.length))
  let passed ← (s.parameters.zip args).mapM fun (p, arg) => passParameter symbols s p arg
  return passed.flatten ++ [Opcode.call.named s.name]

/-! ## Machine subroutines -/

/-- The registers of a pair, the one with the low byte first. -/
def RegisterPair.registers : RegisterPair → Register × Register
  | ax => (.a, .x)
  | ay => (.a, .y)
  | xy => (.x, .y)

/-- Puts an argument into a pair of registers: a byte with zero above it, or a word as it is. Strings
and arrays are passed by address. -/
def passPair (symbols : SymbolTable) (p : RegisterPair) (arg : Operand) : Lowered Code := do
  match ← arg.expr.needType symbols with
  | .ubyte =>
    let (low, high) := p.registers
    return (← arg.load symbols low) ++ (Value.wrapped .ubyte 0).push ++ high.pop
  | t =>
    if t.isWord || t.isIterable then return (← arg.push) ++ [(Opcode.popPair p).plain]
    else throw (.unsupported (.pairArgument t p))

/-- Puts an argument into its carrier. The carry flag takes no code here: its value is noted. -/
def passCarrier (symbols : SymbolTable) (c : Carrier) (arg : Operand) :
    Lowered (Code × Option Bool) := do
  match c with
  | .register r => return (← arg.load symbols r, none)
  | .pair p => return (← passPair symbols p arg, none)
  | .flag .carry =>
    match arg.expr.constant? symbols with
    | some v => return ([], some v.isTrue)
    | none => throw (.unsupported .variableCarry)
  | .flag f => throw (.unsupported (.flagArgument f))

/-- Sets the carry flag to a value that was noted. -/
def setCarry : Option Bool → Code
  | some true => [Opcode.setCarry.plain]
  | some false => [Opcode.clearCarry.plain]
  | none => []

/-- Leaves a result on the stack. -/
def takeResult (c : Carrier) : Lowered Code :=
  match c with
  | .register r => .ok r.push
  | .pair p => .ok [(Opcode.pushPair p).plain]
  | .flag .carry => .ok (Opcode.carryToA.plain :: Register.a.push)
  | .flag f => .error (.unsupported (.flagResult f))

/-- Keeps register X through code that may change it. -/
def savingX (changes : Bool) (code : Code) : Code :=
  if changes then [Opcode.saveX.plain] ++ code ++ [Opcode.restoreX.plain] else code

/-- The carry flag is set last, since code for other arguments may change it. The first result ends
up on top of the stack. -/
def machineCall (symbols : SymbolTable) (s : Signature) (m : MachineConvention)
    (args : List Operand) : Lowered Code := do
  if m.parameters.length ≠ args.length then
    throw (.unsupported (.carrierCount s.name args.length m.parameters.length))
  let changesX := m.clobbers.contains .x || m.parameters.any (·.uses .x)
  let passed ← (m.parameters.zip args).mapM fun (c, arg) => passCarrier symbols c arg
  let carry := (passed.filterMap (·.2)).getLast?
  let results ← m.returns.reverse.mapM takeResult
  return savingX changesX
    (passed.flatMap (·.1) ++ setCarry carry ++ [Opcode.call.named s.name] ++ results.flatten)

/-- The call of a subroutine. It leaves the results on the stack. -/
def subroutineCall (symbols : SymbolTable) (s : Signature) (args : List Operand) : Lowered Code :=
  match s.machine with
  | some m => machineCall symbols s m args
  | none => ordinaryCall symbols s args

end StackCode
