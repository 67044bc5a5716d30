/-
Calls of builtins. Some have an opcode of their own. A reduction of an array gets
the address and the length and calls the service for the elements. All others call
a service behind their arguments.
-/
import StackCode.Code.Operand
import StackCode.Syscall

namespace StackCode

/-- The call of the service that implements a function. -/
def serviceCall (function : String) : Lowered Code :=
  match Syscall.ofFunction? function with
  | some service => .ok [Opcode.syscall.given (.wrapped .ubyte service.number.toNat)]
  | none => .error (.unknownSyscall function)

/-- Pushes the arguments. Where a parameter asks for one type, a narrower argument is widened. -/
def pushArguments (symbols : SymbolTable) (params : List BuiltinParam) (args : List Operand) :
    Lowered Code := do
  let codes ← (params.zip args).mapM fun
    | (.exact t, arg) => arg.pushAs symbols t
    | (_, arg) => arg.push
  return codes.flatten

/-! ## Arrays -/

/-- The type and the declared length of an array variable. -/
def declaredArray (symbols : SymbolTable) (e : Expr) : Lowered (DataType × UInt16) := do
  match e with
  | .var name =>
    let info ← symbols.needVar name
    match info.length with
    | some length => return (info.type, length)
    | none => throw (.malformed (.arrayWithoutLength name))
  | e => throw (.malformed (.notArray e))

/-- Pushes the length of an array, which must fit a byte. -/
def pushLength (length : UInt16) : Lowered Code :=
  match Value.ofInt length.toNat .ubyte with
  | .ok v => .ok v.push
  | .error e => .error (.value e)

/-- The end of the name of the service for elements of this size. -/
def Size.suffix : Size → String
  | .byte => "b"
  | .word => "w"
  | .float => "f"

/-- The end of the name of the service for elements of this type. -/
def NumType.suffix (t : NumType) : String := t.tag.toLower

def reduction (symbols : SymbolTable) (name : String) (byType : Bool) (arg : Operand) :
    Lowered Code := do
  let (type, length) ← declaredArray symbols arg.expr
  let element ← orInvalid "array reduction" type type.element?
  let suffix := if byType then element.suffix else element.size.suffix
  let code ← arg.push
  let count ← pushLength length
  return code ++ count ++ (← serviceCall (name ++ "_" ++ suffix))

/-- The sum as a float, divided by the length. -/
def average (symbols : SymbolTable) (arg : Operand) : Lowered Code := do
  let (type, length) ← declaredArray symbols arg.expr
  let sum ← reduction symbols "sum" true arg
  let toFloat := type.element?.bind fun element => Opcode.cast? element.sum .float
  return sum ++ (toFloat.map Opcode.plain).toList ++ (Value.float length.toNat.toFloat).push ++
    [Opcode.floatDiv.plain]

/-- The length of a string is counted when the program runs, that of an array is declared. -/
def elementCount (symbols : SymbolTable) (arg : Operand) : Lowered Code := do
  if (← arg.expr.needType symbols).isString then
    return (← arg.push) ++ (← serviceCall "len_str")
  pushLength (← declaredArray symbols arg.expr).2

/-! ## Numbers -/

/-- The absolute value. Unsigned numbers are their own. -/
def absolute (symbols : SymbolTable) (arg : Operand) : Lowered Code := do
  let type ← arg.expr.needType symbols
  let op := type.num?.bind fun t => if t.isSigned then some (Opcode.abs t.size) else none
  return (← arg.push) ++ (op.map Opcode.plain).toList

/-- The high byte of a number, as a word of its sign. -/
def highByte (symbols : SymbolTable) (arg : Operand) : Lowered Code := do
  let type ← arg.expr.needType symbols
  return (← arg.pushAs symbols (.int (.of .word type.isSigned))) ++ [Opcode.msb.plain]

/-! ## Places -/

/-- Reads a place, shifts what was read, and writes it back. -/
def shiftInPlace (symbols : SymbolTable) (name : String) (shift : InPlaceShift) (arg : Operand) :
    Lowered Code := do
  match Place.ofExpr? arg.expr with
  | none => throw (.malformed (.shiftedValue name))
  | some place =>
    let op ← Opcode.inPlaceFor shift (← arg.expr.needType symbols)
    return (← arg.push) ++ [op.plain] ++ (← place.write symbols arg.inner)

/-- Reads both places and writes them back the other way round. -/
def swapPlaces (symbols : SymbolTable) : List Operand → Lowered Code
  | [first, second] => do
    if (first.expr.constant? symbols).isSome || (second.expr.constant? symbols).isSome then
      throw (.invalidSwap .constant)
    if first.expr.same second.expr then throw (.invalidSwap .sameArguments)
    let firstType ← first.expr.needType symbols
    let secondType ← second.expr.needType symbols
    if firstType ≠ secondType then throw (.invalidSwap .differentTypes)
    if !firstType.isNumeric then throw (.invalidSwap .notNumeric)
    match Place.ofExpr? first.expr, Place.ofExpr? second.expr with
    | some firstPlace, some secondPlace =>
      return (← first.push) ++ (← second.push) ++ (← firstPlace.write symbols first.inner) ++
        (← secondPlace.write symbols second.inner)
    | _, _ => throw (.invalidSwap .notAssignable)
  | _ => .error (.invalidSwap .argumentCount)

/-! ## The call -/

/-- Checks that an argument has a type that the parameter takes. -/
def checkArgument (symbols : SymbolTable) (p : BuiltinParam) (arg : Operand) : Lowered Unit := do
  let type ← arg.expr.needType symbols
  if !p.accepts type then throw (.invalidType "builtin function argument" type)

def checkArguments (symbols : SymbolTable) (b : Builtin) (args : List Operand) : Lowered Unit := do
  if args.length ≠ b.params.length then
    throw (.malformed (.builtinArgumentCount b.name b.params.length args.length))
  (b.params.zip args).forM fun (p, arg) => checkArgument symbols p arg

/-- The call of a builtin with arguments that have been checked. -/
def checkedCall (symbols : SymbolTable) (b : Builtin) (args : List Operand) : Lowered Code :=
  match b.method, args with
  | .length, [arg] => elementCount symbols arg
  | .reduction byType, [arg] => reduction symbols b.name byType arg
  | .average, [arg] => average symbols arg
  | .absolute, [arg] => absolute symbols arg
  | .highByte, [arg] => highByte symbols arg
  | .shift s, [arg] => shiftInPlace symbols b.name s arg
  | .opcode op, args => do return (← pushArguments symbols b.params args) ++ [op.plain]
  | _, args => do return (← pushArguments symbols b.params args) ++ (← serviceCall b.name)

/-- The call of a builtin. It leaves the result on the stack, if there is one. -/
def builtinCall (symbols : SymbolTable) (b : Builtin) (args : List Operand) : Lowered Code :=
  match b.method with
  | .swap => swapPlaces symbols args
  | _ => do
    checkArguments symbols b args
    checkedCall symbols b args

end StackCode
