/-
The code of expressions. The operands come first, from left to right, then the
operation; a value is left on the stack. Nothing but instructions comes out: code
of an expression has no labels and no line markers.
-/
import StackCode.Code.Builtin
import StackCode.Code.Convention

namespace StackCode

/-- An operator before its operand. -/
def unaryCode (symbols : SymbolTable) (op : UnaryOp) (o : Operand) : Lowered Code := do
  let opcode ← Opcode.unaryFor op (← o.expr.needType symbols)
  return (← o.push) ++ (opcode.map Opcode.plain).toList

def castCode (symbols : SymbolTable) (o : Operand) (target : DataType) : Lowered Code := do
  let opcode ← (← o.expr.needType symbols).castOpcode target
  return (← o.push) ++ (opcode.map Opcode.plain).toList

/-- The number of single steps that a constant shift is made of. -/
def shiftAmount (symbols : SymbolTable) (op : Shift) (amount : Expr) : Lowered Nat :=
  match amount.constant? symbols with
  | none => .error (.unsupported (.variableShift (.shift op)))
  | some v =>
    match v.int? with
    | none => .error (.malformed (.shiftAmount v))
    | some n =>
      if n < 0 then .error (.malformed (.negativeShift n)) else .ok n.toNat

/-- A shift is one step for each bit. -/
def shiftCode (symbols : SymbolTable) (op : Shift) (left : Operand) (right : Expr) :
    Lowered Code := do
  let step ← Opcode.shiftStepFor op (← left.expr.needType symbols)
  let amount ← shiftAmount symbols op right
  return (← left.push) ++ List.replicate amount step.plain

/-- An operator between two operands, each of which is brought to their common type. -/
def binaryCode (symbols : SymbolTable) (op : BinaryOp) (left right : Operand) : Lowered Code := do
  match op with
  | .shift op => shiftCode symbols op left right.expr
  | op =>
    let leftType ← left.expr.needType symbols
    let rightType ← right.expr.needType symbols
    let (common, _) ← leftType.common rightType
    let opcode ← Opcode.binaryFor op common
    let leftCode ← left.push
    let leftCast ← leftType.widening (.num common)
    let rightCode ← right.push
    let rightCast ← rightType.widening (.num common)
    return leftCode ++ (leftCast.map Opcode.plain).toList ++
      rightCode ++ (rightCast.map Opcode.plain).toList ++ [opcode.plain]

/-- A call whose result is used. -/
def callCode (symbols : SymbolTable) (target : String) (args : List Operand) : Lowered Code :=
  match Expr.callConstant? symbols target (args.map (·.expr)) with
  | some v => .ok v.push
  | none =>
    match symbols.find? target with
    | some (.subroutine s) => subroutineCall symbols s args
    | some _ => .error (.invalidTarget target)
    | none =>
      match Builtin.find? target with
      | some b => builtinCall symbols b args
      | none => .error (.invalidTarget target)

namespace Expr

mutual

/-- The expression with its code. -/
def operand (symbols : SymbolTable) : Expr → Operand
  | number v => { expr := number v, push := .ok v.push }
  | register r => { expr := register r, push := .ok r.push }
  | unary op e => { expr := unary op e, push := unaryCode symbols op (e.operand symbols) }
  | binary left op right =>
    { expr := binary left op right,
      push := binaryCode symbols op (left.operand symbols) (right.operand symbols) }
  | call target args =>
    { expr := call target args, push := callCode symbols target (operands symbols args) }
  | var name => { expr := var name, push := readVar symbols name }
  | element array index =>
    let inner := (index.operand symbols).push
    { expr := element array index, push := readElement symbols array inner, inner }
  | cast e type => { expr := cast e type, push := castCode symbols (e.operand symbols) type }
  | memory address =>
    let inner := (address.operand symbols).push
    { expr := memory address, push := readMemory symbols address inner, inner }
  | addressOf name => { expr := addressOf name, push := readAddress symbols name }
  | range first last step =>
    { expr := range first last step, push := .error (.malformed .strayRange) }
  | structLiteral values =>
    { expr := structLiteral values, push := .error (.malformed .strayStructLiteral) }

def operands (symbols : SymbolTable) : List Expr → List Operand
  | [] => []
  | e :: es => e.operand symbols :: operands symbols es

end

/-- The code that leaves the value of an expression on the stack. -/
def code (symbols : SymbolTable) (e : Expr) : Lowered Code := (e.operand symbols).push

/-- Each operand is its expression with the code of that expression. -/
theorem expr_operand (symbols : SymbolTable) (e : Expr) : (e.operand symbols).expr = e := by
  cases e <;> simp [operand]

end Expr

/-- The code for the index or the address of a place. -/
def Place.inner (symbols : SymbolTable) (p : Place) : Lowered Code :=
  (p.read.operand symbols).inner

/-- A call whose results nobody uses. They are dropped from the stack. A label can be called, too. -/
def callStatementCode (symbols : SymbolTable) (target : String) (args : List Expr) :
    Lowered Code := do
  let operands := Expr.operands symbols args
  match symbols.find? target with
  | some (.subroutine s) =>
    let code ← subroutineCall symbols s operands
    return code ++ (← s.returnTypes.mapM Opcode.discardFor).map Opcode.plain
  | some .label => return [Opcode.call.named target]
  | some (.var _) => throw (.invalidTarget target)
  | none =>
    match Builtin.find? target with
    | none => throw (.invalidTarget target)
    | some b =>
      let firstType ← args.head?.mapM (Expr.needType symbols)
      let code ← builtinCall symbols b operands
      let discards ← (b.result.resolve firstType).mapM Opcode.discardFor
      return code ++ (discards.map Opcode.plain).toList

/-- Stores the value of an expression in a place. A struct literal goes to the members of a struct
variable, one after the other. -/
def assignCode (symbols : SymbolTable) (p : Place) (value : Expr) : Lowered Code :=
  (value.operand symbols).assign symbols p (p.inner symbols)

def structAssignCode (symbols : SymbolTable) (p : Place) (values : List Expr) : Lowered Code := do
  match p with
  | .var name =>
    match symbols.var? name with
    | some { type := .struct, members, .. } =>
      if members.length ≠ values.length then
        throw (.malformed (.memberCount name members.length values.length))
      let codes ← (members.zip values).mapM fun (member, value) =>
        assignCode symbols (.var (memberName name member)) value
      return codes.flatten
    | _ => throw (.malformed (.notStruct name))
  | _ => throw (.malformed .structLiteralTarget)

end StackCode
