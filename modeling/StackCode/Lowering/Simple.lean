/-
The statements without statements inside: assignments, steps, calls, jumps,
returns, directives and assembly texts.
-/
import StackCode.Lowering.Environment
import StackCode.Code.Expr
import StackCode.Text.Blank

namespace StackCode.Environment

/-- Stores a value in a place. -/
def assign (env : Environment) (p : Place) (value : Expr) (position : Position) : Writer Unit := do
  env.mark position
  match value with
  | .structLiteral values => emitLowered (structAssignCode env.symbols p values)
  | value => emitLowered (assignCode env.symbols p value)

/-- Steps a place by one. -/
def step (env : Environment) (p : Place) (op : Increment) (position : Position) : Writer Unit := do
  env.mark position
  emitLowered (p.step env.symbols op (p.inner env.symbols))

def call (env : Environment) (target : String) (args : List Expr) (position : Position) :
    Writer Unit := do
  env.mark position
  emitLowered (callStatementCode env.symbols target args)

/-! ## Jumps and returns -/

/-- The instruction that jumps by the given opcode. Jumps on a status flag go to labels only. -/
def jumpInstruction (env : Environment) (op : Opcode) : JumpTarget → Lowered Instruction
  | .address address =>
    if op.isBranch then .error (.branchToAddress address) else .ok (op.addressed address)
  | .generated label => .ok (op.named label)
  | .named name =>
    match env.symbols.find? name with
    | some .label | some (.subroutine _) => .ok (op.named name)
    | _ => .error (.invalidTarget name)

def jump (env : Environment) (op : Opcode) (target : JumpTarget) (position : Position) :
    Writer Unit := do
  env.mark position
  emit [← env.jumpInstruction op target]

/-- Leaves a round of the innermost loop. -/
def exit (env : Environment) (ctx : Context) (kind : LoopExit) (position : Position) :
    Writer Unit := do
  match ctx.loop with
  | none => throw (.outsideLoop kind)
  | some labels =>
    env.mark position
    emit [Opcode.jump.named (labels.target kind)]

/-- Returns from a subroutine. The first value ends up on top of the stack. -/
def ret (env : Environment) (ctx : Context) (values : List Expr) (position : Position) :
    Writer Unit := do
  if values.length ≠ ctx.returnTypes.length then
    throw (.malformed (.returnCount values.length ctx.returnTypes.length))
  (values.zip ctx.returnTypes).reverse.forM fun (value, type) =>
    emitLowered ((value.operand env.symbols).pushAs env.symbols type)
  env.mark position
  emit [Opcode.ret.plain]

/-! ## Assembly texts and directives -/

/-- Writes an assembly text. The label names the subroutine that the text is the whole body of. -/
def assembly (env : Environment) (text : String) (label : Option String) (position : Position) :
    Writer Unit := do
  env.mark position
  emit [{ opcode := .inlineAssembly, label, payload := some text }]

/-- The argument of a directive that must be the name of a file. -/
def fileArgument (directive : String) (args : List DirectiveArg) (i : Nat) : Lowered String :=
  match (args[i]? : Option DirectiveArg) with
  | some (.str s) => .ok s
  | _ => .error (.malformed (.fileArgument directive (i + 1)))

/-- The argument of a directive that must be a word, if it is there. -/
def wordArgument (directive : String) (args : List DirectiveArg) (i : Nat) :
    Lowered (Option Value) :=
  match (args[i]? : Option DirectiveArg) with
  | none => .ok none
  | some (.str _) => .error (.malformed (.numberArgument directive (i + 1)))
  | some (.int n) =>
    match Value.ofInt n.toInt .uword with
    | .ok v => .ok (some v)
    | .error e => .error (.value e)

/-- The scope that an included text is wrapped in. -/
def includeScope (args : List DirectiveArg) : Lowered String :=
  match (args[1]? : Option DirectiveArg) with
  | none => .ok ""
  | some (.str s) => .ok s
  | some (.int _) => .error (.malformed .includeScope)

/-- Includes an assembly text, within a scope of its own if one is named. -/
def includeText (env : Environment) (directive : String) (args : List DirectiveArg)
    (position : Position) : Writer Unit := do
  let name ← fileArgument directive args 0
  let scope ← includeScope args
  match env.loader name env.source with
  | .error fault => throw (.unavailable name fault)
  | .ok text =>
    let wrapped := if Text.isBlank scope then text else s!"{scope}\t.proc\n{text}\t.pend\n"
    env.assembly wrapped none position

/-- Includes a file as it is, from an offset and up to a length if these are given. -/
def includeFile (env : Environment) (directive : String) (args : List DirectiveArg)
    (position : Position) : Writer Unit := do
  let name ← fileArgument directive args 0
  let offset ← wordArgument directive args 1
  let length ← wordArgument directive args 2
  env.mark position
  emit [{ opcode := .includeFile, arg := offset, arg2 := length, label := some name }]

/-- Three directives have code. All others are for earlier stages. -/
def directive (env : Environment) (name : String) (args : List DirectiveArg) (position : Position) :
    Writer Unit := do
  match name with
  | "%asminclude" => env.includeText name args position
  | "%asmbinary" => env.includeFile name args position
  | "%breakpoint" =>
    env.mark position
    emit [Opcode.breakpoint.plain]
  | _ => pure ()

end StackCode.Environment
