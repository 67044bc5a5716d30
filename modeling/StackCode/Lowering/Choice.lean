/-
Statements that choose between parts: on a condition, on a status flag, or on the
value of an expression. The parts come as steps that write them.
-/
import StackCode.Lowering.Loop.Basic

namespace StackCode

/-! ## Scopes of jumps -/

/-- The jump that is all of a scope. -/
def Scope.onlyJump? (s : Scope) : Option (JumpTarget × Position) :=
  match s.statements with
  | [.jump target position] => some (target, position)
  | _ => none

/-- The jump to a label that a scope starts with. What stands behind it is never reached. -/
def Scope.leadingJump? (s : Scope) : Option (JumpTarget × Position) :=
  match s.statements with
  | .jump (.address _) _ :: _ => none
  | .jump target position :: _ => some (target, position)
  | _ => none

/-! ## Two parts -/

/-- Two parts behind a jump: `away` leaves for the second one, or for the end if that one is idle. -/
def alternatives (away : Opcode) (elseLabel endLabel : String) (elseIdle : Bool)
    (thenPart elsePart : Writer Unit) : Writer Unit := do
  if elseIdle then
    emit [away.named endLabel]
    thenPart
  else
    emit [away.named elseLabel]
    thenPart
    emit [Opcode.jump.named endLabel]
    placeLabel elseLabel
    elsePart
  closeAt endLabel

/-- A choice on a condition. If the first part is a single jump, the condition jumps there itself. -/
def conditional (env : Environment) (ctx : Context) (condition : Expr) (thenScope elseScope : Scope)
    (position : Position) (thenPart elsePart : Writer Unit) : Writer Unit := do
  env.mark position
  let type ← condition.needType env.symbols
  emitLowered (condition.code env.symbols)
  match thenScope.onlyJump? with
  | some (target, jumpPosition) =>
    env.jump (← Opcode.jumpNonzeroFor type) target jumpPosition
    elsePart
  | none =>
    let away ← Opcode.jumpZeroFor type
    let endLabel ← freshLabel ctx.scope "if_end"
    let elseLabel ← if elseScope.isIdle then pure endLabel else freshLabel ctx.scope "else"
    alternatives away elseLabel endLabel elseScope.isIdle thenPart elsePart

/-- The jumps that are all of a choice on a status flag: both parts start with a jump to a label, or
the second one is idle. -/
def branchJumps? (thenScope elseScope : Scope) :
    Option ((JumpTarget × Position) × Option (JumpTarget × Position)) := do
  let thenJump ← thenScope.leadingJump?
  if elseScope.isIdle then some (thenJump, none)
  else some (thenJump, some (← elseScope.leadingJump?))

/-- A choice on a status flag. -/
def flagBranch (env : Environment) (ctx : Context) (test : FlagTest) (thenScope elseScope : Scope)
    (position : Position) (thenPart elsePart : Writer Unit) : Writer Unit := do
  if thenScope.isIdle && elseScope.isIdle then return
  env.mark position
  match branchJumps? thenScope elseScope with
  | some ((target, jumpPosition), elseJump) =>
    env.jump (.branch test) target jumpPosition
    if let some (target, jumpPosition) := elseJump then
      env.jump (.branch test.complement) target jumpPosition
  | none =>
    let elseLabel ← freshLabel ctx.scope "else"
    let endLabel ← freshLabel ctx.scope "branch_end"
    alternatives (.branch test.complement) elseLabel endLabel elseScope.isIdle thenPart elsePart

/-! ## Many parts -/

/-- The values of a choice, as values of the type that is chosen on. -/
def choiceValues (symbols : SymbolTable) (t : IntType) (values : List Expr) : Lowered (List Value) :=
  values.mapM fun e =>
    match e.constant? symbols with
    | none => .error (.malformed .variableChoice)
    | some v =>
      match v.cast (.int t) with
      | .ok v => .ok v
      | .error e => .error (.value e)

/-- Compares the value on the stack with the values of a choice, and goes to its part if one is
equal. -/
def choiceTests (t : IntType) (label : String) (values : List Value) : Code :=
  values.flatMap fun v =>
    [(Opcode.dup t.size).plain, (Opcode.compare t).given v, (Opcode.branch .zero).named label]

/-- One choice: the values, or none for all other cases, and the part. -/
structure ChoicePart where
  values : Option (List Expr)
  part : Writer Unit

/-- Writes the tests of all choices, and gives the labels of the parts that are still to be written.
The part for all other cases is written where it stands. -/
def choiceHeads (env : Environment) (ctx : Context) (t : IntType) :
    List ChoicePart → Writer (List (String × Writer Unit))
  | [] => pure []
  | ⟨none, part⟩ :: rest => do
    part
    choiceHeads env ctx t rest
  | ⟨some values, part⟩ :: rest => do
    match ← choiceValues env.symbols t values with
    | [] => throw (.malformed .choiceWithoutValues)
    | first :: others =>
      let label ← freshLabel ctx.scope s!"choice_{first.int?.getD 0}"
      emit (choiceTests t label (first :: others))
      return (label, part) :: (← choiceHeads env ctx t rest)

/-- A choice on the value of an expression. The value stays on the stack until the end. Every part
jumps to the end; the last one stands before it, so its jump is taken back. -/
def choose (env : Environment) (ctx : Context) (condition : Expr) (choices : List ChoicePart)
    (position : Position) : Writer Unit := do
  env.mark position
  let type ← condition.needType env.symbols
  let t ← orInvalid "when" type type.int?
  let drop := (Opcode.discard (.int t.size)).plain
  emitLowered (condition.code env.symbols)
  if choices.isEmpty then
    emit [drop]
  else
    let endLabel ← freshLabel ctx.scope "when_end"
    let toEnd := Opcode.jump.named endLabel
    let parts ← choiceHeads env ctx t choices
    emit [toEnd]
    parts.forM fun (label, part) => do
      placeLabel label
      part
      emit [toEnd]
    let _ ← perform Sink.removeLatest
    placeLabel endLabel
    emit [drop]

end StackCode
