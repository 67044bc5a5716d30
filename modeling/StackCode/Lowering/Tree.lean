/-
The code of statements and of whole programs. A statement leaves the stack as it
found it.
-/
import StackCode.Lowering.Choice

namespace StackCode

/-! ## Statements -/

/-- The assembly text that is all of a subroutine, declarations apart. -/
def soleAssembly? (body : List Statement) : Option (String × Position) :=
  let code := body.filter fun
    | .varDecl _ | .nop => false
    | _ => true
  match code with
  | [.assembly text position] => some (text, position)
  | _ => none

/-- The definition of a subroutine. One outside the program is a name for its address. -/
def subroutineDefinition (env : Environment) (s : Signature) (body : List Statement)
    (position : Position) (part : Writer Unit) : Writer Unit := do
  match s.address? with
  | some address =>
    if !body.all (·.isNop) then throw (.machineBody s.name)
    perform (Sink.pointer s.name address .ubyte)
  | none =>
    perform (Sink.label s.name true)
    emit [Opcode.startProc.plain]
    env.mark position
    match soleAssembly? body with
    | some (text, textPosition) => env.assembly text (some s.name) textPosition
    | none => part
    emit [Opcode.endProc.plain]

mutual

/-- Writes the code of a statement. Declarations have none: they belong to the block. -/
def Statement.lower (env : Environment) (ctx : Context) : Statement → Writer Unit
  | .varDecl _ | .nop => pure ()
  | .label name position => do
    env.mark position
    placeLabel name
  | .assign place value position => env.assign place value position
  | .step place op position => env.step place op position
  | .jump target position => env.jump .jump target position
  | .call target args position => env.call target args position
  | .cond condition thenPart elsePart position =>
    conditional env ctx condition thenPart elsePart position (thenPart.lower env ctx)
      (elsePart.lower env ctx)
  | .branch condition thenPart elsePart position =>
    flagBranch env ctx condition.test thenPart elsePart position (thenPart.lower env ctx)
      (elsePart.lower env ctx)
  | .exit kind position => env.exit ctx kind position
  | .forEach register variableName iterable body position =>
    if body.isIdle then pure ()
    else forLoop env register variableName iterable (body.nameIn ctx.scope) position
      fun labels => body.lower env (ctx.inLoop labels)
  | .whileLoop condition body position =>
    whileLoop env condition ctx.scope position fun labels => body.lower env (ctx.inLoop labels)
  | .repeatLoop body condition position =>
    repeatLoop env condition ctx.scope position fun labels => body.lower env (ctx.inLoop labels)
  | .scope s => s.lower env ctx
  | .ret values position => env.ret ctx values position
  | .returnFromIrq position => do
    env.mark position
    emit [Opcode.returnFromIrq.plain]
  | .directive name args position => env.directive name args position
  | .subroutine s body position =>
    subroutineDefinition env s body position
      (Statement.lowerAll env { scope := s.name, returnTypes := s.returnTypes } body)
  | .assembly text position => env.assembly text none position
  | .choose condition choices position =>
    choose env ctx condition (Choice.parts env ctx choices) position

/-- Writes the code of the statements of a scope. -/
def Scope.lower (env : Environment) (ctx : Context) : Scope → Writer Unit
  | ⟨name, statements, position⟩ =>
    Statement.lowerAll env (ctx.inside ⟨name, statements, position⟩) statements

def Choice.parts (env : Environment) (ctx : Context) : List Choice → List ChoicePart
  | [] => []
  | ⟨values, body⟩ :: rest => ⟨values, body.lower env ctx⟩ :: Choice.parts env ctx rest

/-- Writes the code of statements one after the other. -/
def Statement.lowerAll (env : Environment) (ctx : Context) : List Statement → Writer Unit
  | [] => pure ()
  | s :: rest => do
    s.lower env ctx
    Statement.lowerAll env ctx rest

end

/-! ## Blocks and programs -/

/-- Declares the variables that a block needs: its own and those of its parameters. Of a struct only
the members take up memory, which are variables of their own. -/
def declareVars (ds : List Declaration) : Writer Unit :=
  ds.forM fun
    | .var d =>
      if d.type = .struct then pure ()
      else perform (Sink.declare d.name d.type d.storage d.length)
    | .parameter s p => perform (Sink.declare (s.slot p) p.type .plain none)
    | .label _ | .subroutine .. => pure ()

/-- Writes a block. -/
def Tree.Block.lower (env : Environment) (b : Tree.Block) : Writer Unit := do
  perform (Sink.openBlock b.name b.address b.options)
  declareVars (Declaration.ofList b.statements)
  env.mark b.position
  Statement.lowerAll env { scope := b.name } b.statements

/-- Writes the blocks of a module. -/
def Tree.Module.lower (env : Environment) (m : Tree.Module) : Writer Unit :=
  m.blocks.forM (·.lower { env with source := m.source })

/-- The intermediate program of a checked program. -/
def Tree.lower (env : Environment) (t : Tree) : Except LowerError Program := do
  let start : Output := { sink := { name := t.name, loadAddress := t.loadAddress } }
  let (_, out) ← (t.modules.forM (·.lower env)).run start
  return out.sink.program

end StackCode
