/-
What a statement list declares, in source order: its own declarations and those of
all statement lists inside it.
-/
import StackCode.Tree.Statement

namespace StackCode

inductive Declaration where
  | var (d : VarDecl)
  /-- The variable that a parameter of an ordinary subroutine arrives in. -/
  | parameter (subroutine : Signature) (p : Parameter)
  | label (name : String)
  /-- A subroutine, and whether its body declares or does anything. -/
  | subroutine (signature : Signature) (hasBody : Bool)
deriving Repr

namespace Declaration

/-- The parameters that need a variable. A machine subroutine gets its own in registers. -/
def parameters (s : Signature) : List Declaration :=
  if s.machine.isSome then [] else s.parameters.map (parameter s)

mutual

def ofStatement : Statement → List Declaration
  | .varDecl d => [var d]
  | .label name _ => [label name]
  | .subroutine signature body _ =>
    subroutine signature (!body.all (·.isNop)) :: parameters signature ++ ofList body
  | .scope s => ofScope s
  | .cond _ thenPart elsePart _ => ofScope thenPart ++ ofScope elsePart
  | .branch _ thenPart elsePart _ => ofScope thenPart ++ ofScope elsePart
  | .forEach _ _ _ body _ => ofScope body
  | .whileLoop _ body _ => ofScope body
  | .repeatLoop body _ _ => ofScope body
  | .choose _ choices _ => ofChoices choices
  | _ => []

def ofScope : Scope → List Declaration
  | ⟨_, statements, _⟩ => ofList statements

def ofChoices : List Choice → List Declaration
  | [] => []
  | ⟨_, body⟩ :: rest => ofScope body ++ ofChoices rest

/-- All declarations of a statement list. -/
def ofList : List Statement → List Declaration
  | [] => []
  | s :: rest => ofStatement s ++ ofList rest

end

end Declaration

/-- All declarations of a program, block by block. -/
def Tree.declarations (t : Tree) : List Declaration :=
  t.blocks.flatMap fun b => Declaration.ofList b.statements

end StackCode
