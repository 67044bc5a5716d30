/-
What the statements of a program are lowered in: what holds for the whole program,
and what holds at one statement.
-/
import StackCode.Lowering.Output
import StackCode.Symbols.Table

namespace StackCode

/-- What holds for a whole module. -/
structure Environment where
  symbols : SymbolTable
  /-- Source lines are marked. -/
  markLines : Bool
  loader : IncludeLoader
  /-- The path of the source file. -/
  source : String := ""

/-- The labels that leave a round of the innermost loop. -/
structure LoopLabels where
  leave : String
  next : String

def LoopLabels.target (l : LoopLabels) : LoopExit → String
  | .leave => l.leave
  | .next => l.next

/-- What holds at a statement. It is handed down to the statements inside, so that nothing of a loop
is known outside of it. -/
structure Context where
  /-- The scope that generated labels are named after. -/
  scope : String
  loop : Option LoopLabels := none
  /-- What the subroutine around the statement returns. -/
  returnTypes : List DataType := []

/-- The context inside a nested scope. -/
def Context.inside (ctx : Context) (s : Scope) : Context := { ctx with scope := s.nameIn ctx.scope }

def Context.inLoop (ctx : Context) (labels : LoopLabels) : Context := { ctx with loop := some labels }

/-- Marks the source line of the code that follows, if it is known. -/
def Environment.mark (env : Environment) (p : Position) : Writer Unit :=
  if env.markLines && 0 < p.line then perform (Sink.line p.line.toNat p.file) else pure ()

end StackCode
