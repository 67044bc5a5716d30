/-
The loops of the tree: over a range or elements, as long as a condition holds, and until
one does.
-/
import StackCode.Lowering.Loop.Range
import StackCode.Lowering.Loop.Elements

namespace StackCode

/-- The loop over a range or over the elements of a variable. -/
def forLoop (env : Environment) (register : Option Register) (variableName : Option String)
    (iterable : Expr) (scope : String) (position : Position) (body : LoopBody) : Writer Unit := do
  env.mark position
  let (counter, t) ← Counter.find env.symbols register variableName
  match iterable with
  | .range first last step =>
    match ConstantRange.ofExprs? env.symbols first last step with
    | some r => constantLoop r counter t scope body
    | none => variableLoop env first last step counter t scope position body
  | .var name => elementLoop env.symbols name counter t scope body
  | e => throw (.malformed (.loopOver e))

/-- The loop that goes on as long as the condition holds. The condition stands behind the body, and
the loop starts there. -/
def whileLoop (env : Environment) (condition : Expr) (scope : String) (position : Position)
    (body : LoopBody) : Writer Unit := do
  let start ← freshLabel scope "loop"
  let leave ← freshLabel scope "break"
  let next ← freshLabel scope "continue"
  env.mark position
  let goOn ← Opcode.jumpNonzeroFor (← condition.needType env.symbols)
  emit [Opcode.jump.named next]
  placeLabel start
  body { leave, next }
  placeLabel next
  emitLowered (condition.code env.symbols)
  emit [goOn.named start]
  closeAt leave

/-- The loop that ends when the condition holds behind the body. -/
def repeatLoop (env : Environment) (condition : Expr) (scope : String) (position : Position)
    (body : LoopBody) : Writer Unit := do
  let frame ← freshFrame scope
  env.mark position
  let goOn ← Opcode.jumpZeroFor (← condition.needType env.symbols)
  placeLabel frame.start
  body frame.labels
  placeLabel frame.next
  emitLowered (condition.code env.symbols)
  emit [goOn.named frame.start]
  closeAt frame.leave

end StackCode
