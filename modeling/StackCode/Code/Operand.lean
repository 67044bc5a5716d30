/-
Operands: expressions together with their code.

The rules for calls and builtins look at their arguments as expressions and use the
code of each where they need it. An operand holds both, so that these rules stand
on their own, apart from the recursion over expressions.
-/
import StackCode.Code.Place

namespace StackCode

structure Operand where
  expr : Expr
  /-- Leaves the value on the stack. -/
  push : Lowered Code
  /-- Leaves the index or the address on the stack, for an expression that reads an element or a byte
  of memory. -/
  inner : Lowered Code := .ok []

namespace Operand

/-- Leaves the value on the stack as a value of the given type. A string or an array is an address
where a word is asked for. -/
def pushAs (symbols : SymbolTable) (o : Operand) (target : DataType) : Lowered Code := do
  let source ← o.expr.needType symbols
  let code ← o.push
  if source.isIterable && target = .uword then return code
  return code ++ ((← source.widening target).map Opcode.plain).toList

/-- Stores the value in a register. -/
def load (symbols : SymbolTable) (o : Operand) (r : Register) : Lowered Code := do
  return (← o.pushAs symbols .ubyte) ++ r.pop

/-- Stores the value in a place. -/
def assign (symbols : SymbolTable) (o : Operand) (p : Place) (inner : Lowered Code) :
    Lowered Code := do
  let target ← p.needType symbols
  return (← o.pushAs symbols target) ++ (← p.write symbols inner)

end Operand
end StackCode
