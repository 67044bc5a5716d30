/-
The type of the value that an expression leaves on the stack.
-/
import StackCode.Builtin
import StackCode.Typing.Folding

namespace StackCode

/-- The type of the result of an operator on two operands. Comparisons and connectives answer for
operands of any type. -/
def BinaryOp.resultType? : BinaryOp → DataType → DataType → Option DataType
  | .arithmetic _, t, u => do some (.num ((← t.num?).join (← u.num?)))
  | .connective _, _, _ | .comparison _, _, _ => some .ubyte
  | .shift _, t, _ => some t

/-- The type of the only result of a call. A call with another number of results has none. -/
def SymbolTable.callType? (symbols : SymbolTable) (target : String) (firstArg : Option DataType) :
    Option DataType :=
  match symbols.find? target with
  | some (.subroutine { returnTypes := [type], .. }) => some type
  | some _ => none
  | none => (Builtin.find? target).bind (·.result.resolve firstArg)

/-- The type of the elements of a variable. -/
def SymbolTable.elementType? (symbols : SymbolTable) (name : String) : Option DataType := do
  some (.num (← (← symbols.var? name).type.element?))

namespace Expr

/-- The type of the value of an expression, if it has one. -/
def type? (symbols : SymbolTable) : Expr → Option DataType
  | number v => some (.num v.type)
  | register _ | memory _ => some .ubyte
  | unary _ operand => type? symbols operand
  | binary left op right => do op.resultType? (← type? symbols left) (← type? symbols right)
  | call target [] => symbols.callType? target none
  | call target (arg :: rest) =>
    match callConstant? symbols target (arg :: rest) with
    | some v => some (.num v.type)
    | none => symbols.callType? target (type? symbols arg)
  | var name => (symbols.var? name).map (·.type)
  | element array _ => symbols.elementType? array
  | cast _ type => some type
  | addressOf _ => some .uword
  | range .. => none
  | structLiteral _ => some .struct

end Expr

/-- The type of the values that a place holds. -/
def Place.type? (symbols : SymbolTable) : Place → Option DataType
  | var name => (symbols.var? name).map (·.type)
  | register _ | memory _ => some .ubyte
  | element array _ => symbols.elementType? array

end StackCode
