/-
The casts that a program asks for. They alone may narrow a value. Where a program has
none, each conversion in its code is one that the lowering has put there, and widens.
-/
import StackCode.Proofs.Code.Operands

namespace StackCode

/-! ## In the tree -/

mutual

/-- A cast stands in the expression. -/
def Expr.hasCast : Expr → Bool
  | .cast _ _ => true
  | .unary _ e | .element _ e | .memory e => e.hasCast
  | .binary left _ right => left.hasCast || right.hasCast
  | .call _ es | .structLiteral es => Expr.anyCast es
  | .range first last step => first.hasCast || last.hasCast || step.hasCast
  | .number _ | .register _ | .var _ | .addressOf _ => false

def Expr.anyCast : List Expr → Bool
  | [] => false
  | e :: es => e.hasCast || Expr.anyCast es

end

mutual

/-- A cast stands in the statement, or in a statement inside it. -/
def Statement.hasCast : Statement → Bool
  | .assign p value _ => p.read.hasCast || value.hasCast
  | .step p _ _ => p.read.hasCast
  | .call _ es _ | .ret es _ => Expr.anyCast es
  | .cond condition thenPart elsePart _ =>
    condition.hasCast || thenPart.hasCast || elsePart.hasCast
  | .branch _ thenPart elsePart _ => thenPart.hasCast || elsePart.hasCast
  | .forEach _ _ e body _ | .whileLoop e body _ | .repeatLoop body e _ => e.hasCast || body.hasCast
  | .scope s => s.hasCast
  | .subroutine _ body _ => Statement.anyCast body
  | .choose condition choices _ => condition.hasCast || Choice.anyCast choices
  | .varDecl _ | .label .. | .jump .. | .exit .. | .returnFromIrq _ | .directive .. | .assembly ..
  | .nop => false

def Scope.hasCast : Scope → Bool
  | ⟨_, statements, _⟩ => Statement.anyCast statements

def Choice.anyCast : List Choice → Bool
  | [] => false
  | ⟨values, body⟩ :: rest => Expr.anyCast (values.getD []) || body.hasCast || Choice.anyCast rest

def Statement.anyCast : List Statement → Bool
  | [] => false
  | s :: rest => s.hasCast || Statement.anyCast rest

end

/-- A cast stands in the program. -/
def Tree.hasCast (t : Tree) : Bool := t.blocks.any fun b => Statement.anyCast b.statements

/-! ## In the code -/

/-- If the opcode converts, then it does so to a wider type. -/
def Opcode.Widens : Opcode → Prop
  | cast source target _ => source.rank < target.rank
  | _ => True

theorem Opcode.widens_of_not_isCast {op : Opcode} (h : op.isCast = false) : op.Widens := by
  cases op with
  | cast => cases h
  | _ => trivial

/-- The instruction carries what its opcode takes. It converts to a wider type, unless there are casts
that ask for something else. -/
structure Instruction.IsSound (casts : Prop) (i : Instruction) : Prop where
  fits : i.IsWellFormed
  widens : casts ∨ i.opcode.Widens

namespace Instruction.IsSound

variable {casts : Prop} {op : Opcode}

/-- An instruction that does not convert. -/
theorem of_not_isCast {i : Instruction} (hi : i.IsWellFormed) (hcast : i.opcode.isCast = false) :
    i.IsSound casts :=
  ⟨hi, .inr (Opcode.widens_of_not_isCast hcast)⟩

theorem plain (h : op.operands = .nothing) (hcast : op.isCast = false) : op.plain.IsSound casts :=
  of_not_isCast (Opcode.plain_isWellFormed h) hcast

theorem named (h : op.operands = .name) (l : String) : (op.named l).IsSound casts :=
  of_not_isCast (Opcode.named_isWellFormed h l) (by cases op <;> first | rfl | cases h)

theorem addressed (h : op.operands = .typed .uword) (address : UInt16) :
    (op.addressed address).IsSound casts :=
  of_not_isCast (Opcode.addressed_isWellFormed h address) (by cases op <;> first | rfl | cases h)

theorem push (v : Value) : ((Opcode.push v.type.size).given v).IsSound casts :=
  of_not_isCast v.push_isWellFormed rfl

end Instruction.IsSound
end StackCode
