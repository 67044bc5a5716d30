/-
Code of expressions and of single statements runs straight through: it has no jumps,
no returns and no marks. This holds for all code that comes out, also where the types
of calls are not what they should be.
-/
import StackCode.Proofs.Stack.Instructions

namespace StackCode

def Straight (code : Code) : Prop := ∀ i ∈ code, i.IsStraight

namespace Straight

variable {code code' : Code} {i : Instruction}

theorem nil : Straight [] := Code.All.nil

theorem append (h : Straight code) (h' : Straight code') : Straight (code ++ code') :=
  Code.All.append h h'

theorem of_effect {e : Effect} (h : i.opcode.effect? = some e) : Straight [i] :=
  Code.All.single (.inl (by rw [h]; rfl))

end Straight

/-- Whatever comes out is straight. -/
def Lowered.IsStraight (x : Lowered Code) : Prop := ∀ code, x = .ok code → Straight code

theorem SymbolTable.admits_isStraight (symbols : SymbolTable) : symbols.Admits Instruction.IsStraight where
  other h _ _ := h
  register _ h := .inl h
  var h _ _ _ := .inl h
  parameter h _ _ _ := .inl h

theorem Place.step_straight {symbols : SymbolTable} {op : Increment} {p : Place} :
    Lowered.IsStraight (p.step symbols op (p.inner symbols)) :=
  Place.step_all symbols.admits_isStraight
    fun _ _ _ _ _ _ => .inl (by rw [Opcode.named, Opcode.stepVar_effect]; rfl)

end StackCode
