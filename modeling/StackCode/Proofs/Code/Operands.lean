/-
The operands that an opcode takes. The loader reads the operands of an instruction by
its opcode alone: it would take one of another kind for what it is not, and it would not
see one too many. An instruction is well formed if it carries the operands that its
opcode takes, and no others.
-/
import StackCode.Code.Place
import StackCode.Syscall

namespace StackCode

/-- What an instruction carries behind its opcode. -/
inductive OperandKind where
  | nothing
  /-- A value that takes up this size on the stack. -/
  | sized (s : Size)
  /-- A value of this type and no other. -/
  | typed (t : IntType)
  /-- The number of a service. -/
  | service
  /-- The name of a label or a variable. -/
  | name
  /-- A fixed address or a label. -/
  | target
  /-- The name of a file. An offset may follow, and a length behind that. -/
  | file
  /-- A text for the assembler, with the label of the subroutine that it is the body of, if any. -/
  | text
deriving DecidableEq, Repr

def Opcode.operands : Opcode → OperandKind
  | push s => .sized s
  | compare t => .typed t
  | pushMem _ | popMem _ | incMemory | decMemory => .typed .uword
  | syscall => .service
  | pushVar _ | pushAddress | popVar _ | readIndexed _ | writeIndexed _ | incVar _ | decVar _
  | incIndexed _ | decIndexed _ | branch _ | call | line => .name
  | jump | jumpZero _ | jumpNonzero _ => .target
  | includeFile => .file
  | inlineAssembly => .text
  | _ => .nothing

namespace Instruction

/-- The instruction carries operands of this kind, and no others. -/
def Carries (i : Instruction) : OperandKind → Prop
  | .nothing => i = i.opcode.plain
  | .sized s => ∃ v ∈ i.arg, v.type.size = s ∧ i = i.opcode.given v
  | .typed t => ∃ v ∈ i.arg, v.type = .int t ∧ i = i.opcode.given v
  | .service => ∃ v ∈ i.arg, v.type = .int .ubyte ∧
    (∃ s ∈ Syscall.all, v.int? = some s.number.toNat) ∧ i = i.opcode.given v
  | .name => ∃ l ∈ i.label, i = i.opcode.named l
  | .target => (∃ l ∈ i.label, i = i.opcode.named l) ∨
    ∃ v ∈ i.arg, v.type = .int .uword ∧ i = i.opcode.given v
  | .file => (∃ l ∈ i.label, i = { i.opcode.named l with arg := i.arg, arg2 := i.arg2 }) ∧
    (∀ v ∈ i.arg, v.type = .int .uword) ∧ ∀ v ∈ i.arg2, v.type = .int .uword ∧ i.arg.isSome
  | .text => ∃ t ∈ i.payload, i = { opcode := i.opcode, label := i.label, payload := some t }

instance (i : Instruction) : (k : OperandKind) → Decidable (i.Carries k)
  | .nothing => inferInstanceAs (Decidable (i = i.opcode.plain))
  | .sized s => inferInstanceAs (Decidable (∃ v ∈ i.arg, v.type.size = s ∧ i = i.opcode.given v))
  | .typed t => inferInstanceAs (Decidable (∃ v ∈ i.arg, v.type = .int t ∧ i = i.opcode.given v))
  | .service => inferInstanceAs (Decidable (∃ v ∈ i.arg, v.type = .int .ubyte ∧
    (∃ s ∈ Syscall.all, v.int? = some s.number.toNat) ∧ i = i.opcode.given v))
  | .name => inferInstanceAs (Decidable (∃ l ∈ i.label, i = i.opcode.named l))
  | .target => inferInstanceAs (Decidable ((∃ l ∈ i.label, i = i.opcode.named l) ∨
    ∃ v ∈ i.arg, v.type = .int .uword ∧ i = i.opcode.given v))
  | .file => inferInstanceAs (Decidable
    ((∃ l ∈ i.label, i = { i.opcode.named l with arg := i.arg, arg2 := i.arg2 }) ∧
      (∀ v ∈ i.arg, v.type = .int .uword) ∧ ∀ v ∈ i.arg2, v.type = .int .uword ∧ i.arg.isSome))
  | .text => inferInstanceAs (Decidable
    (∃ t ∈ i.payload, i = { opcode := i.opcode, label := i.label, payload := some t }))

/-- The instruction carries what its opcode takes. -/
def IsWellFormed (i : Instruction) : Prop := i.Carries i.opcode.operands

instance (i : Instruction) : Decidable i.IsWellFormed :=
  inferInstanceAs (Decidable (i.Carries i.opcode.operands))

end Instruction

namespace Opcode

variable {op : Opcode}

theorem plain_isWellFormed (h : op.operands = .nothing) : op.plain.IsWellFormed := by
  rw [Instruction.IsWellFormed, plain, h]
  rfl

theorem named_isWellFormed (h : op.operands = .name) (l : String) : (op.named l).IsWellFormed := by
  rw [Instruction.IsWellFormed, named, h]
  exact ⟨l, rfl, rfl⟩

theorem addressed_isWellFormed (h : op.operands = .typed .uword) (address : UInt16) :
    (op.addressed address).IsWellFormed := by
  rw [Instruction.IsWellFormed, addressed, given, h]
  exact ⟨_, rfl, rfl, rfl⟩

theorem named_target_isWellFormed (h : op.operands = .target) (l : String) :
    (op.named l).IsWellFormed := by
  rw [Instruction.IsWellFormed, named, h]
  exact .inl ⟨l, rfl, rfl⟩

theorem addressed_target_isWellFormed (h : op.operands = .target) (address : UInt16) :
    (op.addressed address).IsWellFormed := by
  rw [Instruction.IsWellFormed, addressed, given, h]
  exact .inr ⟨_, rfl, rfl, rfl⟩

theorem compare_isWellFormed {t : IntType} {v : Value} (h : v.type = .int t) :
    ((compare t).given v).IsWellFormed :=
  ⟨v, rfl, h, rfl⟩

end Opcode

theorem Value.push_isWellFormed (v : Value) : ((Opcode.push v.type.size).given v).IsWellFormed :=
  ⟨v, rfl, rfl, rfl⟩

theorem Value.int?_wrapped_number (s : Syscall) :
    (wrapped .ubyte s.number.toNat).int? = some (s.number.toNat : Int) := by
  have hlt := s.number.toNat_lt
  have hfits : IntType.ubyte.Holds s.number.toNat := by
    constructor <;> simp [IntType.lo, IntType.hi, IntType.isSigned, IntType.size, IntSize.modulus]
    omega
  simp [wrapped, int?, IntType.wrap_eq_self hfits]

/-- The call of a service that there is. -/
theorem Syscall.isWellFormed {s : Syscall} (h : s ∈ all) :
    (Opcode.syscall.given (.wrapped .ubyte s.number.toNat)).IsWellFormed :=
  ⟨_, rfl, rfl, ⟨s, h, Value.int?_wrapped_number s⟩, rfl⟩

end StackCode
