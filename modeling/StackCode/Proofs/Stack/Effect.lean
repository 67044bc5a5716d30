/-
The operand stack as the instructions see it: only the slots count, not what is in
them. Each opcode takes and leaves what its mnemonic names, a call leaves what the
signature of the callee promises, and a service does what its builtin says. The
opcodes that go elsewhere have no effect here: code that falls through has none.

`Runs` says that code turns some slots on top of the stack into others, and touches
nothing below them.
-/
import StackCode.Proofs.Lowered
import StackCode.Proofs.Stack.Service

namespace StackCode

/-! ## Slots -/

def Want.Accepts : Want → Slot → Prop
  | .size s, slot => slot = .sized s
  | .any, _ => True

instance (w : Want) (slot : Slot) : Decidable (w.Accepts slot) :=
  match w with
  | .size s => inferInstanceAs (Decidable (slot = .sized s))
  | .any => inferInstanceAs (Decidable True)

@[simp] theorem Want.accepts_size {s : Size} {slot : Slot} :
    (Want.size s).Accepts slot ↔ slot = .sized s := Iff.rfl

theorem Want.accepts_size_self {s : Size} : (Want.size s).Accepts (.sized s) := rfl

@[simp] theorem Want.accepts_any {slot : Slot} : Want.any.Accepts slot := trivial

/-- What takes exactly this slot off the stack. -/
def Slot.want : Slot → Want
  | .sized s => .size s
  | .struct => .any

@[simp] theorem Slot.accepts_want (slot : Slot) : slot.want.Accepts slot := by
  cases slot <;> simp [want]

theorem DataType.slot_eq_sized {t : DataType} {s : Size} :
    t.slot = .sized s ↔ t.stackSize? = some s := by
  cases t <;> simp [slot, stackSize?]

/-! ## Effects -/

namespace Effect

/-- Takes slots off a stack that holds them. -/
def take? : List Want → List Slot → Option (List Slot)
  | [], stack => some stack
  | w :: ws, slot :: stack => if w.Accepts slot then take? ws stack else none
  | _ :: _, [] => none

def change? (e : Effect) (stack : List Slot) : Option (List Slot) :=
  (take? e.takes stack).map (e.gives ++ ·)

theorem take?_append {ws : List Want} {slots : List Slot} (h : List.Forall₂ Want.Accepts ws slots)
    (rest : List Slot) : take? ws (slots ++ rest) = some rest := by
  induction h with
  | nil => rfl
  | cons h _ ih => simp [take?, h, ih]

/-- The effect of a value that is pushed. -/
def push (s : Size) : Effect where
  gives := [.sized s]

def pop (s : Size) : Effect where
  takes := [.size s]

/-- A value that another one takes the place of. -/
def turn (s s' : Size) : Effect where
  takes := [.size s]
  gives := [.sized s']

/-- Two values of a size that one takes the place of. -/
def merge (s s' : Size) : Effect where
  takes := [.size s, .size s]
  gives := [.sized s']

end Effect

/-- The effect of an opcode that goes on to the instruction behind it. The calls are left out: what
they do is up to the callee. So are the marks of lines and of subroutines. -/
def Opcode.effect? : Opcode → Option Effect
  | push s | pushVar s => some (.push s)
  | pushAddress | pushPair _ => some (.push .word)
  | pushMem t => some (.push t.size)
  | pushMemRead => some { takes := [.any], gives := [.sized .byte] }
  | dup s => some { takes := [.size (.int s)], gives := [.sized (.int s), .sized (.int s)] }
  | discard s | popVar s | popMem s => some (.pop s)
  | popPair _ => some (.pop .word)
  | popMemWrite => some { takes := [.any, .size .byte] }
  | readIndexed s => some { takes := [.any], gives := [.sized s] }
  | writeIndexed s => some { takes := [.any, .size s] }
  | incIndexed _ | decIndexed _ | popIncMemory | popDecMemory => some { takes := [.any] }
  | add t | sub t | mul t => some (.merge t.size t.size)
  | intDiv t => some (.merge (.int t.size) (.int t.size))
  | floatDiv | pow => some (.merge .float .float)
  | remainder s | bitAnd s | bitOr s | bitXor s => some (.merge (.int s) (.int s))
  | boolAnd s | boolOr s | boolXor s => some (.merge (.int s) .byte)
  | neg s | abs s => some (.turn s s)
  | invert s | boolNot s | shiftedLeft s | shiftLeft s | rotateLeft s | rotateRight s
  | rotateLeftCarry s | rotateRightCarry s => some (.turn (.int s) (.int s))
  | shiftedRight t | shiftRight t => some (.turn (.int t.size) (.int t.size))
  | msb => some (.turn .word .byte)
  | mkword => some (.merge .byte .word)
  | less t | greater t | lessEq t | greaterEq t => some (.merge t.size .byte)
  | equal s | notEqual s => some (.merge s .byte)
  | compare t => some (.pop (.int t.size))
  | cast source target _ => some (.turn source.size target.size)
  | incVar _ | decVar _ | incMemory | decMemory | nop | setCarry | clearCarry | setInterrupt
  | clearInterrupt | saveRegisters | restoreRegisters | saveX | restoreX | carryToA | inlineAssembly
  | includeFile | breakpoint => some {}
  | jump | jumpZero _ | jumpNonzero _ | branch _ | call | ret | returnFromIrq | syscall | startProc
  | endProc | line => none

/-- What a call leaves. A machine subroutine has its results in registers. -/
def SymbolTable.callEffect? (symbols : SymbolTable) (target : String) : Option Effect :=
  match symbols.find? target with
  | some (.subroutine s) =>
    some { gives := if s.machine.isSome then [] else s.returnTypes.map (·.slot) }
  | some .label => some {}
  | _ => none

def Instruction.effect? (symbols : SymbolTable) (i : Instruction) : Option Effect :=
  match i.opcode with
  | .call => i.label.bind symbols.callEffect?
  | .syscall => (i.arg.bind (·.int?)).bind fun n => Service.effect? (.ofNat n.toNat)
  | op => op.effect?

theorem Instruction.effect?_of_opcode {symbols : SymbolTable} {i : Instruction} {e : Effect}
    (h : i.opcode.effect? = some e) : i.effect? symbols = some e := by
  unfold effect?
  split
  next h' => simp [h', Opcode.effect?] at h
  next h' => simp [h', Opcode.effect?] at h
  next => exact h

/-! ## Runs of code -/

/-- The stack behind code that falls through, if the code finds on the stack what it takes. -/
def run (symbols : SymbolTable) (code : Code) (stack : List Slot) : Option (List Slot) :=
  code.foldlM (fun stack i => (i.effect? symbols).bind (·.change? stack)) stack

theorem run_append {symbols : SymbolTable} {code code' : Code} {stack : List Slot} :
    run symbols (code ++ code') stack = (run symbols code stack).bind (run symbols code') :=
  List.foldlM_append

/-- The code turns the slots `before` on top of the stack into `after`, whatever lies below. -/
def Runs (symbols : SymbolTable) (code : Code) (before after : List Slot) : Prop :=
  ∀ rest, run symbols code (before ++ rest) = some (after ++ rest)

namespace Runs

variable {symbols : SymbolTable} {code code' : Code} {before between after : List Slot}

theorem nil : Runs symbols [] before before := fun _ => rfl

theorem append (h : Runs symbols code before between) (h' : Runs symbols code' between after) :
    Runs symbols (code ++ code') before after := fun rest => by
  rw [run_append, h rest]
  exact h' rest

/-- What lies below is left alone. -/
theorem frame (h : Runs symbols code before after) (below : List Slot) :
    Runs symbols code (before ++ below) (after ++ below) := fun rest => by
  rw [List.append_assoc, List.append_assoc]
  exact h (below ++ rest)

/-- Code that needs nothing on the stack runs on any stack. -/
theorem onto (h : Runs symbols code [] after) (below : List Slot) :
    Runs symbols code below (after ++ below) :=
  h.frame below

theorem flatten {codes : List Code} (h : ∀ code ∈ codes, Runs symbols code [] []) :
    Runs symbols codes.flatten [] [] := by
  induction codes with
  | nil => exact nil
  | cons code codes ih =>
    exact (h code List.mem_cons_self).append (ih fun c hc => h c (List.mem_cons_of_mem _ hc))

/-- Values that are pushed one after the other. -/
theorem flatten_push {codes : List Code} {slots : List Slot}
    (h : List.Forall₂ (fun code slot => Runs symbols code [] [slot]) codes slots) :
    Runs symbols codes.flatten [] slots.reverse := by
  induction h with
  | nil => exact nil
  | cons h _ ih =>
    rw [List.flatten_cons, List.reverse_cons]
    exact h.append (ih.onto _)

theorem of_effect {i : Instruction} {takes : List Want} {gives : List Slot}
    (h : i.effect? symbols = some { takes, gives }) (hw : List.Forall₂ Want.Accepts takes before) :
    Runs symbols [i] before gives := fun rest => by
  simp only [run, List.foldlM_cons, List.foldlM_nil, h, Option.bind_some, Effect.change?,
    Effect.take?_append hw, Option.map_some]
  rfl

/-- An instruction that is not a call. -/
theorem of_opcode {i : Instruction} {takes : List Want} {gives : List Slot}
    (h : i.opcode.effect? = some { takes, gives }) (hw : List.Forall₂ Want.Accepts takes before) :
    Runs symbols [i] before gives :=
  of_effect (Instruction.effect?_of_opcode h) hw

/-- An instruction that takes nothing. -/
theorem of_gives {i : Instruction} {gives : List Slot} (h : i.effect? symbols = some { gives }) :
    Runs symbols [i] [] gives :=
  of_effect h .nil

theorem of_push {i : Instruction} {s : Size} (h : i.opcode.effect? = some (.push s)) :
    Runs symbols [i] [] [.sized s] :=
  of_opcode h .nil

theorem of_pop {i : Instruction} {s : Size} (h : i.opcode.effect? = some (.pop s)) :
    Runs symbols [i] [.sized s] [] :=
  of_opcode h (.cons Want.accepts_size_self .nil)

theorem of_turn {i : Instruction} {s s' : Size} (h : i.opcode.effect? = some (.turn s s')) :
    Runs symbols [i] [.sized s] [.sized s'] :=
  of_opcode h (.cons Want.accepts_size_self .nil)

theorem of_merge {i : Instruction} {s s' : Size} (h : i.opcode.effect? = some (.merge s s')) :
    Runs symbols [i] [.sized s, .sized s] [.sized s'] :=
  of_opcode h (.cons Want.accepts_size_self (.cons Want.accepts_size_self .nil))

/-- An instruction that takes an index or an address. -/
theorem of_any {i : Instruction} {gives : List Slot} {s : Slot}
    (h : i.opcode.effect? = some { takes := [.any], gives }) : Runs symbols [i] [s] gives :=
  of_opcode h (.cons Want.accepts_any .nil)

/-- An instruction that takes a value from under its index or address. -/
theorem of_any_pop {i : Instruction} {s : Slot} {s' : Size}
    (h : i.opcode.effect? = some { takes := [.any, .size s'] }) :
    Runs symbols [i] [s, .sized s'] [] :=
  of_opcode h (.cons Want.accepts_any (.cons Want.accepts_size_self .nil))

/-- An instruction that does nothing to the stack. -/
theorem of_still {i : Instruction} (h : i.opcode.effect? = some {}) : Runs symbols [i] [] [] :=
  of_opcode h .nil

theorem of_stills {code : Code} (h : ∀ i ∈ code, i.opcode.effect? = some {}) :
    Runs symbols code [] [] := by
  induction code with
  | nil => exact nil
  | cons i code ih =>
    exact (of_still (h i List.mem_cons_self)).append (ih fun j hj => h j (List.mem_cons_of_mem _ hj))

end Runs
end StackCode
