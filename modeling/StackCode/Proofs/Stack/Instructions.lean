/-
What the code of expressions and of single statements is made of. There are instructions
that access no variable, and those that access a register, the variable of a parameter,
or another variable that lives in a block. All of them carry the operands that their
opcodes take, a name among them is known to the symbol table, and without casts in the
program none converts to a narrower type. So whatever is true of all of these is true of
all instructions of the code.
-/
import StackCode.Proofs.Code.Casts
import StackCode.Proofs.Stack.Expr

namespace StackCode

/-! ## Instructions -/

/-- The instruction is carried out, and the one behind it comes next. -/
def Instruction.IsStraight (i : Instruction) : Prop :=
  i.opcode.effect?.isSome ∨ i.opcode = .call ∨ i.opcode = .syscall

/-- The opcode reads, writes or steps a variable or a register by its name. -/
def Opcode.isAccess : Opcode → Bool
  | pushVar _ | popVar _ | incVar _ | decVar _ => true
  | _ => false

/-- The variable or the register that an instruction reads, writes or steps. -/
def Instruction.accessed? (i : Instruction) : Option String :=
  if i.opcode.isAccess then i.label else none

@[simp] theorem Opcode.accessed?_plain (op : Opcode) : op.plain.accessed? = none := ite_self _

@[simp] theorem Opcode.accessed?_given (op : Opcode) (v : Value) : (op.given v).accessed? = none :=
  ite_self _

@[simp] theorem Opcode.accessed?_addressed (op : Opcode) (address : UInt16) :
    (op.addressed address).accessed? = none :=
  ite_self _

@[simp] theorem Opcode.accessed?_named (op : Opcode) (name : String) :
    (op.named name).accessed? = if op.isAccess then some name else none := rfl

/-- What takes an index or an address off the stack has no name for a variable. -/
theorem Opcode.isAccess_of_any {op : Opcode} {ws : List Want} {gives : List Slot}
    (h : op.effect? = some { takes := .any :: ws, gives }) : op.isAccess = false := by
  cases op <;> first | rfl | simp [effect?, Effect.push, Effect.pop] at h

theorem Opcode.isAccess_stepVar (op : Increment) (t : NumType) : (stepVar op t).isAccess := by
  cases op <;> rfl

/-! ## Code -/

/-- All instructions of the code are of this kind. -/
def Code.All (P : Instruction → Prop) (code : Code) : Prop := ∀ i ∈ code, P i

/-- All instructions of the code that comes out are of this kind. -/
def Lowered.All (P : Instruction → Prop) (x : Lowered Code) : Prop := ∀ code, x = .ok code → code.All P

/-- The table has this name for something: as a symbol, in the signature of a subroutine, or as a member of
a struct. -/
inductive SymbolTable.Mentions (symbols : SymbolTable) : String → Prop
  | symbol {name : String} {s : Symbol} (found : symbols.find? name = some s) : symbols.Mentions name
  | signature {target : String} {s : Signature} (found : symbols.find? target = some (.subroutine s)) :
    symbols.Mentions s.name
  | member {name member : String} {info : VariableInfo} (found : symbols.var? name = some info)
    (mem : member ∈ info.members) : symbols.Mentions (memberName name member)

/-- What the instructions of code are is of this kind. -/
structure SymbolTable.Admits (symbols : SymbolTable) (P : Instruction → Prop) : Prop where
  other : ∀ {i : Instruction}, i.IsStraight → i.accessed? = none →
    (∀ name, i.label = some name → symbols.Mentions name) → P i
  register : ∀ {op : Opcode} (r : Register), op.effect?.isSome → P (op.named r.name)
  var : ∀ {op : Opcode} {name : String} {info : VariableInfo}, op.effect?.isSome →
    symbols.var? name = some info → info.storage = .plain → info.type ≠ .struct → P (op.named name)
  parameter : ∀ {op : Opcode} {target : String} {s : Signature} {p : Parameter}, op.effect?.isSome →
    symbols.find? target = some (.subroutine s) → s.machine = none → p ∈ s.parameters →
    P (op.named (s.slot p))

/-- What code is made of, with or without casts in the program. -/
inductive SymbolTable.Makes (symbols : SymbolTable) (casts : Prop) : Instruction → Prop
  | other {i : Instruction} (straight : i.IsStraight) (silent : i.accessed? = none)
    (known : ∀ name, i.label = some name → symbols.Mentions name) (sound : i.IsSound casts) :
    symbols.Makes casts i
  | register {op : Opcode} (r : Register) (access : op.isAccess) :
    symbols.Makes casts (op.named r.name)
  | var {op : Opcode} {name : String} {info : VariableInfo} (access : op.isAccess)
    (found : symbols.var? name = some info) (plain : info.storage = .plain)
    (type : info.type ≠ .struct) : symbols.Makes casts (op.named name)
  | parameter {op : Opcode} {target : String} {s : Signature} {p : Parameter} (access : op.isAccess)
    (found : symbols.find? target = some (.subroutine s)) (machine : s.machine = none)
    (mem : p ∈ s.parameters) : symbols.Makes casts (op.named (s.slot p))

theorem Opcode.effect?_of_isAccess {op : Opcode} (h : op.isAccess) : op.effect?.isSome := by
  cases op <;> first | rfl | cases h

theorem Opcode.operands_of_isAccess {op : Opcode} (h : op.isAccess) : op.operands = .name := by
  cases op <;> first | rfl | cases h

/-- What is true of all that code is made of is true of each instruction in it. -/
theorem SymbolTable.Admits.of_makes {symbols : SymbolTable} {P : Instruction → Prop} {casts : Prop}
    {i : Instruction} (hP : symbols.Admits P) (h : symbols.Makes casts i) : P i := by
  cases h with
  | other straight silent known _ => exact hP.other straight silent known
  | register r access => exact hP.register r (Opcode.effect?_of_isAccess access)
  | var access found plain type =>
    exact hP.var (Opcode.effect?_of_isAccess access) found plain type
  | parameter access found machine mem =>
    exact hP.parameter (Opcode.effect?_of_isAccess access) found machine mem

theorem SymbolTable.mentions_var {symbols : SymbolTable} {name : String} {info : VariableInfo}
    (h : symbols.var? name = some info) : symbols.Mentions name := by
  unfold var? at h
  split at h
  next hs => exact .symbol hs
  next => cases h

theorem SymbolTable.Makes.sound {symbols : SymbolTable} {casts : Prop} {i : Instruction}
    (h : symbols.Makes casts i) : i.IsSound casts := by
  cases h with
  | other _ _ _ sound => exact sound
  | register _ access | var access _ _ _ | parameter access _ _ _ =>
    exact .named (Opcode.operands_of_isAccess access) _

namespace Code.All

variable {P : Instruction → Prop} {code code' : Code} {i : Instruction}

theorem nil : Code.All P [] := fun _ h => by cases h

theorem single (h : P i) : Code.All P [i] := fun _ hj => List.mem_singleton.1 hj ▸ h

theorem append (h : code.All P) (h' : code'.All P) : Code.All P (code ++ code') := fun _ hi =>
  (List.mem_append.1 hi).elim (h _) (h' _)

theorem flatten {codes : List Code} (h : ∀ c ∈ codes, c.All P) : Code.All P codes.flatten :=
  fun _ hi => by
    obtain ⟨c, hc, hi⟩ := List.mem_flatten.1 hi
    exact h c hc _ hi

end Code.All

theorem Code.All.mono {P Q : Instruction → Prop} {code : Code} (h : code.All P)
    (hPQ : ∀ i, P i → Q i) : code.All Q :=
  fun i hi => hPQ i (h i hi)

theorem Lowered.All.ok {P : Instruction → Prop} {code : Code} (h : code.All P) :
    Lowered.All P (.ok code) :=
  fun _ h' => by
    cases h'
    exact h

theorem Lowered.All.mono {P Q : Instruction → Prop} {x : Lowered Code} (h : x.All P)
    (hPQ : ∀ i, P i → Q i) : x.All Q :=
  fun code hx => (h code hx).mono hPQ

/-- The opcode works on the stack alone: it takes no operand, and it does not convert. -/
structure Opcode.IsBare (op : Opcode) : Prop where
  effect : op.effect?.isSome
  operands : op.operands = .nothing
  noCast : op.isCast = false

namespace SymbolTable.Makes

variable {symbols : SymbolTable} {casts : Prop} {op : Opcode} {e : Effect}

theorem label_named {name : String} (hn : symbols.Mentions name) :
    ∀ name', (op.named name).label = some name' → symbols.Mentions name' := fun _ h =>
  Option.some.inj h ▸ hn

theorem unlabelled {i : Instruction} (h : i.label = none) :
    ∀ name, i.label = some name → symbols.Mentions name := fun _ hname => by
  rw [h] at hname
  cases hname

/-- An instruction without an operand. -/
theorem plain (h : op.IsBare) : Code.All (symbols.Makes casts) [op.plain] :=
  .single (.other (.inl h.effect) op.accessed?_plain (unlabelled rfl) (.plain h.operands h.noCast))

theorem addressed {address : UInt16} (h : op.effect? = some e) (ho : op.operands = .typed .uword) :
    Code.All (symbols.Makes casts) [op.addressed address] :=
  .single (.other (.inl (by rw [Opcode.addressed, Opcode.given, h]; rfl)) (op.accessed?_addressed _)
    (unlabelled rfl) (.addressed ho address))

/-- An instruction that has the name of a place, but takes an index. -/
theorem indexed {name : String} {ws : List Want} {gives : List Slot} (hn : symbols.Mentions name)
    (h : op.effect? = some { takes := .any :: ws, gives }) (ho : op.operands = .name) :
    Code.All (symbols.Makes casts) [op.named name] :=
  .single (.other (.inl (by rw [Opcode.named, h]; rfl))
    (by rw [Opcode.accessed?_named, Opcode.isAccess_of_any h]; rfl) (label_named hn) (.named ho name))

theorem address {name : String} (hn : symbols.Mentions name) :
    Code.All (symbols.Makes casts) [Opcode.pushAddress.named name] :=
  .single (.other (.inl rfl) rfl (label_named hn) (.named rfl name))

theorem call {name : String} (hn : symbols.Mentions name) :
    Code.All (symbols.Makes casts) [Opcode.call.named name] :=
  .single (.other (.inr (.inl rfl)) rfl (label_named hn) (.named rfl name))

theorem syscall {s : Syscall} (h : s ∈ Syscall.all) :
    Code.All (symbols.Makes casts) [Opcode.syscall.given (.wrapped .ubyte s.number.toNat)] :=
  .single (.other (.inr (.inr rfl)) rfl (unlabelled rfl)
    (.of_not_isCast (Syscall.isWellFormed h) rfl))

theorem push (v : Value) : v.push.All (symbols.Makes casts) :=
  .single (.other (.inl rfl) rfl (unlabelled rfl) (.push v))

theorem pushRegister (r : Register) : r.push.All (symbols.Makes casts) := .single (.register r rfl)

theorem popRegister (r : Register) : r.pop.All (symbols.Makes casts) := .single (.register r rfl)

/-- A conversion to a wider type, or to any type where there are casts. -/
theorem cast? {t u : NumType} (h : casts ∨ t.rank < u.rank) :
    Code.All (symbols.Makes casts) ((Opcode.cast? t u).map Opcode.plain).toList := by
  unfold Opcode.cast?
  split
  · exact .single (.other (.inl rfl) (Opcode.accessed?_plain _) (unlabelled rfl)
      ⟨Opcode.plain_isWellFormed rfl, h⟩)
  · exact .nil

/-- **What is brought to another type unasked is widened.** -/
theorem widening {source target : DataType} {op : Option Opcode}
    (h : source.widening target = .ok op) :
    Code.All (symbols.Makes casts) (op.map Opcode.plain).toList := by
  unfold DataType.widening at h
  split at h
  · cases h
    exact .nil
  · simp only [Lowered.bind_ok_iff] at h
    obtain ⟨⟨t, u⟩, -, h⟩ := h
    split at h
    · simp only [Lowered.throw_ok_iff] at h
    next hnarrow =>
      split at h <;> cases h
      next => exact .nil
      next hsame => exact cast? (.inr (by omega))

theorem castOpcode {source target : DataType} {op : Option Opcode} (hc : casts)
    (h : source.castOpcode target = .ok op) :
    Code.All (symbols.Makes casts) (op.map Opcode.plain).toList := by
  simp only [DataType.castOpcode, Lowered.bind_ok_iff, Lowered.pure_ok_iff] at h
  obtain ⟨⟨t, u⟩, -, rfl⟩ := h
  exact cast? (.inl hc)

theorem discard {t : DataType} (h : Opcode.discardFor t = .ok op) :
    Code.All (symbols.Makes casts) [op.plain] := by
  rw [Opcode.discardFor, orInvalid_ok_iff] at h
  obtain ⟨s, -, rfl⟩ := Option.map_eq_some_iff.1 h
  exact plain ⟨rfl, rfl, rfl⟩

end SymbolTable.Makes

section

variable {symbols : SymbolTable} {casts : Prop}

/-! ## Places -/

theorem readVar_makes {name : String} : (readVar symbols name).All (symbols.Makes casts) :=
  fun code h => by
    simp only [readVar, Lowered.bind_ok_iff, SymbolTable.needVar_ok_iff] at h
    obtain ⟨info, hinfo, h⟩ := h
    split at h <;>
      simp only [Lowered.bind_ok_iff, Lowered.pure_ok_iff, Lowered.throw_ok_iff, Opcode.pushMemFor,
        orInvalid_ok_iff] at h
    next hplain =>
      obtain ⟨op, hop, rfl⟩ := h
      cases htype : info.type with
      | num t =>
        rw [htype] at hop
        cases hop
        exact .single (.var rfl hinfo hplain (by simp [htype]))
      | struct =>
        rw [htype] at hop
        cases hop
      | str | strS | array e =>
        rw [htype] at hop
        cases hop
        exact .address (SymbolTable.mentions_var hinfo)
    next =>
      obtain ⟨op, hop, rfl⟩ := h
      obtain ⟨t, -, rfl⟩ := Option.map_eq_some_iff.1 hop
      exact .addressed rfl rfl

theorem readElement_makes {array : String} {index : Lowered Code}
    (hi : index.All (symbols.Makes casts)) :
    (readElement symbols array index).All (symbols.Makes casts) := fun code h => by
  simp only [readElement, Lowered.bind_ok_iff, Lowered.pure_ok_iff, Opcode.readIndexedFor,
    orInvalid_ok_iff, SymbolTable.needVar_ok_iff] at h
  obtain ⟨info, hinfo, op, hop, c, hc, rfl⟩ := h
  obtain ⟨e, -, rfl⟩ := Option.map_eq_some_iff.1 hop
  exact (hi c hc).append (.indexed (SymbolTable.mentions_var hinfo) rfl rfl)

theorem readMemory_makes {address : Expr} {inner : Lowered Code}
    (hi : inner.All (symbols.Makes casts)) :
    (readMemory symbols address inner).All (symbols.Makes casts) := fun code h => by
  simp only [readMemory, Lowered.bind_ok_iff] at h
  obtain ⟨fixed, -, h⟩ := h
  split at h <;> simp only [Lowered.bind_ok_iff, Lowered.pure_ok_iff] at h
  · exact h ▸ .addressed rfl rfl
  · obtain ⟨c, hc, rfl⟩ := h
    exact (hi c hc).append (.plain ⟨rfl, rfl, rfl⟩)

theorem readAddress_makes {name : String} :
    (readAddress symbols name).All (symbols.Makes casts) := fun code h => by
  simp only [readAddress, Lowered.bind_ok_iff, SymbolTable.needVar_ok_iff] at h
  obtain ⟨info, hinfo, h⟩ := h
  split at h
  · simp only [Lowered.throw_ok_iff] at h
  · split at h
    next first members hmembers =>
      cases h
      exact .address (.member hinfo (hmembers ▸ List.mem_cons_self))
    next => simp only [Lowered.throw_ok_iff] at h
  · cases h
    exact .address (SymbolTable.mentions_var hinfo)

theorem writeVar_makes {name : String} : (writeVar symbols name).All (symbols.Makes casts) :=
  fun code h => by
    simp only [writeVar, Lowered.bind_ok_iff, SymbolTable.needVar_ok_iff] at h
    obtain ⟨info, hinfo, h⟩ := h
    split at h <;>
      simp only [Opcode.popVarFor, Opcode.popMemFor, Lowered.bind_ok_iff, orInvalid_ok_iff,
        Lowered.pure_ok_iff, Lowered.throw_ok_iff] at h
    next hplain =>
      obtain ⟨op, hop, rfl⟩ := h
      obtain ⟨s, hs, rfl⟩ := Option.map_eq_some_iff.1 hop
      have htype : info.type ≠ .struct := fun hstruct => by simp [hstruct, DataType.stackSize?] at hs
      exact .single (.var rfl hinfo hplain htype)
    next =>
      obtain ⟨op, hop, rfl⟩ := h
      obtain ⟨s, -, rfl⟩ := Option.map_eq_some_iff.1 hop
      exact .addressed rfl rfl

theorem Place.write_makes {p : Place} {inner : Lowered Code} (hi : inner.All (symbols.Makes casts)) :
    (p.write symbols inner).All (symbols.Makes casts) := fun code h => by
  cases p with
  | var name => exact writeVar_makes code h
  | register r =>
    cases h
    exact .popRegister r
  | element array index =>
    simp only [write, Lowered.bind_ok_iff, Lowered.pure_ok_iff, Opcode.writeIndexedFor,
      orInvalid_ok_iff, SymbolTable.needVar_ok_iff] at h
    obtain ⟨info, hinfo, op, hop, c, hc, rfl⟩ := h
    obtain ⟨e, -, rfl⟩ := Option.map_eq_some_iff.1 hop
    exact (hi c hc).append (.indexed (SymbolTable.mentions_var hinfo) rfl rfl)
  | memory address =>
    simp only [write, Lowered.bind_ok_iff] at h
    obtain ⟨fixed, -, h⟩ := h
    split at h <;> simp only [Lowered.bind_ok_iff, Lowered.pure_ok_iff] at h
    · exact h ▸ .addressed rfl rfl
    · obtain ⟨c, hc, rfl⟩ := h
      exact (hi c hc).append (.plain ⟨rfl, rfl, rfl⟩)

theorem Place.step_var_ok {op : Increment} {name : String} {inner : Lowered Code} {code : Code}
    (h : (Place.var name).step symbols op inner = .ok code) :
    ∃ info t, symbols.var? name = some info ∧ info.type = .num t ∧
      code = [(Opcode.stepVar op t).named name] := by
  simp only [step, Lowered.bind_ok_iff, Lowered.check_ok_iff, Lowered.pure_ok_iff,
    Opcode.stepVarFor, orInvalid_ok_iff, SymbolTable.needVar_ok_iff] at h
  obtain ⟨info, hinfo, -, o, ho, rfl⟩ := h
  obtain ⟨t, ht, rfl⟩ := Option.map_eq_some_iff.1 ho
  cases htype : info.type <;> rw [htype] at ht <;> cases ht
  exact ⟨info, t, hinfo, htype, rfl⟩

/-- The step of a variable is the one access that does not look at where the variable lives. -/
theorem Place.step_makes {P : Instruction → Prop} {op : Increment} {p : Place} {inner : Lowered Code}
    (hP : ∀ i, symbols.Makes casts i → P i) (hi : inner.All (symbols.Makes casts))
    (hvar : ∀ name info t, p = .var name → symbols.var? name = some info → info.type = .num t →
      P ((Opcode.stepVar op t).named name)) :
    (p.step symbols op inner).All P := fun code h => by
  cases p with
  | var name =>
    obtain ⟨info, t, hinfo, htype, rfl⟩ := Place.step_var_ok h
    exact .single (hvar name info t rfl hinfo htype)
  | register r =>
    cases h
    exact .single (hP _ (.register r (Opcode.isAccess_stepVar op _)))
  | element array index =>
    simp only [step, Lowered.bind_ok_iff, Lowered.pure_ok_iff, SymbolTable.needVar_ok_iff] at h
    obtain ⟨info, hinfo, o, ho, c, hc, rfl⟩ := h
    have hoperands : o.operands = .name := by
      cases op <;> cases htype : info.type <;> rw [htype] at ho <;> cases ho <;> rfl
    have hstep : Code.All (symbols.Makes casts) [o.named array] :=
      .indexed (SymbolTable.mentions_var hinfo) (Opcode.stepIndexedFor_effect ho) hoperands
    exact ((hi c hc).append hstep).mono hP
  | memory address =>
    simp only [step, Lowered.bind_ok_iff] at h
    obtain ⟨fixed, -, h⟩ := h
    split at h <;> simp only [Lowered.bind_ok_iff, Lowered.pure_ok_iff] at h
    · subst h
      refine Code.All.mono (P := symbols.Makes casts) ?_ hP
      exact .addressed (Opcode.stepMemory_effect op) (by cases op <;> rfl)
    · obtain ⟨c, hc, rfl⟩ := h
      have hstep : Code.All (symbols.Makes casts) [(Opcode.popStepMemory op).plain] := by
        cases op <;> exact .plain ⟨rfl, rfl, rfl⟩
      exact ((hi c hc).append hstep).mono hP

/-! ## Operands -/

/-- The instructions of the operand are of this kind, and those for its index or address as well. -/
structure Operand.All (P : Instruction → Prop) (o : Operand) : Prop where
  push : o.push.All P
  inner : o.inner.All P

namespace Operand.All

variable {o : Operand}

theorem pushAs {target : DataType} (ho : o.All (symbols.Makes casts)) :
    (o.pushAs symbols target).All (symbols.Makes casts) := fun code h => by
  simp only [Operand.pushAs, Lowered.bind_ok_iff] at h
  obtain ⟨source, -, c, hc, h⟩ := h
  split at h
  · cases h
    exact ho.push code hc
  · simp only [Lowered.bind_ok_iff, Lowered.pure_ok_iff] at h
    obtain ⟨op, hop, rfl⟩ := h
    exact (ho.push c hc).append (.widening hop)

theorem load {r : Register} (ho : o.All (symbols.Makes casts)) :
    (o.load symbols r).All (symbols.Makes casts) := fun code h => by
  simp only [Operand.load, Lowered.bind_ok_iff, Lowered.pure_ok_iff] at h
  obtain ⟨c, hc, rfl⟩ := h
  exact (ho.pushAs c hc).append (.popRegister r)

theorem assign {p : Place} {inner : Lowered Code} (ho : o.All (symbols.Makes casts))
    (hi : inner.All (symbols.Makes casts)) :
    (o.assign symbols p inner).All (symbols.Makes casts) := fun code h => by
  simp only [Operand.assign, Lowered.bind_ok_iff, Lowered.pure_ok_iff] at h
  obtain ⟨t, -, c, hc, c', hc', rfl⟩ := h
  exact (ho.pushAs c hc).append (Place.write_makes hi c' hc')

end Operand.All

/-! ## Calls -/

variable {arg : Operand} {args : List Operand}

theorem ordinaryCall_makes {target : String} {s : Signature}
    (hs : symbols.find? target = some (.subroutine s)) (hm : s.machine = none)
    (ha : ∀ a ∈ args, a.All (symbols.Makes casts)) :
    (ordinaryCall symbols s args).All (symbols.Makes casts) := fun code h => by
  simp only [ordinaryCall, Lowered.check_ok_iff, Lowered.bind_ok_iff, Lowered.pure_ok_iff] at h
  obtain ⟨-, codes, hcodes, rfl⟩ := h
  refine (Code.All.flatten fun c hc => ?_).append (.call (.signature hs))
  obtain ⟨⟨p, arg⟩, hmem, hp⟩ := Lowered.exists_of_mem_mapM hcodes hc
  obtain ⟨hparameter, harg⟩ := List.of_mem_zip hmem
  simp only [passParameter, Lowered.bind_ok_iff, Lowered.pure_ok_iff, Opcode.popVarFor,
    orInvalid_ok_iff] at hp
  obtain ⟨c', hc', op, hop, rfl⟩ := hp
  obtain ⟨z, -, rfl⟩ := Option.map_eq_some_iff.1 hop
  exact ((ha arg harg).pushAs c' hc').append (.single (.parameter rfl hs hm hparameter))

theorem passPair_makes {p : RegisterPair} (ha : arg.All (symbols.Makes casts)) :
    (passPair symbols p arg).All (symbols.Makes casts) := fun code h => by
  simp only [passPair, Lowered.bind_ok_iff] at h
  obtain ⟨t, -, h⟩ := h
  split at h
  · simp only [Lowered.bind_ok_iff, Lowered.pure_ok_iff] at h
    obtain ⟨c, hc, rfl⟩ := h
    exact ((ha.load c hc).append (.push _)).append (.popRegister _)
  · split at h
    · simp only [Lowered.bind_ok_iff, Lowered.pure_ok_iff] at h
      obtain ⟨c, hc, rfl⟩ := h
      exact (ha.push c hc).append (.plain ⟨rfl, rfl, rfl⟩)
    · simp only [Lowered.throw_ok_iff] at h

theorem passCarrier_makes {c : Carrier} {passed : Code × Option Bool}
    (ha : arg.All (symbols.Makes casts)) (h : passCarrier symbols c arg = .ok passed) :
    passed.1.All (symbols.Makes casts) := by
  unfold passCarrier at h
  split at h
  · simp only [Lowered.bind_ok_iff, Lowered.pure_ok_iff] at h
    obtain ⟨code, hcode, rfl⟩ := h
    exact ha.load code hcode
  · simp only [Lowered.bind_ok_iff, Lowered.pure_ok_iff] at h
    obtain ⟨code, hcode, rfl⟩ := h
    exact passPair_makes ha code hcode
  · split at h
    · cases h
      exact .nil
    · simp only [Lowered.throw_ok_iff] at h
  · simp only [Lowered.throw_ok_iff] at h

theorem setCarry_makes (carry : Option Bool) : (setCarry carry).All (symbols.Makes casts) := by
  rcases carry with _ | _ | _
  · exact .nil
  · exact .plain ⟨rfl, rfl, rfl⟩
  · exact .plain ⟨rfl, rfl, rfl⟩

theorem takeResult_makes {c : Carrier} : (takeResult c).All (symbols.Makes casts) := fun code h => by
  unfold takeResult at h
  split at h <;> cases h
  · exact .pushRegister _
  · exact .plain ⟨rfl, rfl, rfl⟩
  · have hcarry : Code.All (symbols.Makes casts) [Opcode.carryToA.plain] := .plain ⟨rfl, rfl, rfl⟩
    exact hcarry.append (.pushRegister .a)

theorem machineCall_makes {target : String} {s : Signature} {m : MachineConvention}
    (hs : symbols.find? target = some (.subroutine s)) (ha : ∀ a ∈ args, a.All (symbols.Makes casts)) :
    (machineCall symbols s m args).All (symbols.Makes casts) := fun code h => by
  simp only [machineCall, Lowered.check_ok_iff, Lowered.bind_ok_iff, Lowered.pure_ok_iff] at h
  obtain ⟨-, passed, hpassed, results, hresults, rfl⟩ := h
  have hargs : Code.All (symbols.Makes casts) (passed.flatMap (·.1)) := by
    rw [List.flatMap_def]
    refine .flatten fun c hc => ?_
    obtain ⟨y, hy, rfl⟩ := List.mem_map.1 hc
    obtain ⟨⟨c, arg⟩, hmem, hp⟩ := Lowered.exists_of_mem_mapM hpassed hy
    exact passCarrier_makes (ha arg (List.of_mem_zip hmem).2) hp
  have htake : Code.All (symbols.Makes casts) results.flatten := .flatten fun c hc => by
    obtain ⟨r, -, hr⟩ := Lowered.exists_of_mem_mapM hresults hc
    exact takeResult_makes c hr
  have hjump : Code.All (symbols.Makes casts) [Opcode.call.named s.name] := .call (.signature hs)
  have hcall := ((hargs.append (setCarry_makes (passed.filterMap (·.2)).getLast?)).append
    hjump).append htake
  unfold savingX
  split
  · have hsave : Code.All (symbols.Makes casts) [Opcode.saveX.plain] := .plain ⟨rfl, rfl, rfl⟩
    exact (hsave.append hcall).append (.plain ⟨rfl, rfl, rfl⟩)
  · exact hcall

theorem subroutineCall_makes {target : String} {s : Signature}
    (hs : symbols.find? target = some (.subroutine s))
    (ha : ∀ a ∈ args, a.All (symbols.Makes casts)) :
    (subroutineCall symbols s args).All (symbols.Makes casts) := by
  unfold subroutineCall
  split
  next => exact machineCall_makes hs ha
  next hm => exact ordinaryCall_makes hs hm ha

/-! ## Builtins -/

theorem serviceCall_makes {function : String} :
    (serviceCall function).All (symbols.Makes casts) := fun code h => by
  unfold serviceCall at h
  split at h <;> cases h
  next s hs =>
    refine .syscall ?_
    unfold Syscall.ofFunction? at hs
    split at hs <;> exact List.mem_of_find?_eq_some hs

theorem pushLength_makes {length : UInt16} :
    (pushLength length).All (symbols.Makes casts) := fun code h => by
  unfold pushLength at h
  split at h <;> cases h
  exact .push _

theorem pushArguments_makes {params : List BuiltinParam}
    (ha : ∀ a ∈ args, a.All (symbols.Makes casts)) :
    (pushArguments symbols params args).All (symbols.Makes casts) := fun code h => by
  simp only [pushArguments, Lowered.bind_ok_iff, Lowered.pure_ok_iff] at h
  obtain ⟨codes, hcodes, rfl⟩ := h
  refine .flatten fun c hc => ?_
  obtain ⟨⟨p, arg⟩, hmem, hp⟩ := Lowered.exists_of_mem_mapM hcodes hc
  have harg := ha arg (List.of_mem_zip hmem).2
  cases p with
  | exact t => exact harg.pushAs c hp
  | _ => exact harg.push c hp

theorem reduction_makes {name : String} {byType : Bool} (ha : arg.All (symbols.Makes casts)) :
    (reduction symbols name byType arg).All (symbols.Makes casts) := fun code h => by
  simp only [reduction, Lowered.bind_ok_iff, Lowered.pure_ok_iff, Prod.exists] at h
  obtain ⟨t, length, -, e, -, c, hc, n, hn, s, hs, rfl⟩ := h
  exact ((ha.push c hc).append (pushLength_makes n hn)).append (serviceCall_makes s hs)

/-- The sum of elements is converted to a float, which is as wide as a type can be. -/
theorem average_makes (ha : arg.All (symbols.Makes casts)) :
    (average symbols arg).All (symbols.Makes casts) := fun code h => by
  simp only [average, Lowered.bind_ok_iff, Lowered.pure_ok_iff, Prod.exists] at h
  obtain ⟨t, length, -, sum, hsum, rfl⟩ := h
  have hcast : Code.All (symbols.Makes casts) ((t.element?.bind fun element =>
      Opcode.cast? element.sum .float).map Opcode.plain).toList := by
    cases t.element? with
    | none => exact .nil
    | some e =>
      cases e with
      | float => exact .nil
      | int e => exact .cast? (.inr (by cases e <;> decide))
  exact (((reduction_makes ha sum hsum).append hcast).append (.push _)).append
    (.plain ⟨rfl, rfl, rfl⟩)

/-- The opcode that carries out a builtin works on the stack alone. -/
def Builtin.hasBareOpcode (b : Builtin) : Bool :=
  match b.method with
  | .opcode op => op.effect?.isSome && op.operands = .nothing && !op.isCast
  | _ => true

theorem Builtin.hasBareOpcode_of_mem : ∀ b ∈ all, b.hasBareOpcode := by decide

theorem Builtin.isBare_of_method {b : Builtin} {op : Opcode} (hb : b ∈ all)
    (h : b.method = .opcode op) : op.IsBare := by
  have hbare := hasBareOpcode_of_mem b hb
  simp only [hasBareOpcode, h, Bool.and_eq_true, decide_eq_true_eq, Bool.not_eq_true'] at hbare
  exact ⟨hbare.1.1, hbare.1.2, hbare.2⟩

theorem checkedCall_makes {b : Builtin} (hb : b ∈ Builtin.all)
    (ha : ∀ a ∈ args, a.All (symbols.Makes casts)) :
    (checkedCall symbols b args).All (symbols.Makes casts) := fun code h => by
  unfold checkedCall at h
  split at h
  next arg _ =>
    simp only [elementCount, Lowered.bind_ok_iff] at h
    obtain ⟨t, -, h⟩ := h
    split at h <;> simp only [Lowered.bind_ok_iff, Lowered.pure_ok_iff] at h
    · obtain ⟨c, hc, s, hs, rfl⟩ := h
      exact ((ha arg List.mem_cons_self).push c hc).append (serviceCall_makes s hs)
    · obtain ⟨_, -, h⟩ := h
      exact pushLength_makes code h
  next arg _ => exact reduction_makes (ha arg List.mem_cons_self) code h
  next arg _ => exact average_makes (ha arg List.mem_cons_self) code h
  next arg _ =>
    simp only [absolute, Lowered.bind_ok_iff, Lowered.pure_ok_iff] at h
    obtain ⟨t, -, c, hc, rfl⟩ := h
    refine ((ha arg List.mem_cons_self).push c hc).append ?_
    cases t.num? with
    | none => exact .nil
    | some n =>
      simp only [Option.bind_some]
      split
      · exact .plain ⟨rfl, rfl, rfl⟩
      · exact .nil
  next arg _ =>
    simp only [highByte, Lowered.bind_ok_iff, Lowered.pure_ok_iff] at h
    obtain ⟨t, -, c, hc, rfl⟩ := h
    exact ((ha arg List.mem_cons_self).pushAs c hc).append (.plain ⟨rfl, rfl, rfl⟩)
  next shift arg _ =>
    have harg := ha arg List.mem_cons_self
    unfold shiftInPlace at h
    split at h
    · simp only [Lowered.throw_ok_iff] at h
    · simp only [Lowered.bind_ok_iff, Lowered.pure_ok_iff, Opcode.inPlaceFor, orInvalid_ok_iff] at h
      obtain ⟨t, -, op, hop, c, hc, w, hw, rfl⟩ := h
      obtain ⟨n, -, rfl⟩ := Option.map_eq_some_iff.1 hop
      have hshift : Code.All (symbols.Makes casts) [(Opcode.inPlace shift n).plain] := by
        cases shift <;> exact .plain ⟨rfl, rfl, rfl⟩
      exact ((harg.push c hc).append hshift).append (Place.write_makes harg.inner w hw)
  next op hm =>
    simp only [Lowered.bind_ok_iff, Lowered.pure_ok_iff] at h
    obtain ⟨c, hc, rfl⟩ := h
    exact (pushArguments_makes ha c hc).append (.plain (Builtin.isBare_of_method hb hm))
  next =>
    simp only [Lowered.bind_ok_iff, Lowered.pure_ok_iff] at h
    obtain ⟨c, hc, s, hs, rfl⟩ := h
    exact (pushArguments_makes ha c hc).append (serviceCall_makes s hs)

theorem swapPlaces_makes (ha : ∀ a ∈ args, a.All (symbols.Makes casts)) :
    (swapPlaces symbols args).All (symbols.Makes casts) := fun code h => by
  unfold swapPlaces at h
  split at h
  next first second =>
    have hfirst := ha first (by simp)
    have hsecond := ha second (by simp)
    simp only [Lowered.check_ok_iff, Lowered.bind_ok_iff] at h
    obtain ⟨-, -, t, -, u, -, -, -, h⟩ := h
    split at h
    · simp only [Lowered.bind_ok_iff, Lowered.pure_ok_iff] at h
      obtain ⟨c, hc, d, hd, v, hv, w, hw, rfl⟩ := h
      exact (((hfirst.push c hc).append (hsecond.push d hd)).append
        (Place.write_makes hfirst.inner v hv)).append (Place.write_makes hsecond.inner w hw)
    · simp only [Lowered.throw_ok_iff] at h
  next => cases h

theorem builtinCall_makes {b : Builtin} (hb : b ∈ Builtin.all)
    (ha : ∀ a ∈ args, a.All (symbols.Makes casts)) :
    (builtinCall symbols b args).All (symbols.Makes casts) := fun code h => by
  unfold builtinCall at h
  split at h
  next => exact swapPlaces_makes ha code h
  next =>
    simp only [Lowered.bind_ok_iff] at h
    obtain ⟨-, -, h⟩ := h
    exact checkedCall_makes hb ha code h

/-! ## Expressions -/

variable {o : Operand}

theorem unaryCode_makes {op : UnaryOp} (ho : o.All (symbols.Makes casts)) :
    (unaryCode symbols op o).All (symbols.Makes casts) := fun code h => by
  simp only [unaryCode, Lowered.bind_ok_iff, Lowered.pure_ok_iff] at h
  obtain ⟨t, -, opcode, hop, c, hc, rfl⟩ := h
  refine (ho.push c hc).append ?_
  cases op with
  | plus =>
    cases hop
    exact .nil
  | minus =>
    rw [Opcode.unaryFor, orInvalid_ok_iff] at hop
    cases t <;> simp [DataType.num?] at hop
    obtain ⟨-, rfl⟩ := hop
    exact .plain ⟨rfl, rfl, rfl⟩
  | invert | not =>
    rw [Opcode.unaryFor, orInvalid_ok_iff] at hop
    rcases t with (n | _) | _ | _ | _ | _ <;> cases hop
    exact .plain ⟨rfl, rfl, rfl⟩

theorem castCode_makes {t : DataType} (hc : casts) (ho : o.All (symbols.Makes casts)) :
    (castCode symbols o t).All (symbols.Makes casts) := fun code h => by
  simp only [castCode, Lowered.bind_ok_iff, Lowered.pure_ok_iff] at h
  obtain ⟨source, -, opcode, hop, c, hcode, rfl⟩ := h
  exact (ho.push c hcode).append (.castOpcode hc hop)

theorem Opcode.binary?_isBare {op : BinaryOp} {t : NumType} {opcode : Opcode}
    (h : Opcode.binary? op t = some opcode) : opcode.IsBare := by
  cases op with
  | arithmetic op =>
    cases op <;> cases t <;> simp [binary?, arithmetic?] at h <;>
      first | (subst h; exact ⟨rfl, rfl, rfl⟩) | (obtain ⟨-, rfl⟩ := h; exact ⟨rfl, rfl, rfl⟩)
  | connective op => cases op <;> cases t <;> cases h <;> exact ⟨rfl, rfl, rfl⟩
  | comparison op => cases op <;> cases h <;> exact ⟨rfl, rfl, rfl⟩
  | shift op => cases h

theorem binaryCode_makes {op : BinaryOp} {left right : Operand} (hl : left.All (symbols.Makes casts))
    (hr : right.All (symbols.Makes casts)) :
    (binaryCode symbols op left right).All (symbols.Makes casts) := fun code h => by
  by_cases hop : ∃ s, op = .shift s
  · obtain ⟨s, rfl⟩ := hop
    obtain ⟨n, _, amount, c, -, rfl, -, hc, rfl⟩ := shiftCode_ok h
    refine (hl.push c hc).append fun i hi => ?_
    have hstep : Code.All (symbols.Makes casts) [(Opcode.shiftStep s n).plain] := by
      cases s <;> exact .plain ⟨rfl, rfl, rfl⟩
    exact hstep i (List.mem_singleton.2 (List.eq_of_mem_replicate hi))
  · obtain ⟨a, b, opcode, lc, lw, rc, rw, -, -, hopcode, hlc, hlw, hrc, hrw, rfl⟩ :=
      binaryCode_ok (fun s hs => hop ⟨s, hs⟩) h
    exact ((((hl.push lc hlc).append (.widening hlw)).append (hr.push rc hrc)).append
      (.widening hrw)).append (.plain (Opcode.binary?_isBare hopcode))

theorem callCode_makes {target : String} (ha : ∀ a ∈ args, a.All (symbols.Makes casts)) :
    (callCode symbols target args).All (symbols.Makes casts) := fun code h => by
  unfold callCode at h
  split at h
  · cases h
    exact .push _
  · split at h
    next hs => exact subroutineCall_makes hs ha code h
    next => cases h
    next =>
      split at h
      next b hb => exact builtinCall_makes (List.mem_of_find?_eq_some hb) ha code h
      next => cases h

mutual

/-- **What the code of an expression is made of.** -/
theorem Expr.operand_makes : ∀ e : Expr, (e.hasCast → casts) →
    (e.operand symbols).All (symbols.Makes casts)
  | .number v, _ => ⟨.ok (.push v), .ok .nil⟩
  | .register r, _ => ⟨.ok (.pushRegister r), .ok .nil⟩
  | .unary _ e, hc => ⟨unaryCode_makes (operand_makes e hc), .ok .nil⟩
  | .binary left _ right, hc =>
    ⟨binaryCode_makes (operand_makes left fun h => hc (by simp [hasCast, h]))
      (operand_makes right fun h => hc (by simp [hasCast, h])), .ok .nil⟩
  | .call _ args, hc => ⟨callCode_makes (operands_makes args hc), .ok .nil⟩
  | .var _, _ => ⟨readVar_makes, .ok .nil⟩
  | .element _ index, hc =>
    ⟨readElement_makes (operand_makes index hc).push, (operand_makes index hc).push⟩
  | .cast e _, hc => ⟨castCode_makes (hc rfl) (operand_makes e fun _ => hc rfl), .ok .nil⟩
  | .memory address, hc =>
    ⟨readMemory_makes (operand_makes address hc).push, (operand_makes address hc).push⟩
  | .addressOf _, _ => ⟨readAddress_makes, .ok .nil⟩
  | .range _ _ _, _ => ⟨fun _ h => (by cases h), .ok .nil⟩
  | .structLiteral _, _ => ⟨fun _ h => (by cases h), .ok .nil⟩

theorem Expr.operands_makes : ∀ es : List Expr, (anyCast es → casts) →
    ∀ o ∈ operands symbols es, o.All (symbols.Makes casts)
  | [], _, o, ho => by cases ho
  | e :: es, hc, o, ho => by
    rw [operands, List.mem_cons] at ho
    rcases ho with rfl | ho
    · exact operand_makes e fun h => hc (by simp [anyCast, h])
    · exact operands_makes es (fun h => hc (by simp [anyCast, h])) o ho

end

theorem Expr.code_makes (e : Expr) (hc : e.hasCast → casts) :
    (e.code symbols).All (symbols.Makes casts) :=
  (e.operand_makes hc).push

/-! ## Single statements -/

theorem Place.inner_makes (p : Place) (hc : p.read.hasCast → casts) :
    (p.inner symbols).All (symbols.Makes casts) :=
  (p.read.operand_makes hc).inner

theorem assignCode_makes {p : Place} {value : Expr} (hp : p.read.hasCast → casts)
    (hv : value.hasCast → casts) : (assignCode symbols p value).All (symbols.Makes casts) :=
  (value.operand_makes hv).assign (p.inner_makes hp)

theorem Expr.hasCast_of_mem {e : Expr} {es : List Expr} (he : e ∈ es) (h : e.hasCast) : anyCast es := by
  induction es with
  | nil => cases he
  | cons x es ih =>
    rcases List.mem_cons.1 he with rfl | he
    · simp [anyCast, h]
    · simp [anyCast, ih he]

theorem structAssignCode_makes {p : Place} {values : List Expr} (hv : Expr.anyCast values → casts) :
    (structAssignCode symbols p values).All (symbols.Makes casts) := fun code h => by
  unfold structAssignCode at h
  split at h
  next name =>
    split at h
    next =>
      simp only [Lowered.check_ok_iff, Lowered.bind_ok_iff, Lowered.pure_ok_iff] at h
      obtain ⟨-, codes, hcodes, rfl⟩ := h
      refine .flatten fun c hc => ?_
      obtain ⟨⟨member, value⟩, hmem, hx⟩ := Lowered.exists_of_mem_mapM hcodes hc
      have hvalue := (List.of_mem_zip hmem).2
      exact assignCode_makes nofun (fun h => hv (Expr.hasCast_of_mem hvalue h)) c hx
    next => simp only [Lowered.throw_ok_iff] at h
  next => simp only [Lowered.throw_ok_iff] at h

theorem callStatementCode_makes {target : String} {args : List Expr}
    (ha : Expr.anyCast args → casts) :
    (callStatementCode symbols target args).All (symbols.Makes casts) := fun code h => by
  unfold callStatementCode at h
  split at h
  next s hs =>
    simp only [Lowered.bind_ok_iff, Lowered.pure_ok_iff] at h
    obtain ⟨c, hc, ops, hops, rfl⟩ := h
    refine (subroutineCall_makes hs (Expr.operands_makes args ha) c hc).append fun i hi => ?_
    obtain ⟨op, hop, rfl⟩ := List.mem_map.1 hi
    obtain ⟨t, -, ht⟩ := Lowered.exists_of_mem_mapM hops hop
    exact SymbolTable.Makes.discard ht _ (List.mem_singleton_self _)
  next hs =>
    cases h
    exact .call (.symbol hs)
  next => simp only [Lowered.throw_ok_iff] at h
  next =>
    split at h
    next => simp only [Lowered.throw_ok_iff] at h
    next b hb =>
      simp only [Lowered.bind_ok_iff, Lowered.pure_ok_iff] at h
      obtain ⟨first, -, c, hc, discards, hd, rfl⟩ := h
      refine (builtinCall_makes (List.mem_of_find?_eq_some hb)
        (Expr.operands_makes args ha) c hc).append ?_
      rw [Lowered.option_mapM_ok_iff] at hd
      rcases hd with ⟨-, rfl⟩ | ⟨t, op, -, rfl, ht⟩
      · exact .nil
      · exact .discard ht

/-! ## What is true of all code -/

variable {P : Instruction → Prop}

theorem Lowered.All.of_makes {x : Lowered Code} (hP : symbols.Admits P)
    (h : x.All (symbols.Makes True)) : x.All P :=
  h.mono fun _ => hP.of_makes

/-- **All code of an expression** is made of what the symbol table admits. -/
theorem Expr.code_all (hP : symbols.Admits P) (e : Expr) : (e.code symbols).All P :=
  .of_makes hP (e.code_makes fun _ => trivial)

theorem Expr.pushAs_all (hP : symbols.Admits P) (e : Expr) (t : DataType) :
    ((e.operand symbols).pushAs symbols t).All P :=
  .of_makes hP (e.operand_makes fun _ => trivial).pushAs

theorem assignCode_all (hP : symbols.Admits P) {p : Place} {value : Expr} :
    (assignCode symbols p value).All P :=
  .of_makes hP (assignCode_makes (fun _ => trivial) fun _ => trivial)

theorem structAssignCode_all (hP : symbols.Admits P) {p : Place} {values : List Expr} :
    (structAssignCode symbols p values).All P :=
  .of_makes hP (structAssignCode_makes fun _ => trivial)

theorem callStatementCode_all (hP : symbols.Admits P) {target : String} {args : List Expr} :
    (callStatementCode symbols target args).All P :=
  .of_makes hP (callStatementCode_makes fun _ => trivial)

theorem Place.step_all (hP : symbols.Admits P) {op : Increment} {p : Place}
    (hvar : ∀ name info t, p = .var name → symbols.var? name = some info → info.type = .num t →
      P ((Opcode.stepVar op t).named name)) :
    (p.step symbols op (p.inner symbols)).All P :=
  Place.step_makes (fun i (h : symbols.Makes True i) => hP.of_makes h)
    (p.inner_makes fun _ => trivial) hvar

end

end StackCode
