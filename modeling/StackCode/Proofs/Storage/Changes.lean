/-
The changes that the code of an expression makes: to variables and elements of them, to
registers, and to what is kept of register X. They are all in the shape of the expression.
Most expressions only leave a value on the stack. A call fills the variables or the registers
that its arguments go to, and a builtin that works in place writes to its argument, wherever in
an expression the call is.
-/
import StackCode.Proofs.Widening.Transfer

namespace StackCode

/-! ## Instructions -/

/-- What one instruction changes, other than the stack and a place in memory that it takes by its
address. -/
inductive Change where
  /-- The variable or the register of this name. -/
  | store (name : String)
  /-- An element of the array. -/
  | element (array : String)
  /-- Both registers of the pair. -/
  | pair (p : RegisterPair)
  /-- Register A, which takes the carry flag. -/
  | carryToA
  /-- All registers, which go back to what was kept of them. -/
  | restoreRegisters
  /-- What is kept of register X, which is more by one. -/
  | saveX
  /-- Register X, which goes back to what was kept last. -/
  | restoreX
deriving DecidableEq, Repr

/-- The opcode changes none of these. -/
def Opcode.isQuiet : Opcode → Bool
  | popVar _ | incVar _ | decVar _ | writeIndexed _ | incIndexed _ | decIndexed _ | popPair _
  | carryToA | restoreRegisters | saveX | restoreX => false
  | _ => true

def Instruction.change? (i : Instruction) : Option Change :=
  match i.opcode with
  | .popVar _ | .incVar _ | .decVar _ => i.label.map .store
  | .writeIndexed _ | .incIndexed _ | .decIndexed _ => i.label.map .element
  | .popPair p => some (.pair p)
  | .carryToA => some .carryToA
  | .restoreRegisters => some .restoreRegisters
  | .saveX => some .saveX
  | .restoreX => some .restoreX
  | _ => none

theorem Instruction.change?_of_isQuiet {i : Instruction} (h : i.opcode.isQuiet) : i.change? = none := by
  unfold change?
  split <;> first | rfl | simp_all [Opcode.isQuiet]

/-- The changes that code makes, in order. -/
def changesOf (code : Code) : List Change := code.filterMap (·.change?)

theorem mem_changesOf {code : Code} {c : Change} :
    c ∈ changesOf code ↔ ∃ i ∈ code, i.change? = some c :=
  List.mem_filterMap

@[simp] theorem changesOf_nil : changesOf [] = [] := rfl

@[simp] theorem changesOf_append (code code' : Code) :
    changesOf (code ++ code') = changesOf code ++ changesOf code' :=
  List.filterMap_append

theorem changesOf_singleton (i : Instruction) : changesOf [i] = i.change?.toList := by
  cases h : i.change? <;> simp [changesOf, h]

/-- Code of opcodes that change nothing. -/
theorem changesOf_of_isQuiet {code : Code} (h : ∀ i ∈ code, i.opcode.isQuiet) : changesOf code = [] :=
  List.filterMap_eq_nil_iff.2 fun i hi => Instruction.change?_of_isQuiet (h i hi)

theorem changesOf_plain {op : Opcode} (h : op.isQuiet) : changesOf [op.plain] = [] :=
  changesOf_of_isQuiet fun _ hi => by rwa [List.mem_singleton.1 hi]

theorem changesOf_named {op : Opcode} (h : op.isQuiet) (name : String) :
    changesOf [op.named name] = [] :=
  changesOf_of_isQuiet fun _ hi => by rwa [List.mem_singleton.1 hi]

theorem changesOf_addressed {op : Opcode} (h : op.isQuiet) (address : UInt16) :
    changesOf [op.addressed address] = [] :=
  changesOf_of_isQuiet fun _ hi => by rwa [List.mem_singleton.1 hi]

/-- An opcode where one is needed. -/
theorem changesOf_option {op : Option Opcode} (h : ∀ o ∈ op, o.isQuiet) :
    changesOf (op.map Opcode.plain).toList = [] := by
  cases op with
  | none => rfl
  | some o => exact changesOf_plain (h o rfl)

@[simp] theorem changesOf_push (v : Value) : changesOf v.push = [] := rfl

@[simp] theorem changesOf_popRegister (r : Register) : changesOf r.pop = [.store r.name] := rfl

/-! ## Opcodes that are chosen -/

namespace Opcode

theorem isQuiet_cast? {source target : NumType} {op : Opcode} (h : op ∈ cast? source target) :
    op.isQuiet := by
  unfold cast? at h
  split at h <;> cases h
  rfl

theorem isQuiet_binary? {op : BinaryOp} {t : NumType} {code : Opcode} (h : binary? op t = some code) :
    code.isQuiet := by
  rcases op with a | c | c | s
  · cases a <;> rcases t with t | _ <;> simp only [binary?, arithmetic?, reduceCtorEq] at h <;>
      first
      | (cases h; rfl)
      | (split at h <;> cases h; rfl)
  · cases c <;> rcases t with t | _ <;> cases h <;> rfl
  · cases c <;> cases h <;> rfl
  · cases h

theorem isQuiet_shiftStep (op : Shift) (t : IntType) : (shiftStep op t).isQuiet := by
  cases op <;> rfl

theorem isQuiet_inPlace (shift : InPlaceShift) (t : IntType) : (inPlace shift t).isQuiet := by
  cases shift <;> rfl

theorem isQuiet_unaryFor {op : UnaryOp} {t : DataType} {code : Option Opcode}
    (h : unaryFor op t = .ok code) : ∀ o ∈ code, o.isQuiet := by
  rintro o rfl
  cases op <;> simp only [unaryFor, orInvalid_ok_iff, Option.map_eq_some_iff,
    Option.bind_eq_some_iff] at h
  case plus => cases h
  case minus =>
    obtain ⟨n, -, h⟩ := h
    split at h <;> cases h
    rfl
  all_goals
    obtain ⟨n, -, h⟩ := h
    cases h
    rfl

theorem isQuiet_widening {source target : DataType} {op : Option Opcode}
    (h : source.widening target = .ok op) : ∀ o ∈ op, o.isQuiet := by
  rintro o rfl
  unfold DataType.widening at h
  split at h
  · cases h
  · simp only [Lowered.bind_ok_iff, Prod.exists] at h
    obtain ⟨t, u, -, h⟩ := h
    split at h
    · simp only [Lowered.throw_ok_iff] at h
    split at h <;> simp only [Lowered.pure_ok_iff] at h
    · cases h
    · exact isQuiet_cast? h

theorem isQuiet_castOpcode {source target : DataType} {op : Option Opcode}
    (h : source.castOpcode target = .ok op) : ∀ o ∈ op, o.isQuiet := by
  rintro o rfl
  simp only [DataType.castOpcode, Lowered.bind_ok_iff, Lowered.pure_ok_iff, Prod.exists] at h
  obtain ⟨t, u, -, h⟩ := h
  exact isQuiet_cast? h

end Opcode

/-! ## Shapes -/

/-- A store to the place. What lies at an address is no change here. -/
def Place.changes (symbols : SymbolTable) : Place → List Change
  | var name =>
    if (symbols.var? name).any (·.storage = .plain) then [.store name] else []
  | register r => [.store r.name]
  | element array _ => [.element array]
  | memory _ => []

/-- An argument for a carrier, given the changes that its own code makes. A pair of registers takes a
byte register by register, and a flag takes no code at all. -/
def Carrier.changes (symbols : SymbolTable) (c : Carrier) (arg : Expr) (changes : List Change) :
    List Change :=
  match c with
  | register r => changes ++ [.store r.name]
  | pair p =>
    changes ++
      if arg.type? symbols = some .ubyte then
        [.store p.registers.1.name, .store p.registers.2.name]
      else [.pair p]
  | flag _ => []

/-- A result from a carrier. The carry flag takes the way through register A. -/
def Carrier.resultChanges : Carrier → List Change
  | flag .carry => [.carryToA]
  | _ => []

/-- A call keeps register X if the subroutine clobbers it or takes an argument in it. -/
def MachineConvention.keepsX (m : MachineConvention) : Bool :=
  m.clobbers.contains .x || m.parameters.any (·.uses .x)

def MachineConvention.changes (symbols : SymbolTable) (m : MachineConvention)
    (args : List (Expr × List Change)) : List Change :=
  let changes :=
    ((m.parameters.zip args).flatMap fun (c, arg, changes) => c.changes symbols arg changes) ++
      m.returns.reverse.flatMap Carrier.resultChanges
  if m.keepsX then [.saveX] ++ changes ++ [.restoreX] else changes

/-- A call of the subroutine. The arguments come with the changes that their own code makes. -/
def Signature.changes (symbols : SymbolTable) (s : Signature) (args : List (Expr × List Change)) :
    List Change :=
  match s.machine with
  | some m => m.changes symbols args
  | none => (s.parameters.zip args).flatMap fun (p, _, changes) => changes ++ [.store (s.slot p)]

/-- What the builtin does behind its arguments. Places have been read by then, each of them, and are
written now: there is code for the index or the address both times. -/
def BuiltinMethod.changes (symbols : SymbolTable) (args : List (Expr × List Change)) :
    BuiltinMethod → List Change
  | swap | shift _ => args.flatMap fun (arg, changes) =>
      changes ++ ((Place.ofExpr? arg).map (·.changes symbols)).getD []
  | opcode op => op.plain.change?.toList
  | _ => []

def Builtin.changes (symbols : SymbolTable) (b : Builtin) (args : List (Expr × List Change)) :
    List Change :=
  args.flatMap (·.2) ++ b.method.changes symbols args

def SymbolTable.changes (symbols : SymbolTable) (target : String) (args : List (Expr × List Change)) :
    List Change :=
  match symbols.find? target with
  | some (.subroutine s) => s.changes symbols args
  | some _ => []
  | none => ((Builtin.find? target).map (·.changes symbols args)).getD []

namespace Expr

mutual

/-- The changes that the code of an expression makes, in order. There is no code for the amount of a
shift, for a fixed address, or for a call that is a constant. -/
def changes (symbols : SymbolTable) : Expr → List Change
  | unary _ e | cast e _ | element _ e => e.changes symbols
  | binary left (.shift _) _ => left.changes symbols
  | binary left _ right => left.changes symbols ++ right.changes symbols
  | memory address => if (address.constant? symbols).isSome then [] else address.changes symbols
  | call target args =>
    if (callConstant? symbols target args).isSome then []
    else symbols.changes target (withChanges symbols args)
  | number _ | register _ | var _ | addressOf _ | range .. | structLiteral _ => []

/-- The expressions with the changes that their code makes. -/
def withChanges (symbols : SymbolTable) : List Expr → List (Expr × List Change)
  | [] => []
  | e :: es => (e, e.changes symbols) :: withChanges symbols es

end

end Expr

/-! ## Code -/

/-- The code that comes out makes these changes. -/
def Lowered.Changes (x : Lowered Code) (changes : List Change) : Prop :=
  ∀ code, x = .ok code → changesOf code = changes

variable {symbols : SymbolTable} {changes : List Change}

/-- Pieces that were lowered one after the other, each with code in it. -/
theorem Lowered.mapM_changes {α β : Type} {xs : List α} {f : α → Lowered β} {code : β → Code}
    {g : α → List Change} {ys : List β} (h : ∀ x ∈ xs, ∀ y, f x = .ok y → changesOf (code y) = g x)
    (hm : xs.mapM f = .ok ys) : changesOf (ys.flatMap code) = xs.flatMap g := by
  rw [Lowered.mapM_ok_iff] at hm
  induction hm with
  | nil => rfl
  | cons hx _ ih =>
    rw [List.flatMap_cons, List.flatMap_cons, changesOf_append, h _ List.mem_cons_self _ hx,
      ih fun x hmem => h x (List.mem_cons_of_mem _ hmem)]

theorem Lowered.Changes.mapM {α : Type} {xs : List α} {f : α → Lowered Code} {g : α → List Change}
    {codes : List Code} (h : ∀ x ∈ xs, (f x).Changes (g x)) (hm : xs.mapM f = .ok codes) :
    changesOf codes.flatten = xs.flatMap g := by
  rw [← List.flatMap_id]
  exact Lowered.mapM_changes h hm

/-! ## Places -/

theorem readVar_changes {name : String} : (readVar symbols name).Changes [] := fun code h => by
  simp only [readVar, Lowered.bind_ok_iff] at h
  obtain ⟨info, -, h⟩ := h
  split at h <;>
    simp only [Lowered.bind_ok_iff, Lowered.pure_ok_iff, Lowered.throw_ok_iff] at h
  · obtain ⟨op, hop, rfl⟩ := h
    refine changesOf_named ?_ name
    cases htype : info.type <;> rw [htype] at hop <;> cases hop <;> rfl
  · obtain ⟨op, hop, rfl⟩ := h
    simp only [Opcode.pushMemFor, orInvalid_ok_iff] at hop
    obtain ⟨t, -, rfl⟩ := Option.map_eq_some_iff.1 hop
    exact changesOf_addressed rfl _

theorem readElement_changes {array : String} {index : Lowered Code} (hi : index.Changes changes) :
    (readElement symbols array index).Changes changes := fun code h => by
  simp only [readElement, Lowered.bind_ok_iff, Lowered.pure_ok_iff, Opcode.readIndexedFor,
    orInvalid_ok_iff] at h
  obtain ⟨info, -, op, hop, c, hc, rfl⟩ := h
  obtain ⟨e, -, rfl⟩ := Option.map_eq_some_iff.1 hop
  rw [changesOf_append, hi c hc, changesOf_named rfl, List.append_nil]

theorem fixedAddress?_isSome {address : Expr} {fixed : Option UInt16}
    (h : address.fixedAddress? symbols = .ok fixed) :
    fixed.isSome = (address.constant? symbols).isSome := by
  unfold Expr.fixedAddress? at h
  split at h
  · cases h
    simp_all
  · split at h <;> cases h
    simp_all

theorem readMemory_changes {address : Expr} {inner : Lowered Code} (hi : inner.Changes changes) :
    (readMemory symbols address inner).Changes
      (if (address.constant? symbols).isSome then [] else changes) := fun code h => by
  simp only [readMemory, Lowered.bind_ok_iff] at h
  obtain ⟨fixed, hfixed, h⟩ := h
  rw [← fixedAddress?_isSome hfixed]
  split at h <;> simp only [Lowered.bind_ok_iff, Lowered.pure_ok_iff] at h
  · subst h
    rfl
  · obtain ⟨c, hc, rfl⟩ := h
    rw [changesOf_append, hi c hc, changesOf_plain rfl, List.append_nil]
    rfl

theorem readAddress_changes {name : String} : (readAddress symbols name).Changes [] := fun code h => by
  simp only [readAddress, Lowered.bind_ok_iff] at h
  obtain ⟨info, -, h⟩ := h
  split at h
  · simp only [Lowered.throw_ok_iff] at h
  · split at h
    · cases h
      rfl
    · simp only [Lowered.throw_ok_iff] at h
  · cases h
    rfl

theorem writeVar_changes {name : String} :
    (writeVar symbols name).Changes ((Place.var name).changes symbols) := fun code h => by
  simp only [writeVar, Lowered.bind_ok_iff, SymbolTable.needVar_ok_iff] at h
  obtain ⟨info, hinfo, h⟩ := h
  rw [Place.changes, hinfo]
  split at h <;>
    simp only [Opcode.popVarFor, Lowered.bind_ok_iff, orInvalid_ok_iff, Lowered.pure_ok_iff,
      Lowered.throw_ok_iff] at h
  next hplain =>
    obtain ⟨op, hop, rfl⟩ := h
    obtain ⟨s, -, rfl⟩ := Option.map_eq_some_iff.1 hop
    simp [changesOf_singleton, Instruction.change?, Opcode.named, hplain]
  next hmemory =>
    obtain ⟨op, hop, rfl⟩ := h
    simp only [Opcode.popMemFor, orInvalid_ok_iff] at hop
    obtain ⟨s, -, rfl⟩ := Option.map_eq_some_iff.1 hop
    rw [changesOf_addressed rfl]
    simp [hmemory]

theorem writeElement_changes {array : String} {index : Expr} {inner : Lowered Code}
    (hi : inner.Changes changes) : ((Place.element array index).write symbols inner).Changes
      (changes ++ (Place.element array index).changes symbols) := fun code h => by
  simp only [Place.write, Lowered.bind_ok_iff, Lowered.pure_ok_iff, Opcode.writeIndexedFor,
    orInvalid_ok_iff] at h
  obtain ⟨info, -, op, hop, c, hc, rfl⟩ := h
  obtain ⟨e, -, rfl⟩ := Option.map_eq_some_iff.1 hop
  rw [changesOf_append, hi c hc, changesOf_singleton]
  rfl

theorem writeMemory_changes {address : Expr} {inner : Lowered Code} (hi : inner.Changes changes) :
    ((Place.memory address).write symbols inner).Changes
      ((if (address.constant? symbols).isSome then [] else changes) ++
        (Place.memory address).changes symbols) := fun code h => by
  simp only [Place.write, Lowered.bind_ok_iff] at h
  obtain ⟨fixed, hfixed, h⟩ := h
  rw [← fixedAddress?_isSome hfixed]
  split at h <;> simp only [Lowered.bind_ok_iff, Lowered.pure_ok_iff] at h
  · subst h
    rfl
  · obtain ⟨c, hc, rfl⟩ := h
    rw [changesOf_append, hi c hc, changesOf_plain rfl]
    rfl

/-! ## Operands -/

/-- The code of the operand makes the changes that its expression tells, and so does the code that writes
the place back. -/
structure Operand.Changes (symbols : SymbolTable) (o : Operand) : Prop where
  push : o.push.Changes (o.expr.changes symbols)
  write : ∀ p, Place.ofExpr? o.expr = some p →
    (p.write symbols o.inner).Changes (o.expr.changes symbols ++ p.changes symbols)

theorem Operand.Changes.code {e : Expr} (h : (e.operand symbols).Changes symbols) :
    (e.code symbols).Changes (e.changes symbols) := by
  have hpush := h.push
  rwa [Expr.expr_operand] at hpush

namespace Operand.Changes

variable {o : Operand}

/-- What is no place is only read. -/
theorem of_push (hplace : Place.ofExpr? o.expr = none)
    (h : o.push.Changes (o.expr.changes symbols)) : o.Changes symbols where
  push := h
  write p hp := by rw [hplace] at hp; cases hp

theorem pushAs {t : DataType} (ho : o.Changes symbols) :
    (o.pushAs symbols t).Changes (o.expr.changes symbols) := fun code h => by
  simp only [Operand.pushAs, Lowered.bind_ok_iff] at h
  obtain ⟨source, -, c, hc, h⟩ := h
  split at h
  · cases h
    exact ho.push code hc
  · simp only [Lowered.bind_ok_iff, Lowered.pure_ok_iff] at h
    obtain ⟨op, hop, rfl⟩ := h
    rw [changesOf_append, ho.push c hc, changesOf_option (Opcode.isQuiet_widening hop),
      List.append_nil]

theorem load {r : Register} (ho : o.Changes symbols) :
    (o.load symbols r).Changes (o.expr.changes symbols ++ [.store r.name]) := fun code h => by
  simp only [Operand.load, Lowered.bind_ok_iff, Lowered.pure_ok_iff] at h
  obtain ⟨c, hc, rfl⟩ := h
  rw [changesOf_append, ho.pushAs c hc, changesOf_popRegister]

end Operand.Changes

/-! ## Calls -/

variable {arg : Operand} {args : List Operand}

theorem passParameter_changes {s : Signature} {p : Parameter} (ha : arg.Changes symbols) :
    (passParameter symbols s p arg).Changes (arg.expr.changes symbols ++ [.store (s.slot p)]) :=
  fun code h => by
    simp only [passParameter, Lowered.bind_ok_iff, Lowered.pure_ok_iff, Opcode.popVarFor,
      orInvalid_ok_iff] at h
    obtain ⟨c, hc, op, hop, rfl⟩ := h
    obtain ⟨z, -, rfl⟩ := Option.map_eq_some_iff.1 hop
    rw [changesOf_append, ha.pushAs c hc, changesOf_singleton]
    rfl

/-- Arguments with the changes that their code makes. -/
def withChanges (symbols : SymbolTable) (args : List Operand) : List (Expr × List Change) :=
  args.map fun arg => (arg.expr, arg.expr.changes symbols)

/-- Arguments that go one to each, with what becomes of each pair. -/
theorem flatMap_zip_withChanges {α : Type} (xs : List α) (g : α × Expr × List Change → List Change) :
    (xs.zip (withChanges symbols args)).flatMap g =
      (xs.zip args).flatMap fun x => g (x.1, x.2.expr, x.2.expr.changes symbols) := by
  rw [withChanges, List.zip_map_right, List.flatMap_map]
  rfl

theorem ordinaryCall_changes {s : Signature} (hm : s.machine = none)
    (ha : ∀ a ∈ args, a.Changes symbols) :
    (ordinaryCall symbols s args).Changes (s.changes symbols (withChanges symbols args)) :=
  fun code h => by
    simp only [ordinaryCall, Lowered.check_ok_iff, Lowered.bind_ok_iff, Lowered.pure_ok_iff] at h
    obtain ⟨-, codes, hcodes, rfl⟩ := h
    have hpassed := Lowered.Changes.mapM
      (g := fun x => x.2.expr.changes symbols ++ [.store (s.slot x.1)])
      (fun x hx => passParameter_changes (ha x.2 (List.of_mem_zip hx).2)) hcodes
    rw [changesOf_append, hpassed, changesOf_named rfl, List.append_nil]
    simp only [Signature.changes, hm, flatMap_zip_withChanges]

theorem passPair_changes {p : RegisterPair} (ha : arg.Changes symbols) :
    (passPair symbols p arg).Changes
      ((Carrier.pair p).changes symbols arg.expr (arg.expr.changes symbols)) := fun code h => by
  simp only [passPair, Lowered.bind_ok_iff, Expr.needType_ok_iff] at h
  obtain ⟨t, ht, h⟩ := h
  rw [Carrier.changes, ht]
  split at h
  next =>
    simp only [Lowered.bind_ok_iff, Lowered.pure_ok_iff] at h
    obtain ⟨c, hc, rfl⟩ := h
    simp [ha.load c hc]
  next hbyte =>
    split at h
    · simp only [Lowered.bind_ok_iff, Lowered.pure_ok_iff] at h
      obtain ⟨c, hc, rfl⟩ := h
      have hne : some t ≠ some .ubyte := fun heq => hbyte (Option.some.inj heq)
      rw [changesOf_append, ha.push c hc, changesOf_singleton, if_neg hne]
      rfl
    · simp only [Lowered.throw_ok_iff] at h

theorem passCarrier_changes {c : Carrier} {passed : Code × Option Bool} (ha : arg.Changes symbols)
    (h : passCarrier symbols c arg = .ok passed) :
    changesOf passed.1 = c.changes symbols arg.expr (arg.expr.changes symbols) := by
  unfold passCarrier at h
  split at h
  · simp only [Lowered.bind_ok_iff, Lowered.pure_ok_iff] at h
    obtain ⟨code, hcode, rfl⟩ := h
    exact ha.load code hcode
  · simp only [Lowered.bind_ok_iff, Lowered.pure_ok_iff] at h
    obtain ⟨code, hcode, rfl⟩ := h
    exact passPair_changes ha code hcode
  · split at h
    · cases h
      rfl
    · simp only [Lowered.throw_ok_iff] at h
  · simp only [Lowered.throw_ok_iff] at h

theorem setCarry_changes (carry : Option Bool) : changesOf (setCarry carry) = [] := by
  rcases carry with _ | _ | _ <;> rfl

theorem takeResult_changes {c : Carrier} : (takeResult c).Changes c.resultChanges := fun code h => by
  unfold takeResult at h
  split at h <;> cases h <;> rfl

theorem savingX_changes (changes : Bool) (code : Code) : changesOf (savingX changes code) =
    if changes then [.saveX] ++ changesOf code ++ [.restoreX] else changesOf code := by
  unfold savingX
  split
  · rw [changesOf_append, changesOf_append]
    rfl
  · rfl

theorem machineCall_changes {s : Signature} {m : MachineConvention}
    (ha : ∀ a ∈ args, a.Changes symbols) :
    (machineCall symbols s m args).Changes (m.changes symbols (withChanges symbols args)) :=
  fun code h => by
    simp only [machineCall, Lowered.check_ok_iff, Lowered.bind_ok_iff, Lowered.pure_ok_iff] at h
    obtain ⟨-, passed, hpassed, results, hresults, rfl⟩ := h
    have hargs : changesOf (passed.flatMap (·.1)) = (m.parameters.zip args).flatMap fun x =>
        x.1.changes symbols x.2.expr (x.2.expr.changes symbols) :=
      Lowered.mapM_changes
        (fun x hx r hr => passCarrier_changes (ha x.2 (List.of_mem_zip hx).2) hr) hpassed
    have htake := Lowered.Changes.mapM (fun c _ => takeResult_changes (c := c)) hresults
    have hcall : changesOf [Opcode.call.named s.name] = [] := changesOf_named rfl _
    rw [savingX_changes]
    simp only [changesOf_append, hargs, htake, setCarry_changes, hcall, MachineConvention.changes,
      MachineConvention.keepsX, flatMap_zip_withChanges, List.append_nil]

theorem subroutineCall_changes {s : Signature} (ha : ∀ a ∈ args, a.Changes symbols) :
    (subroutineCall symbols s args).Changes (s.changes symbols (withChanges symbols args)) := by
  unfold subroutineCall
  split
  next m hm =>
    rw [Signature.changes, hm]
    exact machineCall_changes ha
  next hm => exact ordinaryCall_changes hm ha

/-! ## Builtins -/

theorem serviceCall_changes {function : String} : (serviceCall function).Changes [] := fun code h => by
  unfold serviceCall at h
  split at h <;> cases h
  rfl

theorem pushLength_changes {length : UInt16} : (pushLength length).Changes [] := fun code h => by
  unfold pushLength at h
  split at h <;> cases h
  exact changesOf_push _

theorem pushArguments_changes {params : List BuiltinParam} (hlen : args.length = params.length)
    (ha : ∀ a ∈ args, a.Changes symbols) :
    (pushArguments symbols params args).Changes (args.flatMap (·.expr.changes symbols)) :=
  fun code h => by
    simp only [pushArguments, Lowered.bind_ok_iff, Lowered.pure_ok_iff] at h
    obtain ⟨codes, hcodes, rfl⟩ := h
    rw [Lowered.Changes.mapM (g := fun x => x.2.expr.changes symbols) ?_ hcodes]
    · conv_rhs => rw [← List.map_snd_zip (Nat.le_of_eq hlen), List.flatMap_map]
    · rintro ⟨p, arg⟩ hx
      have harg := ha arg (List.of_mem_zip hx).2
      cases p with
      | exact t => exact harg.pushAs
      | _ => exact harg.push

/-- An array that is asked for as a whole is a variable, so there is no code for it that stores. -/
theorem stores_of_declaredArray {e : Expr} {r : DataType × UInt16}
    (h : declaredArray symbols e = .ok r) : e.changes symbols = [] := by
  unfold declaredArray at h
  split at h
  · rfl
  · simp only [Lowered.throw_ok_iff] at h

theorem reduction_changes {name : String} {byType : Bool} (ha : arg.Changes symbols) :
    (reduction symbols name byType arg).Changes (arg.expr.changes symbols) := fun code h => by
  simp only [reduction, Lowered.bind_ok_iff, Lowered.pure_ok_iff, Prod.exists] at h
  obtain ⟨t, length, -, e, -, c, hc, n, hn, s, hs, rfl⟩ := h
  simp [ha.push c hc, pushLength_changes n hn, serviceCall_changes s hs]

theorem elementCount_changes (ha : arg.Changes symbols) :
    (elementCount symbols arg).Changes (arg.expr.changes symbols) := fun code h => by
  simp only [elementCount, Lowered.bind_ok_iff] at h
  obtain ⟨t, -, h⟩ := h
  split at h <;> simp only [Lowered.bind_ok_iff, Lowered.pure_ok_iff] at h
  · obtain ⟨c, hc, s, hs, rfl⟩ := h
    simp [ha.push c hc, serviceCall_changes s hs]
  · obtain ⟨r, hr, h⟩ := h
    rw [stores_of_declaredArray hr, pushLength_changes code h]

theorem shiftInPlace_changes {name : String} {shift : InPlaceShift} (ha : arg.Changes symbols) :
    (shiftInPlace symbols name shift arg).Changes (arg.expr.changes symbols ++
      (arg.expr.changes symbols ++ ((Place.ofExpr? arg.expr).map (·.changes symbols)).getD [])) :=
  fun code h => by
    unfold shiftInPlace at h
    split at h
    · simp only [Lowered.throw_ok_iff] at h
    next p hp =>
      simp only [Lowered.bind_ok_iff, Lowered.pure_ok_iff] at h
      obtain ⟨t, -, op, hop, c, hc, w, hw, rfl⟩ := h
      simp only [Opcode.inPlaceFor, orInvalid_ok_iff] at hop
      obtain ⟨u, -, rfl⟩ := Option.map_eq_some_iff.1 hop
      rw [changesOf_append, changesOf_append, ha.push c hc, ha.write p hp w hw,
        changesOf_plain (Opcode.isQuiet_inPlace shift u), List.append_nil, hp]
      rfl

/-- A builtin that makes no change of its own. -/
theorem Builtin.changes_of_method {b : Builtin}
    (h : b.method.changes symbols (withChanges symbols args) = []) :
    b.changes symbols (withChanges symbols args) = args.flatMap (·.expr.changes symbols) := by
  rw [changes, h, List.append_nil, withChanges, List.flatMap_map]

theorem checkedCall_changes {b : Builtin} (hb : b ∈ Builtin.all) (hlen : args.length = b.params.length)
    (hswap : b.method ≠ .swap) (ha : ∀ a ∈ args, a.Changes symbols) :
    (checkedCall symbols b args).Changes (b.changes symbols (withChanges symbols args)) :=
  fun code h => by
    have hpushed := pushArguments_changes hlen ha
    unfold checkedCall at h
    split at h
    next arg hm =>
      rw [Builtin.changes_of_method (by rw [hm]; rfl),
        elementCount_changes (ha arg List.mem_cons_self) code h]
      simp
    next byType arg hm =>
      rw [Builtin.changes_of_method (by rw [hm]; rfl),
        reduction_changes (ha arg List.mem_cons_self) code h]
      simp
    next arg hm =>
      simp only [average, Lowered.bind_ok_iff, Lowered.pure_ok_iff, Prod.exists] at h
      obtain ⟨t, length, -, sum, hsum, rfl⟩ := h
      have hcast : ∀ o ∈ t.element?.bind fun e => Opcode.cast? e.sum .float, o.isQuiet := fun o ho => by
        obtain ⟨e, -, ho⟩ := Option.bind_eq_some_iff.1 ho
        exact Opcode.isQuiet_cast? ho
      rw [Builtin.changes_of_method (by rw [hm]; rfl), changesOf_append, changesOf_append,
        changesOf_append, reduction_changes (ha arg List.mem_cons_self) sum hsum,
        changesOf_option hcast, changesOf_push, changesOf_plain rfl]
      simp
    next arg hm =>
      simp only [absolute, Lowered.bind_ok_iff, Lowered.pure_ok_iff] at h
      obtain ⟨t, -, c, hc, rfl⟩ := h
      have habs : ∀ o ∈ t.num?.bind fun u => if u.isSigned then some (Opcode.abs u.size) else none,
          o.isQuiet := fun o ho => by
        obtain ⟨u, -, ho⟩ := Option.bind_eq_some_iff.1 ho
        split at ho <;> cases ho
        rfl
      rw [Builtin.changes_of_method (by rw [hm]; rfl), changesOf_append,
        (ha arg List.mem_cons_self).push c hc, changesOf_option habs]
      simp
    next arg hm =>
      simp only [highByte, Lowered.bind_ok_iff, Lowered.pure_ok_iff] at h
      obtain ⟨t, -, c, hc, rfl⟩ := h
      rw [Builtin.changes_of_method (by rw [hm]; rfl), changesOf_append,
        (ha arg List.mem_cons_self).pushAs c hc, changesOf_plain rfl]
      simp
    next shift arg hm =>
      rw [shiftInPlace_changes (ha arg List.mem_cons_self) code h]
      simp [Builtin.changes, hm, BuiltinMethod.changes, withChanges]
    next op hm =>
      simp only [Lowered.bind_ok_iff, Lowered.pure_ok_iff] at h
      obtain ⟨c, hc, rfl⟩ := h
      rw [changesOf_append, hpushed c hc, changesOf_singleton, Builtin.changes, hm, withChanges,
        List.flatMap_map]
      rfl
    next args _ _ hopcode _ _ _ _ _ hshift =>
      have hm : b.method.changes symbols (withChanges symbols args) = [] := by
        cases hm : b.method with
        | swap => exact absurd hm hswap
        | shift s =>
          have hreg := Builtin.isRegular_of_mem b hb
          simp only [Builtin.isRegular, hm, Bool.and_eq_true, decide_eq_true_eq] at hreg
          obtain ⟨arg, rfl⟩ := single_of_length hlen hreg.1
          exact absurd rfl (hshift s arg hm)
        | opcode op => exact absurd hm (hopcode op)
        | _ => rfl
      simp only [Lowered.bind_ok_iff, Lowered.pure_ok_iff] at h
      obtain ⟨c, hc, s, hs, rfl⟩ := h
      rw [Builtin.changes_of_method hm, changesOf_append, hpushed c hc, serviceCall_changes s hs,
        List.append_nil]

theorem swapPlaces_changes {b : Builtin} (hm : b.method = .swap) (ha : ∀ a ∈ args, a.Changes symbols) :
    (swapPlaces symbols args).Changes (b.changes symbols (withChanges symbols args)) := fun code h => by
  unfold swapPlaces at h
  split at h
  next first second =>
    have hfirst := ha first (by simp)
    have hsecond := ha second (by simp)
    simp only [Lowered.check_ok_iff, Lowered.bind_ok_iff] at h
    obtain ⟨-, -, t, -, u, -, -, -, h⟩ := h
    split at h
    next p q hp hq =>
      simp only [Lowered.bind_ok_iff, Lowered.pure_ok_iff] at h
      obtain ⟨c, hc, d, hd, v, hv, w, hw, rfl⟩ := h
      simp [hfirst.push c hc, hsecond.push d hd, hfirst.write p hp v hv, hsecond.write q hq w hw,
        Builtin.changes, hm, BuiltinMethod.changes, withChanges, hp, hq]
    next => simp only [Lowered.throw_ok_iff] at h
  next => cases h

theorem builtinCall_changes {b : Builtin} (hb : b ∈ Builtin.all) (ha : ∀ a ∈ args, a.Changes symbols) :
    (builtinCall symbols b args).Changes (b.changes symbols (withChanges symbols args)) :=
  fun code h => by
    unfold builtinCall at h
    split at h
    next hm => exact swapPlaces_changes hm ha code h
    next hm =>
      simp only [Lowered.bind_ok_iff] at h
      obtain ⟨_, hcheck, h⟩ := h
      exact checkedCall_changes hb (checkArguments_ok_iff.1 hcheck).1 hm ha code h

/-! ## Expressions -/

theorem unaryCode_changes {op : UnaryOp} {o : Operand} (ho : o.push.Changes changes) :
    (unaryCode symbols op o).Changes changes := fun code h => by
  simp only [unaryCode, Lowered.bind_ok_iff, Lowered.pure_ok_iff] at h
  obtain ⟨t, -, opcode, hopcode, c, hc, rfl⟩ := h
  rw [changesOf_append, ho c hc, changesOf_option (Opcode.isQuiet_unaryFor hopcode), List.append_nil]

theorem castCode_changes {o : Operand} {t : DataType} (ho : o.push.Changes changes) :
    (castCode symbols o t).Changes changes := fun code h => by
  simp only [castCode, Lowered.bind_ok_iff, Lowered.pure_ok_iff] at h
  obtain ⟨source, -, opcode, hopcode, c, hc, rfl⟩ := h
  rw [changesOf_append, ho c hc, changesOf_option (Opcode.isQuiet_castOpcode hopcode), List.append_nil]

theorem shiftCode_changes {op : Shift} {left : Operand} {right : Expr} (hl : left.push.Changes changes) :
    (shiftCode symbols op left right).Changes changes := fun code h => by
  obtain ⟨t, step, n, c, -, rfl, -, hc, rfl⟩ := shiftCode_ok h
  have hsteps : changesOf (List.replicate n (Opcode.shiftStep op t).plain) = [] :=
    changesOf_of_isQuiet fun i hi => by
      rw [List.eq_of_mem_replicate hi]
      exact Opcode.isQuiet_shiftStep op t
  rw [changesOf_append, hl c hc, hsteps, List.append_nil]

theorem binaryCode_changes (op : BinaryOp) {left right : Operand} {changes' : List Change}
    (hop : ∀ s, op ≠ .shift s) (hl : left.push.Changes changes) (hr : right.push.Changes changes') :
    (binaryCode symbols op left right).Changes (changes ++ changes') := fun code h => by
  obtain ⟨a, b, opcode, lc, lw, rc, rw, -, -, hopcode, hlc, hlw, hrc, hrw, rfl⟩ := binaryCode_ok hop h
  simp only [changesOf_append, hl lc hlc, hr rc hrc, changesOf_option (Opcode.isQuiet_widening hlw),
    changesOf_option (Opcode.isQuiet_widening hrw), changesOf_plain (Opcode.isQuiet_binary? hopcode),
    List.append_nil]

theorem callCode_changes (target : String) (ha : ∀ a ∈ args, a.Changes symbols) :
    (callCode symbols target args).Changes
      (if (Expr.callConstant? symbols target (args.map (·.expr))).isSome then []
        else symbols.changes target (withChanges symbols args)) := fun code h => by
  unfold callCode at h
  split at h
  next v hv =>
    cases h
    rw [hv]
    exact changesOf_push v
  next hv =>
    rw [hv]
    split at h
    next s hs =>
      rw [SymbolTable.changes, hs]
      exact subroutineCall_changes ha code h
    next => cases h
    next hn =>
      split at h
      next b hb =>
        rw [SymbolTable.changes, hn, hb]
        exact builtinCall_changes (List.mem_of_find?_eq_some hb) ha code h
      next => cases h

theorem Lowered.Changes.ok {code : Code} (h : changesOf code = changes) : Lowered.Changes (.ok code) changes :=
  fun _ h' => by
    cases h'
    exact h

theorem Lowered.Changes.error {e : LowerError} : Lowered.Changes (.error e) changes := fun _ h => by cases h

/-- The operands of a call, with the changes that their code stores to. -/
theorem withChanges_operands (es : List Expr) :
    withChanges symbols (Expr.operands symbols es) = Expr.withChanges symbols es := by
  induction es with
  | nil => rfl
  | cons e es ih =>
    rw [Expr.operands, Expr.withChanges, ← ih, withChanges, List.map_cons, Expr.expr_operand]
    rfl

mutual

/-- **The code of an expression stores to the changes that the shape of the expression tells**, and to no
others. -/
theorem Expr.operand_changes : ∀ e : Expr, (e.operand symbols).Changes symbols
  | .number v => .of_push rfl (.ok (changesOf_push v))
  | .register r => ⟨.ok rfl, fun p hp => by
      cases hp
      exact .ok rfl⟩
  | .unary _ e => .of_push rfl (unaryCode_changes (operand_changes e).code)
  | .binary left (.shift _) _ => .of_push rfl (shiftCode_changes (operand_changes left).code)
  | .binary left (.arithmetic op) right =>
    .of_push rfl (binaryCode_changes (.arithmetic op) nofun (operand_changes left).code
      (operand_changes right).code)
  | .binary left (.connective op) right =>
    .of_push rfl (binaryCode_changes (.connective op) nofun (operand_changes left).code
      (operand_changes right).code)
  | .binary left (.comparison op) right =>
    .of_push rfl (binaryCode_changes (.comparison op) nofun (operand_changes left).code
      (operand_changes right).code)
  | .call target args => .of_push rfl <| by
      have h := callCode_changes target (operands_changes args)
      rwa [operands_expr, withChanges_operands] at h
  | .var name => ⟨readVar_changes, fun p hp => by
      cases hp
      exact writeVar_changes⟩
  | .element array index => ⟨readElement_changes (operand_changes index).code, fun p hp => by
      cases hp
      exact writeElement_changes (operand_changes index).code⟩
  | .cast e _ => .of_push rfl (castCode_changes (operand_changes e).code)
  | .memory address => ⟨readMemory_changes (operand_changes address).code, fun p hp => by
      cases hp
      exact writeMemory_changes (operand_changes address).code⟩
  | .addressOf _ => .of_push rfl readAddress_changes
  | .range .. => .of_push rfl .error
  | .structLiteral _ => .of_push rfl .error

theorem Expr.operands_changes : ∀ es : List Expr, ∀ o ∈ operands symbols es, o.Changes symbols
  | [], _, ho => by cases ho
  | e :: es, o, ho => by
    rw [operands, List.mem_cons] at ho
    rcases ho with rfl | ho
    · exact operand_changes e
    · exact operands_changes es o ho

end

end StackCode
