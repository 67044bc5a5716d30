/-
How a place is read and written. Both begin with the code that finds the place: none for a variable, a register
or a fixed address, and otherwise the code of an index or an address. So what is read and then written is found
twice. Where the code that finds it has no calls, it finds one location as long as what it reads is unchanged.
-/
import StackCode.Proofs.Places.Yields

namespace StackCode

/-- The code that finds a place, and the instructions that read and write there. -/
structure Reference where
  inner : Code
  size : Size
  pointing : Pointing
  load : Instruction
  store : Instruction
  loads : load.role? = some (.load size pointing)
  stores : store.role? = some (.store size pointing)

namespace Reference

def slot (name : String) (z : Size) : Reference where
  inner := []
  size := z
  pointing := .fixed (.slot name)
  load := (Opcode.pushVar z).named name
  store := (Opcode.popVar z).named name
  loads := rfl
  stores := Instruction.role?_popVar z name

def fixed (t : NumType) (address : UInt16) : Reference where
  inner := []
  size := t.size
  pointing := .fixed (.memory address.toNat)
  load := (Opcode.pushMem t).addressed address
  store := (Opcode.popMem t.size).addressed address
  loads := Instruction.role?_pushMem t address
  stores := Instruction.role?_popMem t.size address

def element (index : Code) (array : String) (z : Size) : Reference where
  inner := index
  size := z
  pointing := .element array
  load := (Opcode.readIndexed z).named array
  store := (Opcode.writeIndexed z).named array
  loads := rfl
  stores := rfl

def memory (address : Code) : Reference where
  inner := address
  size := .byte
  pointing := .memory
  load := Opcode.pushMemRead.plain
  store := Opcode.popMemWrite.plain
  loads := rfl
  stores := rfl

/-- Leaves what is stored there on the stack. -/
def loadCode (r : Reference) : Code := r.inner ++ [r.load]

/-- Stores what is on the stack. -/
def storeCode (r : Reference) : Code := r.inner ++ [r.store]

/-- The place is found from what is stored alone. -/
inductive IsPure (r : Reference) : Prop where
  | fixed {spot : Spot} (inner : r.inner = []) (pointing : r.pointing = .fixed spot)
  | computed (inner : r.inner.Yields) (pointing : ∀ spot, r.pointing ≠ .fixed spot)

end Reference

/-! ## Places -/

/-- The place is read and written in this way. -/
inductive Place.Refers (symbols : SymbolTable) : Place → Reference → Prop where
  | var {name : String} {info : VariableInfo} {t : NumType} (found : symbols.var? name = some info)
    (type : info.type = .num t) (plain : info.storage = .plain) : Refers symbols (.var name) (.slot name t.size)
  | mapped {name : String} {info : VariableInfo} {t : NumType} {address : UInt16}
    (found : symbols.var? name = some info) (type : info.type = .num t) (memory : info.storage = .memory address) :
    Refers symbols (.var name) (.fixed t address)
  | register (r : Register) : Refers symbols (.register r) (.slot r.name .byte)
  | element {array : String} {index : Expr} {info : VariableInfo} {t : NumType} {code : Code}
    (found : symbols.var? array = some info) (type : info.type.element? = some t)
    (lowered : index.code symbols = .ok code) : Refers symbols (.element array index) (.element code array t.size)
  | fixed {address : Expr} {a : UInt16} (constant : address.fixedAddress? symbols = .ok (some a)) :
    Refers symbols (.memory address) (.fixed (.int .ubyte) a)
  | memory {address : Expr} {code : Code} (computed : address.fixedAddress? symbols = .ok none)
    (lowered : address.code symbols = .ok code) : Refers symbols (.memory address) (.memory code)

section Places

variable {symbols : SymbolTable} {e : Expr} {p : Place} {r : Reference}

/-- A place for a number is found by the same code when it is read and when it is written. -/
theorem Place.exists_refers {t : NumType} {read write : Code} (hp : Place.ofExpr? e = some p)
    (ht : e.type? symbols = some (.num t)) (hread : e.code symbols = .ok read)
    (hwrite : p.write symbols (e.operand symbols).inner = .ok write) :
    ∃ r, p.Refers symbols r ∧ r.size = t.size ∧ read = r.loadCode ∧ write = r.storeCode := by
  cases e with
  | var name =>
    cases hp
    simp only [Expr.code, Expr.operand, readVar, Lowered.bind_ok_iff, SymbolTable.needVar_ok_iff] at hread
    simp only [Place.write, writeVar, Lowered.bind_ok_iff, SymbolTable.needVar_ok_iff] at hwrite
    obtain ⟨info, hinfo, hread⟩ := hread
    obtain ⟨_, hinfo', hwrite⟩ := hwrite
    cases hinfo.symm.trans hinfo'
    have htype : info.type = .num t := by
      simpa only [Expr.type?, hinfo, Option.map_some, Option.some.injEq] using ht
    cases hstorage : info.storage with
    | plain =>
      rw [hstorage, htype] at hread hwrite
      cases hread
      cases hwrite
      exact ⟨_, .var hinfo htype hstorage, rfl, rfl, rfl⟩
    | memory address =>
      rw [hstorage, htype] at hread hwrite
      cases hread
      cases hwrite
      exact ⟨_, .mapped hinfo htype hstorage, rfl, rfl, rfl⟩
    | const =>
      rw [hstorage] at hread
      cases hread
  | register r =>
    cases hp
    cases hread
    cases hwrite
    cases ht
    exact ⟨_, .register r, rfl, rfl, rfl⟩
  | element array index =>
    cases hp
    simp only [Expr.code, Expr.operand, readElement, Lowered.bind_ok_iff, SymbolTable.needVar_ok_iff,
      Lowered.pure_ok_iff, Opcode.readIndexedFor, orInvalid_ok_iff, Option.map_eq_some_iff] at hread
    simp only [Place.write, Expr.operand, Lowered.bind_ok_iff, SymbolTable.needVar_ok_iff, Lowered.pure_ok_iff,
      Opcode.writeIndexedFor, orInvalid_ok_iff, Option.map_eq_some_iff] at hwrite
    obtain ⟨info, hinfo, _, ⟨u, hu, rfl⟩, code, hcode, rfl⟩ := hread
    obtain ⟨_, hinfo', _, ⟨_, hu', rfl⟩, _, hcode', rfl⟩ := hwrite
    cases hinfo.symm.trans hinfo'
    cases hu.symm.trans hu'
    cases hcode.symm.trans hcode'
    have htype : t = u := by
      simpa only [Expr.type?, SymbolTable.elementType?_eq hinfo hu, Option.some.injEq, DataType.num.injEq,
        eq_comm] using ht
    exact ⟨_, .element hinfo hu hcode, htype ▸ rfl, rfl, rfl⟩
  | memory address =>
    cases hp
    cases ht
    simp only [Expr.code, Expr.operand, readMemory, Lowered.bind_ok_iff] at hread
    simp only [Place.write, Expr.operand, Lowered.bind_ok_iff] at hwrite
    obtain ⟨fixed, hfixed, hread⟩ := hread
    obtain ⟨_, hfixed', hwrite⟩ := hwrite
    cases hfixed.symm.trans hfixed'
    cases fixed with
    | some a =>
      cases hread
      cases hwrite
      exact ⟨_, .fixed hfixed, rfl, rfl, rfl⟩
    | none =>
      simp only [Lowered.bind_ok_iff, Lowered.pure_ok_iff] at hread hwrite
      obtain ⟨code, hcode, rfl⟩ := hread
      obtain ⟨_, hcode', rfl⟩ := hwrite
      cases hcode.symm.trans hcode'
      exact ⟨_, .memory hfixed hcode, rfl, rfl, rfl⟩
  | _ => cases hp

/-- Without calls the place is found from what is stored. -/
theorem Place.Refers.isPure (h : p.Refers symbols r) (hp : Place.ofExpr? e = some p)
    (hfree : e.IsCallFree symbols) : r.IsPure := by
  have hinner {x : Expr} {code : Code} (hsub : ∀ y ∈ x.withInner, y ∈ e.withInner)
      (hcode : x.code symbols = .ok code) : code.Yields :=
    Expr.code_yields (hfree.of_subset hsub) hcode
  cases h with
  | var | mapped | register | fixed => exact .fixed rfl rfl
  | element _ _ lowered =>
    cases e <;> cases hp
    exact .computed (hinner (fun y hy => List.mem_cons_of_mem _ hy) lowered) nofun
  | memory _ lowered =>
    cases e <;> cases hp
    exact .computed (hinner (fun y hy => List.mem_cons_of_mem _ hy) lowered) nofun

end Places

/-! ## Finding -/

namespace Machine

variable {W R : Type} (m : Machine W R)

/-- Finds the place: its location, and the state behind the code for the index or the address. -/
def find? (r : Reference) (s : MachineState W R) : Option (Location × MachineState W R) :=
  (m.run r.inner s).bind fun t =>
    (r.pointing.find? t.stack).map fun (spot, stack) => (⟨r.size, spot⟩, ⟨stack, t.stored, t.rest⟩)

/-- Puts what is stored at a location on the stack. -/
def load (r : Reference) (l : Location) (s : MachineState W R) : MachineState W R :=
  ⟨m.get s.stored l :: s.stack, s.stored, m.note r.load (m.get s.stored l :: s.stack) s.rest⟩

/-- The location of a place that is found from what is stored. -/
def locate? (w : W) (r : Reference) : Option Location :=
  (m.eval? w r.inner []).bind fun stack => (r.pointing.find? stack).map fun (spot, _) => ⟨r.size, spot⟩

variable {m} {r : Reference} {s t : MachineState W R} {l : Location} {w w' : W}

theorem run_loadCode : m.run r.loadCode s = (m.find? r s).map fun (l, t) => m.load r l t := by
  rw [Reference.loadCode, run_append, find?, Option.map_bind]
  refine Option.bind_congr fun t _ => ?_
  rw [run_singleton, step?, r.loads]
  simp only [value?, Option.map_map, Function.comp_apply]
  rfl

theorem run_storeCode : m.run r.storeCode s = (m.find? r s).bind fun (l, t) => m.store? r.store l t := by
  rw [Reference.storeCode, run_append, find?, Option.bind_assoc]
  refine Option.bind_congr fun t _ => ?_
  rw [run_singleton, step?, r.stores, Option.bind_map]
  rfl

theorem size_of_locate? (h : m.locate? w r = some l) : l.size = r.size := by
  obtain ⟨u, -, h⟩ := Option.bind_eq_some_iff.1 h
  obtain ⟨found, -, heq⟩ := Option.map_eq_some_iff.1 h
  cases heq
  rfl

/-- The place is found where it was, if what is read to find it is unchanged. -/
theorem locate?_congr (h : ∀ i ∈ r.inner, ∀ l, i.Reads l → m.get w l = m.get w' l) :
    m.locate? w r = m.locate? w' r := by
  rw [locate?, locate?, eval?_congr h]

end Machine

namespace Reference.IsPure

variable {W R : Type} {m : Machine W R} {r : Reference} {s t : MachineState W R} {l : Location}

/-- Nothing is changed to find the place. -/
theorem find (h : r.IsPure) (s : MachineState W R) :
    (m.find? r s).map (fun (l, t) => (l, t.stack, t.stored)) =
      (m.locate? s.stored r).map fun l => (l, s.stack, s.stored) := by
  cases h with
  | fixed inner pointing =>
    rw [Machine.find?, Machine.locate?, inner, pointing]
    rfl
  | computed inner pointing =>
    have hrun := inner.run (m := m) s
    rw [Machine.find?, Machine.locate?, inner.eval m]
    cases hcell : m.cell? s.stored r.inner with
    | none =>
      rw [hcell, Option.map_none, Option.map_eq_none_iff] at hrun
      rw [hrun]
      rfl
    | some c =>
      rw [hcell] at hrun
      obtain ⟨⟨stack, stored, rest⟩, ht, heq⟩ := Option.map_eq_some_iff.1 hrun
      cases heq
      rw [ht]
      cases hpointing : r.pointing with
      | fixed spot => exact absurd hpointing (pointing spot)
      | element array => cases c <;> rfl
      | memory => cases c <;> rfl

theorem of_find (h : r.IsPure) (hfind : m.find? r s = some (l, t)) :
    m.locate? s.stored r = some l ∧ t.stack = s.stack ∧ t.stored = s.stored := by
  have hpure := h.find (m := m) s
  rw [hfind] at hpure
  obtain ⟨l', hl', heq⟩ := Option.map_eq_some_iff.1 hpure.symm
  simp only [Prod.mk.injEq] at heq
  obtain ⟨rfl, hstack, hstored⟩ := heq
  exact ⟨hl', hstack.symm, hstored.symm⟩

theorem exists_find (h : r.IsPure) (hl : m.locate? s.stored r = some l) :
    ∃ rest, m.find? r s = some (l, ⟨s.stack, s.stored, rest⟩) := by
  have hpure := h.find (m := m) s
  rw [hl] at hpure
  obtain ⟨⟨l', stack, stored, rest⟩, hfind, heq⟩ := Option.map_eq_some_iff.1 hpure
  cases heq
  exact ⟨rest, hfind⟩

theorem leaves_load (h : r.IsPure) {stack stack' : List Cell} {w w' : W} {rest : R} :
    m.Leaves r.loadCode ⟨stack, w, rest⟩ stack' w' ↔
      ∃ l, m.locate? w r = some l ∧ stack' = m.get w l :: stack ∧ w' = w := by
  unfold Machine.Leaves
  rw [Machine.run_loadCode]
  constructor
  · rintro ⟨rest', hrun⟩
    obtain ⟨⟨l, t⟩, hfind, heq⟩ := Option.map_eq_some_iff.1 hrun
    obtain ⟨hl, rfl, rfl⟩ := h.of_find hfind
    cases heq
    exact ⟨l, hl, rfl, rfl⟩
  · rintro ⟨l, hl, rfl, rfl⟩
    obtain ⟨rest', hfind⟩ := h.exists_find (s := ⟨stack, w', rest⟩) hl
    exact ⟨_, by rw [hfind]; rfl⟩

theorem leaves_store (h : r.IsPure) {stack stack' : List Cell} {w w' : W} {rest : R} :
    m.Leaves r.storeCode ⟨stack, w, rest⟩ stack' w' ↔
      ∃ l c, m.locate? w r = some l ∧ stack = c :: stack' ∧ c.size = l.size ∧ w' = m.put w l c := by
  unfold Machine.Leaves
  rw [Machine.run_storeCode]
  constructor
  · rintro ⟨rest', hrun⟩
    obtain ⟨⟨l, t⟩, hfind, hstore⟩ := Option.bind_eq_some_iff.1 hrun
    obtain ⟨hl, rfl, rfl⟩ := h.of_find hfind
    obtain ⟨c, _, hstack, hsize, heq⟩ := Machine.store?_eq_some_iff.1 hstore
    cases heq
    exact ⟨l, c, hl, hstack, hsize, rfl⟩
  · rintro ⟨l, c, hl, rfl, hsize, rfl⟩
    obtain ⟨rest', hfind⟩ := h.exists_find (s := ⟨c :: stack', w, rest⟩) hl
    refine ⟨m.note r.store stack' rest', ?_⟩
    rw [hfind, Option.bind_some, Machine.store?_eq_some_iff]
    exact ⟨c, stack', rfl, hsize, rfl⟩

end Reference.IsPure

/-- An index, an array, and a subroutine that can be called for an index. -/
def indexedSymbols : SymbolTable :=
  .ofDeclarations
    [.var ⟨"main.i", .ubyte, .plain, none, [], {}⟩, .var ⟨"main.a", .array (.int .ubyte), .plain, some 4, [], {}⟩,
      .subroutine { name := "main.next", parameters := [], returnTypes := [.ubyte], machine := none } true]

end StackCode
