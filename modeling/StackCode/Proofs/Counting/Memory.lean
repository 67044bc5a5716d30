/-
The machine with memory. Elements of arrays and strings and values at fixed addresses lie there, and floats
are moved as they are. A loop over elements reads one of them, converts it, and stores it where the loop
variable lives.
-/
import StackCode.Proofs.Counting.Machine
import StackCode.Proofs.Storage.Named

namespace StackCode

/-- What lies outside of the variables that have names of their own. What is written at an address is found
there. -/
structure Memory (W : Type) where
  element : W → String → Nat → Value
  read : W → Int → Cell
  write : W → Int → Cell → W
  read_write : ∀ w address c, read (write w address c) address = c

/-- An element is read by an index of either size, which is taken as unsigned. -/
def Memory.act? {W : Type} (m : Memory W) (others : Instruction → Store W → Option (Store W))
    (i : Instruction) (s : Store W) : Option (Store W) :=
  match i.opcode, i.label, i.arg, s.stack with
  | .readIndexed z, some name, _, .int _ k :: stack =>
    let v := m.element s.rest name k.toNat
    if v.type.size = z then some ({ s with stack }.push v.cell) else none
  | .cast (.int t) .float _, _, _, c :: stack =>
    (c.bits? t.size).map fun b => { s with stack }.push (.float (Float.ofInt (t.read b)))
  | .popVar .float, some name, _, .float x :: stack => some ({ s with stack }.set name (.float x))
  | .popMem _, _, some v, c :: stack =>
    v.int?.map fun address => { s with stack, rest := m.write s.rest address c }
  | _, _, _, _ => others i s

/-- What an instruction does not name, it leaves alone. -/
def LeavesAlone {W : Type} (act : Instruction → Store W → Option (Store W)) (name : String) : Prop :=
  ∀ i s s', i.name? ≠ some name → act i s = some s' → s'.slots name = s.slots name

section Alone

variable {W : Type} {m : Memory W} {others : Instruction → Store W → Option (Store W)} {name : String}

/-- What an instruction writes by its label is another variable. -/
theorem set_alone {i : Instruction} {s : Store W} {target : String} {c : Cell}
    (hname : i.name? ≠ some name) (hop : ¬ Part.IsVerbatim i.opcode) (hlabel : i.label = some target) :
    (s.set target c).slots name = s.slots name :=
  Function.update_of_ne (fun heq => hname (by rw [Instruction.name?_eq hop, hlabel, heq])) _ _

theorem change_alone {i : Instruction} {s s' : Store W} {target : String} {z : IntSize}
    {f : BitVec z.bits → BitVec z.bits} (hname : i.name? ≠ some name) (hop : ¬ Part.IsVerbatim i.opcode)
    (hlabel : i.label = some target) (h : s.change target z f = some s') : s'.slots name = s.slots name := by
  obtain ⟨b, -, rfl⟩ := Option.map_eq_some_iff.1 h
  exact set_alone (s := s) hname hop hlabel

/-- The variable is left alone by what is done with an integer from the stack. -/
theorem pop_alone {s s' : Store W} {z : IntSize} {f : BitVec z.bits → Store W → Option (Store W)}
    (h : s.pop z f = some s')
    (hf : ∀ b t, t.slots = s.slots → f b t = some s' → s'.slots name = s.slots name) :
    s'.slots name = s.slots name := by
  unfold Store.pop at h
  split at h
  · obtain ⟨b, -, hb⟩ := Option.bind_eq_some_iff.1 h
    refine hf b _ ?_ hb
    rfl
  · cases h

theorem Memory.leavesAlone (h : LeavesAlone others name) : LeavesAlone (m.act? others) name := by
  intro i s s' hname hact
  unfold Memory.act? at hact
  split at hact
  case h_1 =>
    obtain ⟨-, hact⟩ := Option.ite_none_right_eq_some.1 hact
    cases hact
    rfl
  case h_2 =>
    obtain ⟨b, -, rfl⟩ := Option.map_eq_some_iff.1 hact
    rfl
  case h_3 hop hlabel _ =>
    cases hact
    exact set_alone (s := { s with stack := _ }) hname (by simp [Part.IsVerbatim, hop]) hlabel
  case h_4 =>
    obtain ⟨a, -, rfl⟩ := Option.map_eq_some_iff.1 hact
    rfl
  case h_5 => exact h i s s' hname hact

theorem Store.leavesAlone (h : LeavesAlone others name) :
    LeavesAlone (fun i s => s.act? others i) name := by
  intro i s s' hname hact
  dsimp only at hact
  unfold Store.act? at hact
  split at hact
  case h_1 =>
    cases hact
    rfl
  case h_2 =>
    obtain ⟨-, hact⟩ := Option.ite_none_right_eq_some.1 hact
    cases hact
    rfl
  case h_3 =>
    obtain ⟨b, -, rfl⟩ := Option.map_eq_some_iff.1 hact
    rfl
  case h_4 hop hlabel =>
    refine pop_alone hact fun b t ht hb => ?_
    cases hb
    rw [set_alone hname (by simp [Part.IsVerbatim, hop]) hlabel, ht]
  case h_5 hop hlabel => exact change_alone hname (by simp [Part.IsVerbatim, hop]) hlabel hact
  case h_6 hop hlabel => exact change_alone hname (by simp [Part.IsVerbatim, hop]) hlabel hact
  case h_7 =>
    refine pop_alone hact fun b t ht hb => ?_
    obtain ⟨y, -, rfl⟩ := Option.map_eq_some_iff.1 hb
    exact congrFun ht name
  case h_8 =>
    split at hact
    · cases hact
      rfl
    · exact h i s s' hname hact

end Alone

/-! ## Elements -/

namespace Memory

variable {W : Type} {m : Memory W} {others : Instruction → Store W → Option (Store W)} {s : Store W}

/-- The elements of this name are values of this type. -/
def HasElements (m : Memory W) (name : String) (t : NumType) : Prop := ∀ w k, (m.element w name k).type = t

/-- An index of any size finds its element. -/
theorem run_read {name : String} {e : NumType} {z : IntSize} {k : Nat} (he : m.HasElements name e)
    (hk : k < 2 ^ z.bits) :
    (s.push (.int z (.ofInt _ k))).run (m.act? others) [(Opcode.readIndexed e.size).named name] =
      some (s.push (m.element s.rest name k).cell) := by
  have hindex : (BitVec.ofInt z.bits k).toNat = k := by
    rw [BitVec.ofInt_natCast, BitVec.toNat_ofNat, Nat.mod_eq_of_lt hk]
  rw [Store.run_singleton]
  simp only [Store.act?, Opcode.act?, act?, Opcode.named, Store.push, hindex, he s.rest k, if_true]

variable (m others s) in
/-- What is brought to another type unasked is cast to it. -/
theorem run_convert (v : Value) {t : NumType} {op : Option Opcode}
    (h : (DataType.num v.type).widening (.num t) = .ok op) :
    ∃ (w : Value) (s' : Store W), v.cast (.num t) = .ok w ∧ w.type = t ∧ s'.slots = s.slots ∧
      (s.push v.cell).run (m.act? others) (op.map Opcode.plain).toList = some (s'.push w.cell) := by
  cases v with
  | int e n hn =>
    cases t with
    | int u =>
      obtain ⟨s', hslots, -, hrun⟩ := Store.run_widening (m.act? others) s n h
      rw [IntType.wrap_eq_self hn] at hrun
      refine ⟨.wrapped u n, s', rfl, rfl, hslots, ?_⟩
      rw [Value.cell_wrapped]
      exact hrun
    | float =>
      have hwiden : (DataType.int e).widening .float = .ok (some (.cast (.int e) .float (by simp))) := by
        cases e <;> rfl
      cases hwiden.symm.trans h
      refine ⟨.float (Float.ofInt n), s, rfl, rfl, rfl, ?_⟩
      rw [Option.map_some, Option.toList_some, Store.run_singleton]
      simp only [Store.act?, Opcode.act?, act?, Opcode.plain, Store.push, Value.cell, Cell.bits?_int,
        IntType.read_of_holds hn, Option.map_some]
  | float x =>
    cases t with
    | int u => cases u <;> cases h
    | float =>
      cases h
      exact ⟨.float x, s, rfl, rfl, rfl, rfl⟩

end Memory

theorem DataType.widening_num {t : NumType} {u : DataType} {op : Option Opcode}
    (h : (DataType.num t).widening u = .ok op) : ∃ t', u = .num t' := by
  unfold widening at h
  split at h
  next heq => exact ⟨t, heq.symm⟩
  next =>
    simp only [Lowered.bind_ok_iff] at h
    obtain ⟨⟨a, b⟩, hab, -⟩ := h
    exact ⟨b, (Runs.bothNumeric_ok hab).2⟩

/-- A conversion is neither a jump nor a call. -/
theorem DataType.widening_effects {t u : DataType} {op : Option Opcode} (h : t.widening u = .ok op) :
    Code.All (fun i => i.opcode.effect?.isSome) (op.map Opcode.plain).toList := by
  unfold widening at h
  split at h
  · cases h
    exact .nil
  · simp only [Lowered.bind_ok_iff] at h
    obtain ⟨⟨t, u⟩, -, h⟩ := h
    split at h
    · simp only [Lowered.throw_ok_iff] at h
    · split at h <;> cases h
      · exact .nil
      · unfold Opcode.cast?
        split
        · exact .single rfl
        · exact .nil

/-! ## Where a loop variable lives -/

/-- A variable or a register of this name, or a place in memory. -/
inductive Home where
  | slot (name : String)
  | memory (address : UInt16)

namespace Home

/-- What is there. -/
def cell {W : Type} (m : Memory W) (s : Store W) : Home → Cell
  | slot name => s.slots name
  | memory address => m.read s.rest address.toNat

/-- The instruction that stores a value there. -/
def store (t : NumType) : Home → Instruction
  | slot name => (Opcode.popVar t.size).named name
  | memory address => (Opcode.popMem t.size).addressed address

theorem store_effect (home : Home) (t : NumType) : (home.store t).opcode.effect?.isSome := by
  cases home <;> rfl

variable {W : Type} (m : Memory W) (others : Instruction → Store W → Option (Store W)) (s : Store W)

/-- What is stored is there then, and other variables are as they were. -/
theorem run_store (home : Home) (v : Value) :
    ∃ s', (s.push v.cell).run (m.act? others) [home.store v.type] = some s' ∧ home.cell m s' = v.cell ∧
      ∀ name, home ≠ .slot name → s'.slots name = s.slots name := by
  cases home with
  | slot name =>
    refine ⟨s.set name v.cell, ?_, Function.update_self .., fun name' hne => ?_⟩
    · cases v with
      | int t n hn => exact Store.run_popVar
      | float x =>
        rw [Store.run_singleton]
        rfl
    · exact Function.update_of_ne (fun heq => hne (congrArg slot heq.symm)) _ _
  | memory address =>
    have haddress : (Value.ofAddress address).int? = some (address.toNat : Int) := by
      have hlt := address.toNat_lt
      have hholds : IntType.uword.Holds address.toNat := by
        change (0 : Int) ≤ _ ∧ _ ≤ (65535 : Int)
        omega
      rw [Value.ofAddress, Value.wrapped, Value.int?, IntType.wrap_eq_self hholds]
    refine ⟨{ s with rest := m.write s.rest address.toNat v.cell }, ?_, m.read_write .., fun _ _ => rfl⟩
    rw [Store.run_singleton]
    simp only [store, Store.act?, Opcode.act?, Memory.act?, Opcode.addressed, Opcode.given, Store.push,
      haddress, Option.map_some]

end Home

/-- Where the counter lives, if it is somewhere. -/
def Counter.home? (symbols : SymbolTable) : Counter → Option Home
  | register r => some (.slot r.name)
  | var name =>
    (symbols.var? name).bind fun info =>
      match info.storage with
      | .plain => some (.slot name)
      | .memory address => some (.memory address)
      | .const => none

/-- A counter is stored where it lives. -/
theorem Counter.write_ok {symbols : SymbolTable} {register : Option Register}
    {variableName : Option String} {counter : Counter} {t : NumType} {inner : Lowered Code} {code : Code}
    (hfind : Counter.find symbols register variableName = .ok (counter, .num t))
    (h : counter.place.write symbols inner = .ok code) :
    ∃ home, counter.home? symbols = some home ∧ code = [home.store t] := by
  obtain ⟨r, -, rfl, ht⟩ | ⟨name, info, -, -, rfl, hinfo, htype⟩ := Counter.find_cases hfind
  · cases ht
    cases h
    exact ⟨_, rfl, rfl⟩
  · simp only [place, Place.write, writeVar, Lowered.bind_ok_iff, SymbolTable.needVar_ok_iff] at h
    obtain ⟨info', hinfo', h⟩ := h
    cases hinfo.symm.trans hinfo'
    rw [htype] at h
    split at h
    next hplain =>
      cases h
      exact ⟨.slot name, by simp only [home?, hinfo, Option.bind_some, hplain], rfl⟩
    next address hmemory =>
      cases h
      exact ⟨.memory address, by simp only [home?, hinfo, Option.bind_some, hmemory], rfl⟩
    next => cases h

end StackCode
