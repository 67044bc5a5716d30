/-
The machine that moves values between the stack and where they are stored: in variables and registers, in the
elements of arrays, and in memory. What overlaps is up to the machine, and so is what an operator computes. All
that is known of an operator is that it works on its operands alone. Of all other instructions, and of calls
before all, nothing is known: a call can change what is stored, and two calls of one subroutine need not have
the same result.
-/
import StackCode.Proofs.Arithmetic.Machine

namespace StackCode

/-! ## Locations -/

/-- Where a value is stored: under the name of a variable or a register, in an element of an array, or at an
address. -/
inductive Spot where
  | slot (name : String)
  | element (array : String) (index : Nat)
  | memory (address : Nat)
deriving DecidableEq

/-- A spot with the size of the value that is stored there. -/
structure Location where
  size : Size
  spot : Spot
deriving DecidableEq

def Cell.size : Cell → Size
  | int s _ => .int s
  | float _ => .float

/-- How an instruction tells the spot that it is about: it is fixed, or the stack has the index of an element or
an address. -/
inductive Pointing where
  | fixed (spot : Spot)
  | element (array : String)
  | memory
deriving DecidableEq

/-- The spot, and the stack without the index or the address. -/
def Pointing.find? : Pointing → List Cell → Option (Spot × List Cell)
  | fixed spot, stack => some (spot, stack)
  | element array, .int _ k :: stack => some (.element array k.toNat, stack)
  | memory, .int _ a :: stack => some (.memory a.toNat, stack)
  | _, _ => none

/-- The instruction can be about this spot. -/
def Pointing.Covers : Pointing → Spot → Prop
  | fixed spot, spot' => spot' = spot
  | element array, spot' => ∃ k, spot' = .element array k
  | memory, spot' => ∃ a, spot' = .memory a

theorem Pointing.covers_of_find? {p : Pointing} {stack stack' : List Cell} {spot : Spot}
    (h : p.find? stack = some (spot, stack')) : p.Covers spot := by
  unfold find? at h
  split at h <;> cases h
  · exact rfl
  · exact ⟨_, rfl⟩
  · exact ⟨_, rfl⟩

/-! ## Instructions -/

/-- What an instruction does, as far as it is known. -/
inductive Role where
  | constant (v : Value)
  /-- The address of what lives on the heap. -/
  | address (name : String)
  | load (size : Size) (p : Pointing)
  | store (size : Size) (p : Pointing)
  /-- One value in place of another. -/
  | turn (op : Opcode)
  /-- One value in place of two others. -/
  | merge (op : Opcode)
  /-- A shift or a rotation of what goes back to where it came from. -/
  | shift (op : Opcode)

/-- What operators and conversions do. -/
def Opcode.role? (op : Opcode) : Option Role :=
  match op with
  | neg _ | abs _ | invert _ | boolNot _ | msb | shiftedLeft _ | shiftedRight _ | cast .. => some (.turn op)
  | add _ | sub _ | mul _ | intDiv _ | floatDiv | remainder _ | pow | bitAnd _ | bitOr _ | bitXor _
  | boolAnd _ | boolOr _ | boolXor _ | mkword | less _ | greater _ | lessEq _ | greaterEq _ | equal _
  | notEqual _ => some (.merge op)
  | shiftLeft _ | shiftRight _ | rotateLeft _ | rotateRight _ | rotateLeftCarry _ | rotateRightCarry _ =>
    some (.shift op)
  | _ => none

def Instruction.role? (i : Instruction) : Option Role :=
  match i.opcode, i.label, i.arg with
  | .push _, _, some v => some (.constant v)
  | .pushAddress, some name, _ => some (.address name)
  | .pushVar z, some name, _ => some (.load z (.fixed (.slot name)))
  | .pushMem t, _, some v => v.address?.map fun a => .load t.size (.fixed (.memory a.toNat))
  | .pushMemRead, _, _ => some (.load .byte .memory)
  | .readIndexed z, some name, _ => some (.load z (.element name))
  | .popVar z, some name, _ => some (.store z (.fixed (.slot name)))
  | .popMem z, _, some v => v.address?.map fun a => .store z (.fixed (.memory a.toNat))
  | .popMemWrite, _, _ => some (.store .byte .memory)
  | .writeIndexed z, some name, _ => some (.store z (.element name))
  | op, _, _ => op.role?

/-- The instruction can read what is stored there. -/
def Instruction.Reads (i : Instruction) (l : Location) : Prop :=
  ∃ p : Pointing, i.role? = some (.load l.size p) ∧ p.Covers l.spot

theorem Value.address?_ofAddress (a : UInt16) : (Value.ofAddress a).address? = some a := by
  have hlt := a.toNat_lt
  have hholds : IntType.uword.Holds a.toNat := by
    change (0 : Int) ≤ _ ∧ _ ≤ (65535 : Int)
    omega
  have hn : (0 : Int) ≤ a.toNat ∧ (a.toNat : Int) ≤ 65535 := hholds
  simp only [ofAddress, wrapped, IntType.wrap_eq_self hholds, address?, int?, Option.bind_some, if_pos hn,
    Int.toNat_natCast, UInt16.ofNat_toNat]

/-- The access at a fixed address. -/
theorem Instruction.role?_pushMem (t : NumType) (address : UInt16) :
    ((Opcode.pushMem t).addressed address).role? = some (.load t.size (.fixed (.memory address.toNat))) := by
  simp only [role?, Opcode.addressed, Opcode.given, Value.address?_ofAddress, Option.map_some]

theorem Instruction.role?_popMem (z : Size) (address : UInt16) :
    ((Opcode.popMem z).addressed address).role? = some (.store z (.fixed (.memory address.toNat))) := by
  simp only [role?, Opcode.addressed, Opcode.given, Value.address?_ofAddress, Option.map_some]

theorem Instruction.role?_popVar (z : Size) (name : String) :
    ((Opcode.popVar z).named name).role? = some (.store z (.fixed (.slot name))) := rfl

/-! ## States -/

/-- What is on the stack, what is stored, and everything else. -/
structure MachineState (W R : Type) where
  stack : List Cell
  stored : W
  rest : R

/-- A machine with its laws: what is stored at a location is found there until something is stored at a location
that is not apart from it. -/
structure Machine (W R : Type) where
  get : W → Location → Cell
  put : W → Location → Cell → W
  Apart : Location → Location → Prop
  size_get : ∀ w l, (get w l).size = l.size
  get_put : ∀ w l c, c.size = l.size → get (put w l c) l = c
  get_put_apart : ∀ w l l' c, Apart l l' → get (put w l c) l' = get w l'
  address : String → Cell
  /-- The result of an operator or a conversion. -/
  compute : Opcode → List Cell → Option Cell
  /-- The result of a shift in place, which can go through the carry flag. -/
  shift : Opcode → R → Cell → Option (Cell × R)
  size_shift : ∀ op r c c' r', shift op r c = some (c', r') → c'.size = c.size
  /-- What the flags tell behind an instruction, of what it has left on the stack. -/
  note : Instruction → List Cell → R → R
  /-- Calls, and everything else. -/
  others : Instruction → MachineState W R → Option (MachineState W R)

namespace Machine

variable {W R : Type} (m : Machine W R)

/-- The stack behind what reads at most. -/
def value? (w : W) : Role → List Cell → Option (List Cell)
  | .constant v, stack => some (v.cell :: stack)
  | .address name, stack => some (m.address name :: stack)
  | .load z p, stack => (p.find? stack).map fun (spot, stack) => m.get w ⟨z, spot⟩ :: stack
  | .turn op, x :: stack => (m.compute op [x]).map (· :: stack)
  | .merge op, y :: x :: stack => (m.compute op [x, y]).map (· :: stack)
  | _, _ => none

/-- Takes the value off the stack and stores it. -/
def store? (i : Instruction) (l : Location) (s : MachineState W R) : Option (MachineState W R) :=
  match s.stack with
  | c :: stack =>
    if c.size = l.size then some ⟨stack, m.put s.stored l c, m.note i stack s.rest⟩ else none
  | [] => none

def shift? (op : Opcode) (s : MachineState W R) : Option (MachineState W R) :=
  match s.stack with
  | c :: stack => (m.shift op s.rest c).map fun (c, rest) => ⟨c :: stack, s.stored, rest⟩
  | [] => none

def step? (i : Instruction) (s : MachineState W R) : Option (MachineState W R) :=
  match i.role? with
  | none => m.others i s
  | some (.store z p) => (p.find? s.stack).bind fun (spot, stack) => m.store? i ⟨z, spot⟩ { s with stack }
  | some (.shift op) => m.shift? op s
  | some role => (m.value? s.stored role s.stack).map fun stack => ⟨stack, s.stored, m.note i stack s.rest⟩

def run (code : Code) (s : MachineState W R) : Option (MachineState W R) :=
  code.foldlM (fun s i => m.step? i s) s

/-- The code ends with this stack and with this stored. -/
def Leaves (code : Code) (s : MachineState W R) (stack : List Cell) (w : W) : Prop :=
  ∃ rest, m.run code s = some ⟨stack, w, rest⟩

variable {m} {i : Instruction} {code code' : Code} {s s' : MachineState W R} {l : Location} {w : W}

theorem run_cons : m.run (i :: code) s = (m.step? i s).bind (m.run code) := rfl

theorem run_append : m.run (code ++ code') s = (m.run code s).bind (m.run code') :=
  List.foldlM_append

theorem run_singleton : m.run [i] s = m.step? i s := by
  rw [run_cons]
  exact Option.bind_fun_some _

/-- The end of the code can depend on the stack and on what is stored alone. -/
theorem leaves_append {stack : List Cell} {P : List Cell → W → Prop}
    (h : ∀ stack' w' rest, m.Leaves code' ⟨stack', w', rest⟩ stack w ↔ P stack' w') :
    m.Leaves (code ++ code') s stack w ↔ ∃ stack' w', m.Leaves code s stack' w' ∧ P stack' w' := by
  constructor
  · rintro ⟨rest, hrun⟩
    rw [run_append] at hrun
    obtain ⟨t, ht, hrun⟩ := Option.bind_eq_some_iff.1 hrun
    exact ⟨_, _, ⟨_, ht⟩, (h ..).1 ⟨rest, hrun⟩⟩
  · rintro ⟨stack', w', ⟨rest, hrun⟩, hend⟩
    obtain ⟨rest', hrun'⟩ := (h _ _ rest).2 hend
    exact ⟨rest', by rw [run_append, hrun]; exact hrun'⟩

/-! ## Storing -/

/-- What stores at a fixed spot. -/
theorem run_store (h : i.role? = some (.store l.size (.fixed l.spot))) : m.run [i] s = m.store? i l s := by
  rw [run_singleton, step?, h]
  rfl

theorem store?_eq_some_iff : m.store? i l s = some s' ↔ ∃ c stack, s.stack = c :: stack ∧ c.size = l.size ∧
    s' = ⟨stack, m.put s.stored l c, m.note i stack s.rest⟩ := by
  unfold store?
  cases hstack : s.stack with
  | nil => simp
  | cons c stack =>
    constructor
    · intro h
      obtain ⟨hsize, heq⟩ := Option.ite_none_right_eq_some.1 h
      exact ⟨c, stack, rfl, hsize, (Option.some.inj heq).symm⟩
    · rintro ⟨_, _, heq, hsize, rfl⟩
      cases heq
      exact if_pos hsize

/-- The two locations have changed what is stored there, and what is apart from both is as it was. -/
structure Exchanged (m : Machine W R) (l l' : Location) (w w' : W) : Prop where
  left : m.get w' l = m.get w l'
  right : m.get w' l' = m.get w l
  others : ∀ k, m.Apart l k → m.Apart l' k → m.get w' k = m.get w k

/-- What is stored at both is exchanged, at locations that are apart or the same. -/
theorem exchanged_put {l l' : Location} {w : W} (hsize : l.size = l'.size) (h : l' = l ∨ m.Apart l' l) :
    m.Exchanged l l' w (m.put (m.put w l (m.get w l')) l' (m.get w l)) := by
  have hright : (m.get w l).size = l'.size := (m.size_get w l).trans hsize
  have hleft : (m.get w l').size = l.size := (m.size_get w l').trans hsize.symm
  refine ⟨?_, m.get_put _ _ _ hright, fun k hk hk' => ?_⟩
  · rcases h with rfl | h
    · exact m.get_put _ _ _ hright
    · rw [m.get_put_apart _ _ _ _ h, m.get_put _ _ _ hleft]
  · rw [m.get_put_apart _ _ _ _ hk', m.get_put_apart _ _ _ _ hk]

end Machine

/-! ## A sample -/

/-- A value for each location. -/
def Contents : Type := { w : Location → Cell // ∀ l, (w l).size = l.size }

namespace Contents

/-- Integers, and zero for floats. -/
def ofNats (f : Location → Nat) : Contents where
  val l :=
    match l.size with
    | .int z => .int z (.ofNat _ (f l))
    | .float => .float 0
  property l := by
    dsimp only
    split <;> simp [Cell.size, *]

def put (w : Contents) (l : Location) (c : Cell) : Contents where
  val k := if k = l ∧ c.size = l.size then c else w.1 k
  property k := by
    dsimp only
    split
    next h => rw [h.1, h.2]
    next => exact w.2 k

end Contents

/-- Nothing overlaps, and each call of a subroutine leaves the number of calls in front of it. -/
def sampleMachine : Machine Contents Nat where
  get w := w.1
  put := Contents.put
  Apart l l' := l' ≠ l
  size_get w := w.2
  get_put _ _ _ h := if_pos ⟨rfl, h⟩
  get_put_apart _ _ _ _ h := if_neg fun hl => h hl.1
  address _ := .int .word 0
  compute op operands := (op.act? operands.reverse).bind (·.head?)
  shift
    | .shiftLeft _, calls, .int z x => some (.int z (x <<< 1), calls)
    | _, _, _ => none
  size_shift := by
    intro op r c c' r' h
    split at h <;> cases h
    rfl
  note _ _ := id
  others i s :=
    if i.opcode = .call then some ⟨.int .byte (.ofNat _ s.rest) :: s.stack, s.stored, s.rest + 1⟩ else none

end StackCode
