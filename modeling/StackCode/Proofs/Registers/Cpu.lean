/-
The registers while code runs. Some instructions are about the registers, the carry flag, and
what is kept of register X; of all the others it is enough to know what they leave alone. They
may do whatever else they like, so that everything here holds of any machine that has these
few instructions.
-/
import StackCode.Proofs.Arithmetic.Machine
import StackCode.Proofs.Storage.Changes

namespace StackCode

theorem Cell.bits?_eq_some {c : Cell} {z : IntSize} {b : BitVec z.bits} :
    c.bits? z = some b ↔ c = .int z b := by
  constructor
  · intro h
    cases c with
    | int z' b' =>
      by_cases hz : z' = z
      · subst hz
        rw [bits?_int, Option.some.injEq] at h
        rw [h]
      · simp [bits?, hz] at h
    | float x => cases h
  · rintro rfl
    exact bits?_int z b

theorem Cell.int_inj {z : IntSize} {b b' : BitVec z.bits} : int z b = int z b' ↔ b = b' := by
  simp

/-! ## Registers that change -/

/-- The change gives the register another value. One that was kept is not another one. -/
def Change.Sets (r : Register) : Change → Prop
  | store name => name = r.name
  | pair p => (Carrier.pair p).uses r
  | carryToA => r = .a
  | restoreRegisters => True
  | element _ | saveX | restoreX => False

instance (r : Register) : DecidablePred (Change.Sets r)
  | .store name => inferInstanceAs (Decidable (name = r.name))
  | .pair p => inferInstanceAs (Decidable ((Carrier.pair p).uses r = true))
  | .carryToA => inferInstanceAs (Decidable (r = .a))
  | .restoreRegisters => inferInstanceAs (Decidable True)
  | .element _ | .saveX | .restoreX => inferInstanceAs (Decidable False)

/-- The instruction gives the register another value. -/
def Instruction.Sets (r : Register) (i : Instruction) : Prop := ∃ c ∈ i.change?, c.Sets r

theorem sets_iff_changesOf {code : Code} {r : Register} :
    (∃ i ∈ code, i.Sets r) ↔ ∃ c ∈ changesOf code, c.Sets r := by
  constructor
  · rintro ⟨i, hi, c, hc, hr⟩
    exact ⟨c, mem_changesOf.2 ⟨i, hi, hc⟩, hr⟩
  · rintro ⟨c, hc, hr⟩
    obtain ⟨i, hi, hic⟩ := mem_changesOf.1 hc
    exact ⟨i, hi, c, hic, hr⟩

/-- The register of a name. -/
def Register.ofName? (name : String) : Option Register := all.find? (·.name = name)

@[simp] theorem Register.ofName?_name (r : Register) : ofName? r.name = some r := by
  cases r <;> decide

theorem Register.name_of_ofName? {name : String} {r : Register} (h : ofName? name = some r) :
    name = r.name := by
  simpa [eq_comm] using List.find?_some h

/-! ## The machine -/

/-- The registers and flags, what is kept of register X with the last on top, the stack, and
everything else. -/
structure Cpu (M : Type) where
  registers : Register → BitVec 8
  flags : StatusFlag → Bool
  kept : List (BitVec 8)
  stack : List Cell
  rest : M

namespace Cpu

variable {M : Type}

def set (s : Cpu M) (r : Register) (b : BitVec 8) : Cpu M :=
  { s with registers := Function.update s.registers r b }

/-- The word in a pair of registers. -/
def pair (s : Cpu M) (p : RegisterPair) : BitVec 16 :=
  s.registers p.registers.2 ++ s.registers p.registers.1

def setPair (s : Cpu M) (p : RegisterPair) (w : BitVec 16) : Cpu M :=
  (s.set p.registers.1 (w.extractLsb' 0 8)).set p.registers.2 (w.extractLsb' 8 8)

def push (s : Cpu M) (c : Cell) : Cpu M := { s with stack := c :: s.stack }

/-- The value that a carrier holds, as it would be on the stack. -/
def held (s : Cpu M) : Carrier → Cell
  | .register r => .int .byte (s.registers r)
  | .pair p => .int .word (s.pair p)
  | .flag f => .ofBool (s.flags f)

/-- The carry flag as a byte. -/
def carryByte (s : Cpu M) : BitVec 8 := if s.flags .carry then 1 else 0

/-- Takes an integer of a size off the stack. -/
def pop (z : IntSize) (s : Cpu M) (f : BitVec z.bits → Cpu M → Cpu M) : Option (Cpu M) :=
  match s.stack with
  | c :: stack => (c.bits? z).map fun b => f b { s with stack }
  | [] => none

/-- One instruction. What is not about registers is left to `others`. -/
def step? (others : Instruction → Cpu M → Option (Cpu M)) (i : Instruction) (s : Cpu M) :
    Option (Cpu M) :=
  match i.opcode with
  | .push z => i.arg.bind fun v => if v.type.size = z then some (s.push v.cell) else none
  | .pushVar .byte =>
    match i.label.bind Register.ofName? with
    | some r => some (s.push (s.held (.register r)))
    | none => others i s
  | .popVar .byte =>
    match i.label.bind Register.ofName? with
    | some r => s.pop .byte fun b s => s.set r b
    | none => others i s
  | .pushPair p => some (s.push (s.held (.pair p)))
  | .popPair p => s.pop .word fun w s => s.setPair p w
  | .carryToA => some (s.set .a s.carryByte)
  | .setCarry => some { s with flags := Function.update s.flags .carry true }
  | .clearCarry => some { s with flags := Function.update s.flags .carry false }
  | .saveX => some { s with kept := s.registers .x :: s.kept }
  | .restoreX =>
    match s.kept with
    | x :: kept => some ({ s with kept }.set .x x)
    | [] => none
  | _ => others i s

/-- Code, if none of its instructions gets stuck. -/
def run (others : Instruction → Cpu M → Option (Cpu M)) (code : Code) (s : Cpu M) :
    Option (Cpu M) :=
  code.foldlM (fun s i => step? others i s) s

variable {others : Instruction → Cpu M → Option (Cpu M)} {code code' : Code} {i : Instruction}
  {s s' : Cpu M} {r : Register}

@[simp] theorem run_nil : run others [] s = some s := rfl

theorem run_cons : run others (i :: code) s = (step? others i s).bind (run others code) := rfl

theorem run_singleton : run others [i] s = step? others i s :=
  (run_cons ..).trans (Option.bind_fun_some _)

theorem run_append : run others (code ++ code') s = (run others code s).bind (run others code') :=
  List.foldlM_append

theorem run_append_eq_some : run others (code ++ code') s = some s' ↔
    ∃ t, run others code s = some t ∧ run others code' t = some s' := by
  rw [run_append, Option.bind_eq_some_iff]

/-! ## What stays -/

/-- The other instructions leave a register alone, unless they are about it. -/
def Leaves (others : Instruction → Cpu M → Option (Cpu M)) (r : Register) : Prop :=
  ∀ i s s', ¬i.Sets r → others i s = some s' → s'.registers r = s.registers r

/-- The other instructions leave alone what is kept of register X. -/
def LeavesKept (others : Instruction → Cpu M → Option (Cpu M)) : Prop :=
  ∀ i s s', others i s = some s' → s'.kept = s.kept

@[simp] theorem set_kept (b : BitVec 8) : (s.set r b).kept = s.kept := rfl

theorem set_registers_self (r : Register) (b : BitVec 8) : (s.set r b).registers r = b := by
  simp [set]

theorem set_registers_of_ne {r' : Register} {b : BitVec 8} (h : r' ≠ r) :
    (s.set r b).registers r' = s.registers r' :=
  Function.update_of_ne h _ _

theorem setPair_registers_of_not_uses {p : RegisterPair} {w : BitVec 16}
    (h : ¬(Carrier.pair p).uses r) : (s.setPair p w).registers r = s.registers r := by
  have hne : r ≠ p.registers.1 ∧ r ≠ p.registers.2 := by cases p <;> cases r <;> revert h <;> decide
  rw [setPair, set_registers_of_ne hne.2, set_registers_of_ne hne.1]

theorem pop_eq_some {z : IntSize} {f : BitVec z.bits → Cpu M → Cpu M} (h : s.pop z f = some s') :
    ∃ b stack, s.stack = .int z b :: stack ∧ s' = f b { s with stack } := by
  unfold pop at h
  split at h
  next c stack hs =>
    obtain ⟨b, hb, rfl⟩ := Option.map_eq_some_iff.1 h
    exact ⟨b, stack, by rw [hs, Cell.bits?_eq_some.1 hb], rfl⟩
  next => cases h

/-- What one instruction may do: keep register X, take it back, be left to the others, or do no more to
the registers than it says. -/
theorem step?_cases (h : step? others i s = some s') :
    (i.change? = some .saveX ∧ s' = { s with kept := s.registers .x :: s.kept }) ∨
    (i.change? = some .restoreX ∧ ∃ x kept, s.kept = x :: kept ∧ s' = { s with kept }.set .x x) ∨
    (i.change? ≠ some .saveX ∧ i.change? ≠ some .restoreX ∧
      (others i s = some s' ∨ s'.kept = s.kept ∧ ∀ r, ¬i.Sets r → s'.registers r = s.registers r)) := by
  have hne {c : Change} {r : Register} (hc : i.change? = some c) (hr : ¬i.Sets r) : ¬c.Sets r :=
    fun h => hr ⟨c, hc, h⟩
  unfold step? at h
  unfold Instruction.change? at hne ⊢
  split at h
  next hop =>
    obtain ⟨v, -, h⟩ := Option.bind_eq_some_iff.1 h
    split at h <;> cases h
    exact .inr (.inr ⟨by simp [hop], by simp [hop], .inr ⟨rfl, fun _ _ => rfl⟩⟩)
  next hop =>
    refine .inr (.inr ⟨by simp [hop], by simp [hop], ?_⟩)
    split at h
    · cases h
      exact .inr ⟨rfl, fun _ _ => rfl⟩
    · exact .inl h
  next hop =>
    refine .inr (.inr ⟨by simp [hop], by simp [hop], ?_⟩)
    split at h
    next r' hname =>
      obtain ⟨b, stack, -, rfl⟩ := pop_eq_some h
      obtain ⟨name, hlabel, hname⟩ := Option.bind_eq_some_iff.1 hname
      refine .inr ⟨rfl, fun r hr => set_registers_of_ne fun heq => ?_⟩
      exact hne (by rw [hop, hlabel]; rfl) hr (by rw [heq]; exact Register.name_of_ofName? hname)
    next => exact .inl h
  next hop =>
    cases h
    exact .inr (.inr ⟨by simp [hop], by simp [hop], .inr ⟨rfl, fun _ _ => rfl⟩⟩)
  next p hop =>
    obtain ⟨w, stack, -, rfl⟩ := pop_eq_some h
    exact .inr (.inr ⟨by simp [hop], by simp [hop], .inr ⟨rfl, fun r hr =>
      setPair_registers_of_not_uses (@hne (.pair p) r (by rw [hop]) hr)⟩⟩)
  next hop =>
    cases h
    exact .inr (.inr ⟨by simp [hop], by simp [hop], .inr ⟨rfl, fun r hr =>
      set_registers_of_ne (@hne .carryToA r (by rw [hop]) hr)⟩⟩)
  next hop =>
    cases h
    exact .inr (.inr ⟨by simp [hop], by simp [hop], .inr ⟨rfl, fun _ _ => rfl⟩⟩)
  next hop =>
    cases h
    exact .inr (.inr ⟨by simp [hop], by simp [hop], .inr ⟨rfl, fun _ _ => rfl⟩⟩)
  next hop => exact .inl ⟨by rw [hop], (Option.some.inj h).symm⟩
  next hop =>
    split at h
    next x kept hkept => exact .inr (.inl ⟨by rw [hop], x, kept, hkept, (Option.some.inj h).symm⟩)
    next => cases h
  next hsave hrestore =>
    right
    right
    split <;> simp_all

/-- What one instruction does to what is kept of register X. -/
theorem kept_step? (ho : LeavesKept others) (h : step? others i s = some s') :
    (i.change? = some .saveX ∧ s'.kept = s.registers .x :: s.kept) ∨
    (i.change? = some .restoreX ∧ s.kept = s'.registers .x :: s'.kept) ∨
    i.change? ≠ some .saveX ∧ i.change? ≠ some .restoreX ∧ s'.kept = s.kept := by
  obtain ⟨hc, rfl⟩ | ⟨hc, x, kept, hkept, rfl⟩ | ⟨hsave, hrestore, hother | ⟨hkept, -⟩⟩ := step?_cases h
  · exact .inl ⟨hc, rfl⟩
  · exact .inr (.inl ⟨hc, by rw [hkept, set_registers_self, set_kept]⟩)
  · exact .inr (.inr ⟨hsave, hrestore, ho _ _ _ hother⟩)
  · exact .inr (.inr ⟨hsave, hrestore, hkept⟩)

/-- An instruction that is not about a register leaves it alone. -/
theorem registers_step? (ho : Leaves others r) (h : step? others i s = some s') (hr : ¬i.Sets r)
    (hx : i.change? = some .restoreX → r ≠ .x) : s'.registers r = s.registers r := by
  obtain ⟨-, rfl⟩ | ⟨hc, x, kept, -, rfl⟩ | ⟨-, -, hother | ⟨-, hleft⟩⟩ := step?_cases h
  · rfl
  · exact set_registers_of_ne (hx hc)
  · exact ho _ _ _ hr hother
  · exact hleft r hr

end Cpu
end StackCode
