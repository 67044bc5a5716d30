/-
The arguments of a machine call, from where each is put into its carrier to where the
subroutine is called. The carriers are few, and code for a later argument may use the same
registers: if it calls a machine subroutine itself. The argument is lost then, and in all other
calls every carrier holds its own argument. The carry flag is set last and is never lost.
-/
import StackCode.Proofs.Registers.Brackets

namespace StackCode

variable {symbols : SymbolTable} {m : MachineConvention} {args : List Expr}

/-! ## Changes -/

/-- What an argument that is in the register is lost to: a later one goes into the same register, or its
code gives the register another value. -/
def MachineConvention.Loses (symbols : SymbolTable) (m : MachineConvention) (args : List Expr) (i : Nat)
    (r : Register) : Prop :=
  ∃ x ∈ (m.parameters.zip args).drop (i + 1), x.1.uses r ∨
    x.1 ≠ .flag .carry ∧ ∃ c ∈ x.2.changes symbols, c.Sets r

namespace Carrier.Passes

variable {x : Carrier × Expr} {p : Passing} {r : Register}

/-- The code for the value changes what the shape of the argument tells. -/
theorem changesOf_value (h : Passes symbols x p) :
    changesOf p.value = if x.1 = .flag .carry then [] else x.2.changes symbols := by
  have hpush {arg : Expr} {value : Code}
      (hvalue : (arg.operand symbols).pushAs symbols .ubyte = .ok value) :
      changesOf value = arg.changes symbols := by
    rw [(Expr.operand_changes arg).pushAs value hvalue, Expr.expr_operand]
  cases h with
  | register lowered => exact hpush lowered
  | byte type lowered => exact hpush lowered
  | word type lowered => exact (Expr.operand_changes _).code _ lowered
  | carry constant => rfl

/-- What takes the value off the stack changes the registers of the carrier. -/
theorem sets_load (h : Passes symbols x p) : (∃ c ∈ changesOf p.load, c.Sets r) ↔ x.1.uses r := by
  cases h with
  | @register r' => cases r' <;> cases r <;> simp [Change.Sets, uses, Register.name]
  | @byte p =>
    cases p <;> cases r <;>
      simp [Change.Sets, uses, Register.name, RegisterPair.registers]
  | @word p => simp [changesOf, Instruction.change?, Opcode.plain, Change.Sets]
  | carry constant => simp [uses]

/-- An argument on its way into its carrier changes registers on both ways. -/
theorem sets_iff (h : Passes symbols x p) : (∃ c ∈ changesOf p.code, c.Sets r) ↔
    x.1.uses r ∨ x.1 ≠ .flag .carry ∧ ∃ c ∈ x.2.changes symbols, c.Sets r := by
  have hsplit : (∃ c ∈ changesOf p.code, c.Sets r) ↔
      (∃ c ∈ changesOf p.value, c.Sets r) ∨ ∃ c ∈ changesOf p.load, c.Sets r := by
    simp only [Passing.code, changesOf_append, List.mem_append, or_and_right, exists_or]
  rw [hsplit, h.sets_load, h.changesOf_value, or_comm]
  split <;> simp_all

/-- The same for arguments one after the other. -/
theorem sets_passings {xs : List (Carrier × Expr)} {passings : List Passing}
    (h : List.Forall₂ (Passes symbols) xs passings) :
    (∃ c ∈ changesOf (passings.flatMap (·.code)), c.Sets r) ↔
      ∃ x ∈ xs, x.1.uses r ∨ x.1 ≠ .flag .carry ∧ ∃ c ∈ x.2.changes symbols, c.Sets r := by
  induction h with
  | nil => simp
  | cons hx _ ih =>
    rw [List.exists_mem_cons_iff, ← ih, ← hx.sets_iff]
    simp only [List.flatMap_cons, changesOf_append, List.mem_append, or_and_right, exists_or]

end Carrier.Passes

/-! ## Values -/

/-- What a carrier holds that a value was put into. A pair of registers has zero above a byte. -/
def Carrier.holding : Carrier → Cell → Cell
  | pair _, .int .byte b => .int .word (0#8 ++ (b : BitVec 8))
  | _, v => v

namespace Cpu

variable {M : Type} {others : Instruction → Cpu M → Option (Cpu M)} {s s' : Cpu M}

theorem run_popRegister (r : Register) :
    s.run others r.pop = s.pop .byte fun b s => s.set r b := by
  rw [Register.pop, run_singleton]
  simp [step?, Opcode.named]

theorem run_popPair (p : RegisterPair) :
    s.run others [(Opcode.popPair p).plain] = s.pop .word fun w s => s.setPair p w :=
  run_singleton

theorem setPair_registers (p : RegisterPair) (w : BitVec 16) :
    (s.setPair p w).registers p.registers.1 = w.extractLsb' 0 8 ∧
      (s.setPair p w).registers p.registers.2 = w.extractLsb' 8 8 := by
  have hne : p.registers.1 ≠ p.registers.2 := by cases p <;> decide
  exact ⟨(set_registers_of_ne hne).trans (set_registers_self ..), set_registers_self ..⟩

/-- Loading takes a value off the stack, and the carrier holds it then. -/
theorem run_load {x : Carrier × Expr} {p : Passing} (h : Carrier.Passes symbols x p)
    (hx : x.1 ≠ .flag .carry) (hrun : s.run others p.load = some s') :
    ∃ v rest, s.stack = v :: rest ∧ s'.held x.1 = x.1.holding v := by
  cases h with
  | @register r =>
    rw [run_popRegister] at hrun
    obtain ⟨b, rest, hstack, rfl⟩ := pop_eq_some hrun
    exact ⟨_, rest, hstack, congrArg (Cell.int .byte) (set_registers_self r b)⟩
  | @byte p =>
    obtain ⟨t, ht, hhigh⟩ := run_append_eq_some.1 hrun
    obtain ⟨u, hu, hzero⟩ := run_append_eq_some.1 ht
    rw [run_popRegister] at hu hhigh
    obtain ⟨b, rest, hstack, rfl⟩ := pop_eq_some hu
    cases hzero
    obtain ⟨z, _, hz, rfl⟩ := pop_eq_some hhigh
    obtain rfl : 0#8 = z := Cell.int_inj.1 (List.cons.inj hz).1
    have hne : p.registers.1 ≠ p.registers.2 := by cases p <;> decide
    refine ⟨_, rest, hstack, congrArg (Cell.int .word) ?_⟩
    rw [pair, set_registers_self, set_registers_of_ne hne]
    exact congrArg (0#8 ++ ·) (set_registers_self _ b)
  | @word p =>
    rw [run_popPair] at hrun
    obtain ⟨w, rest, hstack, rfl⟩ := pop_eq_some hrun
    refine ⟨_, rest, hstack, congrArg (Cell.int .word) ?_⟩
    rw [pair, (setPair_registers p w).1, (setPair_registers p w).2]
    exact BitVec.extractLsb'_append_extractLsb'
  | carry constant => exact absurd rfl hx

/-- A carrier holds the same as long as its registers do. -/
theorem held_of_registers {x : Carrier × Expr} {p : Passing} (h : Carrier.Passes symbols x p)
    (hx : x.1 ≠ .flag .carry) (hr : ∀ r, x.1.uses r → s'.registers r = s.registers r) :
    s'.held x.1 = s.held x.1 := by
  cases h with
  | @register r => exact congrArg (Cell.int .byte) (hr r (by simp [Carrier.uses]))
  | @byte p | @word p =>
    have hboth : (Carrier.pair p).uses p.registers.1 ∧ (Carrier.pair p).uses p.registers.2 := by
      cases p <;> decide
    rw [held, held, pair, pair, hr _ hboth.1, hr _ hboth.2]
  | carry constant => exact absurd rfl hx

end Cpu

/-! ## Calls -/

namespace MachineCode

/-- The code between an argument and the call itself: the later arguments, and the carry flag. -/
def after (c : MachineCode) (i : Nat) : Code :=
  (c.passings.drop (i + 1)).flatMap (·.code) ++ setCarry c.carry

variable {c : MachineCode} {i : Nat} {p : Passing}

theorem front_eq (h : c.passings[i]? = some p) :
    c.front = (c.passings.take i).flatMap (·.code) ++ p.code ++ c.after i := by
  obtain ⟨hlt, hp⟩ := List.getElem?_eq_some_iff.1 h
  have hsplit : c.passings = c.passings.take i ++ p :: c.passings.drop (i + 1) := by
    rw [← hp, ← List.drop_eq_getElem_cons hlt, List.take_append_drop]
  rw [front, after]
  conv_lhs => rw [hsplit]
  simp only [List.flatMap_append, List.flatMap_cons, List.append_assoc]

theorem front_getLast? (b : Bool) (h : c.carry = some b) : c.front.getLast? =
    some (if b then Opcode.setCarry else Opcode.clearCarry).plain := by
  rw [front, h]
  cases b <;> exact List.getLast?_concat

namespace IsFor

theorem sets_after_iff (h : c.IsFor symbols m args) (i : Nat) (r : Register) :
    (∃ j ∈ c.after i, j.Sets r) ↔ m.Loses symbols args i r := by
  rw [sets_iff_changesOf, after, changesOf_append, setCarry_changes, List.append_nil]
  exact Carrier.Passes.sets_passings (List.forall₂_drop (i + 1) h.passes)

theorem isNested_after (h : c.IsFor symbols m args) (i : Nat) :
    Change.IsNested (changesOf (c.after i)) := by
  rw [after, changesOf_append, setCarry_changes]
  exact (isNested_passings (List.forall₂_drop (i + 1) h.passes)).append .nil

end IsFor
end MachineCode

/-- **An argument of a machine call is lost before the call just if a later one goes into one of its
registers, or the code of a later one gives one of them another value.** Otherwise its carrier holds at
the call what the code of the argument left on the stack, on each machine where only instructions that
are about a register change it. If an argument is for the carry flag, the last instruction in front of
the call sets the flag. -/
theorem SymbolTable.argument_lost_iff {s : Signature} {target : String} {code : Code}
    (hs : symbols.find? target = some (.subroutine s)) (hm : s.machine = some m)
    (h : symbols.CallCode target args code) :
    ∃ (c : MachineCode) (discards : List Opcode), c.IsFor symbols m args ∧
      code = savingX m.keepsX (c.inner s.name) ++ discards.map Opcode.plain ∧
      (∀ b, m.carry? symbols args = some b →
        c.front.getLast? = some (if b then Opcode.setCarry else Opcode.clearCarry).plain) ∧
      ∀ i x p, (m.parameters.zip args)[i]? = some x → c.passings[i]? = some p → x.1 ≠ .flag .carry →
        c.front = (c.passings.take i).flatMap (·.code) ++ p.code ++ c.after i ∧
        (∀ r, (∃ j ∈ c.after i, j.Sets r) ↔ m.Loses symbols args i r) ∧
        ∀ {M : Type} (others : Instruction → Cpu M → Option (Cpu M)), Cpu.LeavesKept others →
          (∀ r, x.1.uses r → Cpu.Leaves others r ∧ ¬m.Loses symbols args i r) →
          ∀ t t' : Cpu M, t.run others (p.code ++ c.after i) = some t' →
            ∃ u v rest, t.run others p.value = some u ∧ u.stack = v :: rest ∧
              t'.held x.1 = x.1.holding v := by
  obtain ⟨c, discards, hc, -, rfl⟩ := h.machine_parts hs hm
  refine ⟨c, discards, hc, rfl, fun b hb => MachineCode.front_getLast? b (hc.carry.trans hb),
    fun i x p hx hp hflag => ⟨MachineCode.front_eq hp, hc.sets_after_iff i, ?_⟩⟩
  intro M others hkept hleaves t t' hrun
  have hpass : Carrier.Passes symbols x p := by
    obtain ⟨hi, rfl⟩ := List.getElem?_eq_some_iff.1 hx
    obtain ⟨hj, rfl⟩ := List.getElem?_eq_some_iff.1 hp
    exact hc.passes.get hi hj
  obtain ⟨w, hw, hafter⟩ := Cpu.run_append_eq_some.1 hrun
  obtain ⟨u, hu, hload⟩ := Cpu.run_append_eq_some.1 hw
  obtain ⟨v, rest, hstack, hheld⟩ := Cpu.run_load hpass hflag hload
  refine ⟨u, v, rest, hu, hstack, ?_⟩
  rw [← hheld]
  refine Cpu.held_of_registers hpass hflag fun r hr => ?_
  obtain ⟨hr, hlost⟩ := hleaves r hr
  exact Cpu.registers_of_isNested hr hkept
    (fun j hj hset => hlost ((hc.sets_after_iff i r).1 ⟨j, hj, hset⟩)) (hc.isNested_after i) hafter

/-- The arguments go into registers A and Y. -/
def charAndColor : MachineConvention where
  address := some 0xFFD2
  parameters := [.register .a, .register .y]
  returns := []
  clobbers := []

def printing : Signature where
  name := "main.print"
  parameters := [⟨"char", .ubyte⟩, ⟨"color", .ubyte⟩]
  returnTypes := []
  machine := some charAndColor

/-- A subroutine that takes its argument in register A and leaves its result in register Y. -/
def coloring : Signature where
  name := "main.color"
  parameters := [⟨"code", .ubyte⟩]
  returnTypes := [.ubyte]
  machine := some { charAndColor with parameters := [.register .a], returns := [.register .y] }

def printingSymbols : SymbolTable :=
  .ofDeclarations [.subroutine printing false, .subroutine coloring false]

def coloredChar : List Expr :=
  [.number (.wrapped .ubyte 1), .call "main.color" [.number (.wrapped .ubyte 2)]]

/-- The first argument is lost: the call inside the second one takes its own argument in register A. -/
theorem coloredChar_loses : ∃ (code : Code) (c : MachineCode),
    callStatementCode printingSymbols "main.print" coloredChar = .ok code ∧
    c.IsFor printingSymbols charAndColor coloredChar ∧ c.inner "main.print" <+: code ∧
    ∃ j ∈ c.after 0, j.Sets .a := by
  have hs : printingSymbols.find? "main.print" = some (.subroutine printing) := by decide +kernel
  have hlowered : (callStatementCode printingSymbols "main.print" coloredChar).toBool := by decide +kernel
  cases h : callStatementCode printingSymbols "main.print" coloredChar with
  | error e => simp [h, Except.toBool] at hlowered
  | ok code =>
    obtain ⟨c, discards, hc, hcode, -, hlost⟩ := SymbolTable.argument_lost_iff hs rfl (.statement h)
    refine ⟨code, c, rfl, hc, ⟨_, hcode.symm⟩, ?_⟩
    have hlen : 0 < c.passings.length := by
      rw [← hc.passes.length_eq]
      decide
    refine ((hlost 0 (.register .a, coloredChar[0]) c.passings[0] rfl (List.getElem?_eq_getElem hlen)
      (by decide)).2.1 .a).2 ?_
    exact ⟨(.register .y, coloredChar[1]), by simp [charAndColor, coloredChar],
      .inr ⟨by decide, .store "A", by decide +kernel, rfl⟩⟩

end StackCode
