/-
The results of a machine call. They are taken out of their carriers one after the other, the
last one first. The carry flag is taken through register A, and this is where a result can get
lost: one that is in A, or in a pair with it, and that is taken later. All results are there
unless that happens, whatever else is in the list.
-/
import StackCode.Proofs.Registers.Call
import StackCode.Proofs.Registers.Cpu

namespace StackCode

/-- The first result is taken behind the second one and out of register A, which the second one is taken
through. -/
def Carrier.Clashes (c d : Carrier) : Prop := c.uses .a ∧ d = .flag .carry

namespace Cpu

variable {M : Type} {others : Instruction → Cpu M → Option (Cpu M)} {s s' : Cpu M}

/-! ## Taking results -/

/-- A result is put on the stack. The carry flag leaves register A changed. -/
def take (c : Carrier) (s : Cpu M) : Cpu M :=
  (if c = .flag .carry then s.set .a s.carryByte else s).push (s.held c)

/-- All results are put on the stack, the last one first. -/
def takeAll (cs : List Carrier) (s : Cpu M) : Cpu M := cs.foldr take s

theorem run_takeResult {c : Carrier} {code : Code} (h : takeResult c = .ok code) (s : Cpu M) :
    run others code s = some (s.take c) := by
  rcases c with r | p | _ | _ <;> cases h
  · cases r <;> rfl
  all_goals rfl

theorem run_takeResults {cs : List Carrier} {results : List Code}
    (h : List.Forall₂ (fun c code => takeResult c = .ok code) cs results) (s : Cpu M) :
    run others results.flatten s = some (cs.foldl (fun s c => s.take c) s) := by
  induction h generalizing s with
  | nil => rfl
  | cons hc _ ih =>
    rw [List.flatten_cons, run_append, run_takeResult hc]
    exact ih _

/-- The code for the results takes all of them. -/
theorem run_results {cs : List Carrier} {results : List Code}
    (h : List.Forall₂ (fun c code => takeResult c = .ok code) cs.reverse results) (s : Cpu M) :
    run others results.flatten s = some (s.takeAll cs) := by
  rw [run_takeResults h, List.foldl_reverse]
  rfl

/-! ## What is changed -/

@[simp] theorem take_flags (c : Carrier) (s : Cpu M) : (s.take c).flags = s.flags := by
  unfold take
  split <;> rfl

@[simp] theorem take_kept (c : Carrier) (s : Cpu M) : (s.take c).kept = s.kept := by
  unfold take
  split <;> rfl

@[simp] theorem take_stack (c : Carrier) (s : Cpu M) : (s.take c).stack = s.held c :: s.stack := by
  unfold take
  split <;> rfl

theorem take_registers (c : Carrier) (s : Cpu M) : (s.take c).registers =
    if c = .flag .carry then Function.update s.registers .a s.carryByte else s.registers := by
  unfold take
  split <;> rfl

@[simp] theorem takeAll_flags (cs : List Carrier) (s : Cpu M) : (s.takeAll cs).flags = s.flags := by
  induction cs with
  | nil => rfl
  | cons c cs ih => exact (take_flags c _).trans ih

@[simp] theorem takeAll_kept (cs : List Carrier) (s : Cpu M) : (s.takeAll cs).kept = s.kept := by
  induction cs with
  | nil => rfl
  | cons c cs ih => exact (take_kept c _).trans ih

/-- Only register A is changed, and only if the carry flag is among the results. -/
theorem takeAll_registers (cs : List Carrier) (s : Cpu M) : (s.takeAll cs).registers =
    if .flag .carry ∈ cs then Function.update s.registers .a s.carryByte else s.registers := by
  induction cs with
  | nil => rfl
  | cons c cs ih =>
    have hbyte : (s.takeAll cs).carryByte = s.carryByte := by rw [carryByte, takeAll_flags, carryByte]
    change ((s.takeAll cs).take c).registers = _
    rw [take_registers, ih, hbyte]
    by_cases hc : c = .flag .carry <;> by_cases hcs : .flag .carry ∈ cs <;>
      simp [hc, hcs, eq_comm (a := Carrier.flag .carry)]

/-! ## What is lost -/

/-- A carrier that register A is not part of holds the same whatever is in A. -/
theorem held_eq_iff {c : Carrier} {b : BitVec 8} (hflags : s'.flags = s.flags)
    (hregisters : s'.registers = Function.update s.registers .a b) :
    s'.held c = s.held c ↔ (c.uses .a → b = s.registers .a) := by
  rcases c with r | p | f
  · cases r <;> simp [held, hregisters, Carrier.uses]
    exact Cell.int_inj
  · cases p <;> simp [held, pair, hregisters, Carrier.uses, RegisterPair.registers]
    all_goals exact Cell.int_inj.trans (BitVec.append_right_inj _)
  · simp [held, hflags, Carrier.uses]

/-- A carrier still holds its result behind others that were taken, unless it clashes with one of them. -/
theorem held_takeAll_iff {c : Carrier} {cs : List Carrier} : (s.takeAll cs).held c = s.held c ↔
    s.carryByte = s.registers .a ∨ ∀ d ∈ cs, ¬c.Clashes d := by
  by_cases hcs : .flag .carry ∈ cs
  · have hregisters := takeAll_registers cs s
    rw [if_pos hcs] at hregisters
    have hclash : (∀ d ∈ cs, ¬c.Clashes d) ↔ ¬c.uses .a := by
      simp only [Carrier.Clashes, not_and]
      exact ⟨fun h hc => h _ hcs hc rfl, fun h d _ hc => absurd hc h⟩
    rw [held_eq_iff (takeAll_flags cs s) hregisters, hclash, or_comm, imp_iff_not_or]
  · have hregisters := takeAll_registers cs s
    rw [if_neg hcs, ← Function.update_eq_self Register.a s.registers] at hregisters
    refine iff_of_true ((held_eq_iff (takeAll_flags cs s) hregisters).2 fun _ => rfl) (.inr ?_)
    rintro d hd ⟨-, rfl⟩
    exact hcs hd

/-- The results are all there, the first one on top, just if none of them is lost to the carry flag. It
makes no difference if register A holds the same as the flag already. -/
theorem takeAll_stack_iff {cs : List Carrier} : (s.takeAll cs).stack = cs.map s.held ++ s.stack ↔
    s.carryByte = s.registers .a ∨ cs.Pairwise fun c d => ¬c.Clashes d := by
  induction cs with
  | nil => simp [takeAll]
  | cons c cs ih =>
    change ((s.takeAll cs).take c).stack = _ ↔ _
    rw [take_stack, List.map_cons, List.cons_append, List.cons.injEq, ih, held_takeAll_iff,
      List.pairwise_cons, or_and_left]

end Cpu

/-! ## Calls -/

/-- The code of a call, from behind the call itself to its end. -/
def MachineCode.back (c : MachineCode) (keepsX : Bool) : Code :=
  c.results.flatten ++ if keepsX then [Opcode.restoreX.plain] else []

theorem savingX_inner (c : MachineCode) (keepsX : Bool) (name : String) :
    savingX keepsX (c.inner name) = (if keepsX then [Opcode.saveX.plain] else []) ++ c.front ++
      [Opcode.call.named name] ++ c.back keepsX := by
  cases keepsX <;> simp [savingX, MachineCode.inner, MachineCode.back]

theorem Cpu.run_back {M : Type} {others : Instruction → Cpu M → Option (Cpu M)} {c : MachineCode}
    {cs : List Carrier} (h : List.Forall₂ (fun c code => takeResult c = .ok code) cs.reverse c.results)
    {keepsX : Bool} {t : Cpu M} (hkept : keepsX → t.kept ≠ []) :
    ∃ t', run others (c.back keepsX) t = some t' ∧ t'.stack = (t.takeAll cs).stack := by
  rw [MachineCode.back, run_append, run_results h, Option.bind_some]
  cases keepsX with
  | false => exact ⟨_, rfl, rfl⟩
  | true =>
    obtain ⟨x, kept, hcons⟩ := List.exists_cons_of_ne_nil (hkept rfl)
    have hall : (t.takeAll cs).kept = x :: kept := by rw [takeAll_kept, hcons]
    refine ⟨{ t.takeAll cs with kept }.set .x x, ?_, rfl⟩
    rw [if_pos rfl, run_cons]
    simp only [step?, Opcode.plain, hall, Option.bind_some, run_nil]

variable {symbols : SymbolTable} {s : Signature} {m : MachineConvention} {args : List Expr}

/-- **The results of a machine call are those in the carriers when the subroutine returns, the first one
on top, just if no result in the carry flag is declared behind one that takes up register A.** The flag
is read before that one is, and through register A. Only if the register happens to hold the same as the
flag does this make no difference. Code for the results never gets stuck. -/
theorem SymbolTable.results_iff {target : String} {code : Code}
    (hs : symbols.find? target = some (.subroutine s)) (hm : s.machine = some m)
    (h : symbols.CallCode target args code) :
    ∃ (c : MachineCode) (discards : List Opcode), c.IsFor symbols m args ∧
      code = (if m.keepsX then [Opcode.saveX.plain] else []) ++ c.front ++
        [Opcode.call.named s.name] ++ c.back m.keepsX ++ discards.map Opcode.plain ∧
      ∀ {M : Type} (others : Instruction → Cpu M → Option (Cpu M)) (t : Cpu M),
        (m.keepsX → t.kept ≠ []) → ∃ t', t.run others (c.back m.keepsX) = some t' ∧
          (t'.stack = m.returns.map t.held ++ t.stack ↔
            t.carryByte = t.registers .a ∨ m.returns.Pairwise fun c d => ¬c.Clashes d) := by
  obtain ⟨c, discards, hc, -, rfl⟩ := h.machine_parts hs hm
  refine ⟨c, discards, hc, by rw [savingX_inner], fun others t hkept => ?_⟩
  obtain ⟨t', ht', hstack⟩ : ∃ t', t.run others (c.back m.keepsX) = some t' ∧
      t'.stack = (t.takeAll m.returns).stack := Cpu.run_back hc.takes hkept
  exact ⟨t', ht', by rw [hstack, Cpu.takeAll_stack_iff]⟩

/-- One result is in register A, and the other one in the carry flag. -/
def byteAndCarry : MachineConvention where
  address := some 0xFFE4
  parameters := []
  returns := [.register .a, .flag .carry]
  clobbers := []

def receiving : Signature where
  name := "main.receive"
  parameters := []
  returnTypes := [.ubyte, .ubyte]
  machine := some byteAndCarry

def receivingSymbols : SymbolTable := .ofDeclarations [.subroutine receiving false]

/-- The first result is lost if register A holds five, say, and the carry flag is set. -/
theorem receiving_loses : ∃ code back,
    callStatementCode receivingSymbols "main.receive" [] = .ok code ∧
    [Opcode.call.named "main.receive"] ++ back <:+: code ∧
    ∀ t : Cpu Unit, t.registers .a = 5 → t.flags .carry = true →
      ∃ t', t.run (fun _ _ => none) back = some t' ∧
        t'.stack ≠ [.int .byte 5, .int .byte 1] ++ t.stack := by
  have hs : receivingSymbols.find? "main.receive" = some (.subroutine receiving) := by decide +kernel
  have hlowered : (callStatementCode receivingSymbols "main.receive" []).toBool := by decide +kernel
  cases h : callStatementCode receivingSymbols "main.receive" [] with
  | error e => simp [h, Except.toBool] at hlowered
  | ok code =>
    obtain ⟨c, discards, -, rfl, hresults⟩ := SymbolTable.results_iff hs rfl (.statement h)
    refine ⟨_, c.back byteAndCarry.keepsX, rfl, ⟨c.front, discards.map Opcode.plain, ?_⟩,
      fun t ha hcarry => ?_⟩
    · rw [← List.append_assoc]
      rfl
    obtain ⟨t', hrun, hiff⟩ := hresults (fun _ _ => none) t fun hkeeps => absurd hkeeps (by decide)
    refine ⟨t', hrun, fun hstack => ?_⟩
    have hheld : byteAndCarry.returns.map t.held = [.int .byte 5, .int .byte 1] := by
      change [Cell.int .byte (t.registers .a), Cell.ofBool (t.flags .carry)] = _
      rw [ha, hcarry]
      rfl
    rcases hiff.1 (by rw [hstack, hheld]) with heq | hpairwise
    · simp [Cpu.carryByte, ha, hcarry] at heq
    · simp [byteAndCarry, Carrier.Clashes, Carrier.uses] at hpairwise

end StackCode
