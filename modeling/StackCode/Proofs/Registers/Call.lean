/-
The code of a call of a machine subroutine, taken apart: the arguments on their way into their
carriers, the carry flag, the call, and the results on their way out of theirs. Register X is
kept around all of it, if it is kept at all.
-/
import StackCode.Proofs.Storage.Arguments

namespace StackCode

variable {symbols : SymbolTable} {s : Signature} {m : MachineConvention} {args : List Expr}

/-- The code for the value of an argument, and the code that takes the value off the stack and into
the carrier. -/
structure Passing where
  value : Code
  load : Code

def Passing.code (p : Passing) : Code := p.value ++ p.load

/-- How an argument gets into its carrier. A flag takes no code: the argument for it is a constant. -/
inductive Carrier.Passes (symbols : SymbolTable) : Carrier × Expr → Passing → Prop where
  | register {r : Register} {arg : Expr} {value : Code}
      (lowered : (arg.operand symbols).pushAs symbols .ubyte = .ok value) :
      Passes symbols (.register r, arg) ⟨value, r.pop⟩
  | byte {p : RegisterPair} {arg : Expr} {value : Code} (type : arg.type? symbols = some .ubyte)
      (lowered : (arg.operand symbols).pushAs symbols .ubyte = .ok value) :
      Passes symbols (.pair p, arg)
        ⟨value, p.registers.1.pop ++ (Value.wrapped .ubyte 0).push ++ p.registers.2.pop⟩
  | word {p : RegisterPair} {arg : Expr} {value : Code} (type : arg.type? symbols ≠ some .ubyte)
      (lowered : arg.code symbols = .ok value) :
      Passes symbols (.pair p, arg) ⟨value, [(Opcode.popPair p).plain]⟩
  | carry {arg : Expr} {v : Value} (constant : arg.constant? symbols = some v) :
      Passes symbols (.flag .carry, arg) ⟨[], []⟩

/-- The value for the carry flag that an argument has. -/
def Carrier.noted? (symbols : SymbolTable) (x : Carrier × Expr) : Option Bool :=
  if x.1 = .flag .carry then (x.2.constant? symbols).map (·.isTrue) else none

/-- The value that the carry flag is set to. The last argument for it decides. -/
def MachineConvention.carry? (symbols : SymbolTable) (m : MachineConvention) (args : List Expr) :
    Option Bool :=
  ((m.parameters.zip args).filterMap (Carrier.noted? symbols)).getLast?

/-- What the code of a call is made of. -/
structure MachineCode where
  passings : List Passing
  carry : Option Bool
  results : List Code

namespace MachineCode

/-- In front of the call itself. -/
def front (c : MachineCode) : Code := c.passings.flatMap (·.code) ++ setCarry c.carry

/-- Around the call itself, without what keeps register X. -/
def inner (c : MachineCode) (name : String) : Code :=
  c.front ++ [Opcode.call.named name] ++ c.results.flatten

/-- The parts are those of a call of the subroutine with these arguments. -/
structure IsFor (symbols : SymbolTable) (m : MachineConvention) (args : List Expr) (c : MachineCode) :
    Prop where
  count : args.length = m.parameters.length
  passes : List.Forall₂ (Carrier.Passes symbols) (m.parameters.zip args) c.passings
  carry : c.carry = m.carry? symbols args
  takes : List.Forall₂ (fun carrier code => takeResult carrier = .ok code) m.returns.reverse c.results

end MachineCode

theorem passPair_passes {p : RegisterPair} {arg : Expr} {code : Code}
    (h : passPair symbols p (arg.operand symbols) = .ok code) :
    ∃ passing, Carrier.Passes symbols (.pair p, arg) passing ∧ code = passing.code := by
  simp only [passPair, Lowered.bind_ok_iff, Expr.needType_ok_iff, Expr.expr_operand] at h
  obtain ⟨t, ht, h⟩ := h
  split at h
  next =>
    simp only [Operand.load, Lowered.bind_ok_iff, Lowered.pure_ok_iff] at h
    obtain ⟨-, ⟨value, hvalue, rfl⟩, rfl⟩ := h
    exact ⟨_, .byte ht hvalue, by simp [Passing.code]⟩
  next hbyte =>
    split at h
    · simp only [Lowered.bind_ok_iff, Lowered.pure_ok_iff] at h
      obtain ⟨value, hvalue, rfl⟩ := h
      exact ⟨_, .word (fun heq => hbyte (Option.some.inj (ht.symm.trans heq))) hvalue, rfl⟩
    · simp only [Lowered.throw_ok_iff] at h

theorem passCarrier_passes {x : Carrier × Expr} {passed : Code × Option Bool}
    (h : passCarrier symbols x.1 (x.2.operand symbols) = .ok passed) :
    passed.2 = Carrier.noted? symbols x ∧
      ∃ passing, Carrier.Passes symbols x passing ∧ passed.1 = passing.code := by
  obtain ⟨c, arg⟩ := x
  cases c with
  | register r =>
    simp only [passCarrier, Operand.load, Lowered.bind_ok_iff, Lowered.pure_ok_iff] at h
    obtain ⟨-, ⟨value, hvalue, rfl⟩, rfl⟩ := h
    exact ⟨rfl, _, .register hvalue, rfl⟩
  | pair p =>
    simp only [passCarrier, Lowered.bind_ok_iff, Lowered.pure_ok_iff] at h
    obtain ⟨code, hcode, rfl⟩ := h
    obtain ⟨passing, hpasses, rfl⟩ := passPair_passes hcode
    exact ⟨rfl, passing, hpasses, rfl⟩
  | flag f =>
    cases f with
    | carry =>
      simp only [passCarrier, Expr.expr_operand] at h
      split at h
      next v hv =>
        cases h
        exact ⟨by rw [Carrier.noted?, if_pos rfl, hv, Option.map_some], _, .carry hv, rfl⟩
      next => simp only [Lowered.throw_ok_iff] at h
    | _ => simp only [passCarrier, Lowered.throw_ok_iff] at h

/-- The arguments one after the other. -/
theorem passCarriers_pass {xs : List (Carrier × Expr)} {passed : List (Code × Option Bool)}
    (h : List.Forall₂ (fun x p => passCarrier symbols x.1 (x.2.operand symbols) = .ok p) xs passed) :
    passed.filterMap (·.2) = xs.filterMap (Carrier.noted? symbols) ∧
      ∃ passings, List.Forall₂ (Carrier.Passes symbols) xs passings ∧
        passed.flatMap (·.1) = passings.flatMap (·.code) := by
  induction h with
  | nil => exact ⟨rfl, [], .nil, rfl⟩
  | cons hx _ ih =>
    obtain ⟨hnoted, passings, hpassings, hcode⟩ := ih
    obtain ⟨hflag, passing, hpasses, hpassing⟩ := passCarrier_passes hx
    refine ⟨?_, passing :: passings, .cons hpasses hpassings, ?_⟩
    · rw [List.filterMap_cons, List.filterMap_cons, hnoted, hflag]
    · rw [List.flatMap_cons, List.flatMap_cons, hcode, hpassing]

theorem machineCall_parts {code : Code}
    (h : machineCall symbols s m (Expr.operands symbols args) = .ok code) :
    ∃ c : MachineCode, c.IsFor symbols m args ∧ code = savingX m.keepsX (c.inner s.name) := by
  simp only [machineCall, Lowered.check_ok_iff, Lowered.bind_ok_iff, Lowered.pure_ok_iff, not_not] at h
  obtain ⟨hlen, passed, hpassed, results, hresults, rfl⟩ := h
  rw [Expr.operands_eq_map] at hlen hpassed
  rw [List.zip_map_right, Lowered.mapM_ok_iff, List.forall₂_map_left_iff] at hpassed
  rw [Lowered.mapM_ok_iff] at hresults
  obtain ⟨hnoted, passings, hpassings, hcode⟩ := passCarriers_pass hpassed
  refine ⟨⟨passings, m.carry? symbols args, results⟩, ⟨by simpa using hlen.symm, hpassings, rfl,
    hresults⟩, ?_⟩
  rw [hcode, hnoted]
  rfl

/-- **The code of a call of a machine subroutine has all its parts.** Behind them the results are
discarded, if nobody uses them. -/
theorem SymbolTable.CallCode.machine_parts {target : String} {code : Code}
    (hs : symbols.find? target = some (.subroutine s)) (hm : s.machine = some m)
    (h : symbols.CallCode target args code) :
    ∃ (c : MachineCode) (discards : List Opcode), c.IsFor symbols m args ∧
      (∀ op ∈ discards, ∃ z, op = .discard z) ∧
      code = savingX m.keepsX (c.inner s.name) ++ discards.map Opcode.plain := by
  cases h with
  | value unfolded lowered =>
    simp only [Expr.code, Expr.operand, callCode, Expr.operands_expr, unfolded, hs, subroutineCall,
      hm] at lowered
    obtain ⟨c, hc, rfl⟩ := machineCall_parts lowered
    exact ⟨c, [], hc, by simp, (List.append_nil _).symm⟩
  | statement lowered =>
    simp only [callStatementCode, hs, subroutineCall, hm, Lowered.bind_ok_iff,
      Lowered.pure_ok_iff] at lowered
    obtain ⟨call, hcall, discards, hdiscards, rfl⟩ := lowered
    obtain ⟨c, hc, rfl⟩ := machineCall_parts hcall
    refine ⟨c, discards, hc, fun op hop => ?_, rfl⟩
    obtain ⟨t, -, ht⟩ := Lowered.exists_of_mem_mapM hdiscards hop
    simp only [Opcode.discardFor, orInvalid_ok_iff] at ht
    obtain ⟨z, -, rfl⟩ := Option.map_eq_some_iff.1 ht
    exact ⟨z, rfl⟩

end StackCode
