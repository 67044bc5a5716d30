/-
The stack under calls. The arguments of an ordinary subroutine go into variables and
those of a machine subroutine into registers, so that nothing of them is left on the
stack when the call comes. A builtin finds its arguments on the stack.
-/
import StackCode.Proofs.Stack.Place

namespace StackCode

variable {symbols : SymbolTable}

/-! ## Operands -/

/-- The code of an operand leaves a value of its type, and the code for its index or address leaves a
value, too. -/
structure Operand.Sound (symbols : SymbolTable) (o : Operand) : Prop where
  push : ∀ {t code}, o.expr.type? symbols = some t → o.push = .ok code →
    Runs symbols code [] [t.slot]
  inner : ∀ {p}, Place.ofExpr? o.expr = some p → p.InnerRuns symbols o.inner

/-- The type of a place is that of the expression that reads it. -/
theorem Place.type?_of_ofExpr? {e : Expr} {p : Place} (h : Place.ofExpr? e = some p) :
    p.type? symbols = e.type? symbols := by
  cases e <;> simp [ofExpr?] at h <;> subst h <;> simp [type?, Expr.type?]

namespace Operand.Sound

variable {o : Operand} {code : Code}

theorem pushAs {target : DataType} (ho : o.Sound symbols) (h : o.pushAs symbols target = .ok code) :
    Runs symbols code [] [target.slot] := by
  simp only [Operand.pushAs, Lowered.bind_ok_iff, Expr.needType_ok_iff] at h
  obtain ⟨source, hs, c, hc, h⟩ := h
  split at h
  next hi =>
    simp only [Bool.and_eq_true, decide_eq_true_eq] at hi
    obtain ⟨hi, rfl⟩ := hi
    cases h
    have hslot : source.slot = .sized .word := by
      cases source <;> first | rfl | cases hi
    have hpush := ho.push hs hc
    rwa [hslot] at hpush
  next =>
    simp only [Lowered.bind_ok_iff, Lowered.pure_ok_iff] at h
    obtain ⟨op, hop, rfl⟩ := h
    exact (ho.push hs hc).append (.widening hop)

theorem load {r : Register} (ho : o.Sound symbols) (h : o.load symbols r = .ok code) :
    Runs symbols code [] [] := by
  simp only [Operand.load, Lowered.bind_ok_iff, Lowered.pure_ok_iff] at h
  obtain ⟨c, hc, rfl⟩ := h
  exact (ho.pushAs hc).append (Runs.popRegister r)

theorem assign {p : Place} {inner : Lowered Code} (ho : o.Sound symbols)
    (hi : p.InnerRuns symbols inner) (h : o.assign symbols p inner = .ok code) :
    Runs symbols code [] [] := by
  simp only [Operand.assign, Lowered.bind_ok_iff, Place.needType_ok_iff, Lowered.pure_ok_iff] at h
  obtain ⟨t, ht, c, hc, c', hc', rfl⟩ := h
  exact (ho.pushAs hc).append (Place.write_runs ht hi hc')

end Operand.Sound

/-! ## Subroutines -/

/-- The slot that a result takes up once it has been fetched from its carrier. -/
def Carrier.slot : Carrier → Slot
  | .register _ | .flag _ => .sized .byte
  | .pair _ => .sized .word

/-- The carriers of the results are as many and as wide as the types that are declared for them. -/
def MachineConvention.Fits (m : MachineConvention) (types : List DataType) : Prop :=
  m.returns.map (·.slot) = types.map (·.slot)

instance (m : MachineConvention) (types : List DataType) : Decidable (m.Fits types) :=
  inferInstanceAs (Decidable (_ = _))

/-- A subroutine of a machine convention returns what it declares. -/
def Signature.Fits (s : Signature) : Prop := ∀ m, s.machine = some m → m.Fits s.returnTypes

/-- A subroutine stands under its own name. -/
def SymbolTable.WellNamed (symbols : SymbolTable) : Prop :=
  ∀ name s, symbols.find? name = some (.subroutine s) → s.name = name

theorem passParameter_runs {s : Signature} {p : Parameter} {arg : Operand} {code : Code}
    (ha : arg.Sound symbols) (h : passParameter symbols s p arg = .ok code) :
    Runs symbols code [] [] := by
  simp only [passParameter, Lowered.bind_ok_iff, Lowered.pure_ok_iff, Opcode.popVarFor,
    orInvalid_ok_iff] at h
  obtain ⟨c, hc, op, hop, rfl⟩ := h
  obtain ⟨z, hz, heff⟩ := Opcode.stackSize?_map (fun _ => rfl) hop
  have hpush := ha.pushAs hc
  rw [hz] at hpush
  exact hpush.append (.of_pop heff)

/-- The call itself. Nothing of a machine subroutine comes back on the stack. -/
theorem call_runs {s : Signature} (hs : symbols.find? s.name = some (.subroutine s)) :
    Runs symbols [Opcode.call.named s.name] []
      (if s.machine.isSome then [] else s.returnTypes.map (·.slot)) := by
  refine .of_gives ?_
  simp [Instruction.effect?, Opcode.named, SymbolTable.callEffect?, hs]

theorem ordinaryCall_runs {s : Signature} {args : List Operand} {code : Code}
    (hs : symbols.find? s.name = some (.subroutine s)) (hm : s.machine = none)
    (ha : ∀ a ∈ args, a.Sound symbols) (h : ordinaryCall symbols s args = .ok code) :
    Runs symbols code [] (s.returnTypes.map (·.slot)) := by
  simp only [ordinaryCall, Lowered.check_ok_iff, Lowered.bind_ok_iff, Lowered.pure_ok_iff] at h
  obtain ⟨-, codes, hcodes, rfl⟩ := h
  have hcall := call_runs hs
  simp only [hm, Option.isSome_none, Bool.false_eq_true, if_false] at hcall
  refine (Runs.flatten fun c hc => ?_).append hcall
  obtain ⟨⟨p, arg⟩, hmem, hp⟩ := Lowered.exists_of_mem_mapM hcodes hc
  exact passParameter_runs (ha arg (List.of_mem_zip hmem).2) hp

theorem passPair_runs {p : RegisterPair} {arg : Operand} {code : Code} (ha : arg.Sound symbols)
    (h : passPair symbols p arg = .ok code) : Runs symbols code [] [] := by
  simp only [passPair, Lowered.bind_ok_iff, Expr.needType_ok_iff] at h
  obtain ⟨t, ht, h⟩ := h
  split at h
  · simp only [Lowered.bind_ok_iff, Lowered.pure_ok_iff] at h
    obtain ⟨c, hc, rfl⟩ := h
    exact ((ha.load hc).append (Runs.push _)).append (Runs.popRegister _)
  · split at h
    next hword =>
      simp only [Lowered.bind_ok_iff, Lowered.pure_ok_iff] at h
      obtain ⟨c, hc, rfl⟩ := h
      have hslot : t.slot = .sized .word := by
        rcases t with (n | _) | _ | _ | _ | _ <;> try rfl
        · cases n <;> first | rfl | cases hword
        all_goals cases hword
      have hpush := ha.push ht hc
      rw [hslot] at hpush
      exact hpush.append (.of_pop rfl)
    next => simp only [Lowered.throw_ok_iff] at h

theorem passCarrier_runs {c : Carrier} {arg : Operand} {passed : Code × Option Bool}
    (ha : arg.Sound symbols) (h : passCarrier symbols c arg = .ok passed) :
    Runs symbols passed.1 [] [] := by
  unfold passCarrier at h
  split at h
  · simp only [Lowered.bind_ok_iff, Lowered.pure_ok_iff] at h
    obtain ⟨code, hcode, rfl⟩ := h
    exact ha.load hcode
  · simp only [Lowered.bind_ok_iff, Lowered.pure_ok_iff] at h
    obtain ⟨code, hcode, rfl⟩ := h
    exact passPair_runs ha hcode
  · split at h
    · cases h
      exact .nil
    · simp only [Lowered.throw_ok_iff] at h
  · simp only [Lowered.throw_ok_iff] at h

theorem setCarry_runs (carry : Option Bool) : Runs symbols (setCarry carry) [] [] := by
  rcases carry with _ | _ | _
  · exact .nil
  · exact .of_still rfl
  · exact .of_still rfl

theorem takeResult_runs {c : Carrier} {code : Code} (h : takeResult c = .ok code) :
    Runs symbols code [] [c.slot] := by
  unfold takeResult at h
  split at h <;> cases h
  · exact Runs.pushRegister _
  · exact .of_push rfl
  · exact (Runs.of_still (i := Opcode.carryToA.plain) rfl).append (Runs.pushRegister .a)

theorem savingX_runs {changes : Bool} {code : Code} {after : List Slot}
    (h : Runs symbols code [] after) : Runs symbols (savingX changes code) [] after := by
  unfold savingX
  split
  · exact ((Runs.of_still rfl).append h).append ((Runs.of_still rfl).onto after)
  · exact h

theorem machineCall_runs {s : Signature} {m : MachineConvention} {args : List Operand} {code : Code}
    (hs : symbols.find? s.name = some (.subroutine s)) (hm : s.machine = some m)
    (hfits : m.Fits s.returnTypes) (ha : ∀ a ∈ args, a.Sound symbols)
    (h : machineCall symbols s m args = .ok code) :
    Runs symbols code [] (s.returnTypes.map (·.slot)) := by
  simp only [machineCall, Lowered.check_ok_iff, Lowered.bind_ok_iff, Lowered.pure_ok_iff] at h
  obtain ⟨-, passed, hpassed, results, hresults, rfl⟩ := h
  have hargs : Runs symbols (passed.flatMap (·.1)) [] [] := by
    rw [List.flatMap_def]
    refine .flatten fun c hc => ?_
    obtain ⟨y, hy, rfl⟩ := List.mem_map.1 hc
    obtain ⟨⟨c, arg⟩, hmem, hp⟩ := Lowered.exists_of_mem_mapM hpassed hy
    exact passCarrier_runs (ha arg (List.of_mem_zip hmem).2) hp
  have hcall := call_runs hs
  simp only [hm, Option.isSome_some, if_true] at hcall
  have htake : Runs symbols results.flatten [] (m.returns.map (·.slot)) := by
    have hforall : List.Forall₂ (fun c slot => Runs symbols c [] [slot]) results
        (m.returns.reverse.map (·.slot)) := by
      rw [List.forall₂_map_right_iff]
      exact ((Lowered.mapM_ok_iff.1 hresults).imp fun _ _ => takeResult_runs).flip
    have hrun := Runs.flatten_push hforall
    rwa [List.map_reverse, List.reverse_reverse] at hrun
  rw [hfits] at htake
  exact savingX_runs (((hargs.append (setCarry_runs _)).append hcall).append htake)

/-- A call leaves what the subroutine returns, the first result on top. -/
theorem subroutineCall_runs {s : Signature} {args : List Operand} {code : Code}
    (hs : symbols.find? s.name = some (.subroutine s)) (hfits : s.Fits)
    (ha : ∀ a ∈ args, a.Sound symbols) (h : subroutineCall symbols s args = .ok code) :
    Runs symbols code [] (s.returnTypes.map (·.slot)) := by
  unfold subroutineCall at h
  split at h
  next m hm => exact machineCall_runs hs hm (hfits m hm) ha h
  next hm => exact ordinaryCall_runs hs hm ha h

end StackCode
