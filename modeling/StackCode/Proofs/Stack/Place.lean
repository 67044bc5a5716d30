/-
The stack under the code that converts, reads, writes and steps. Which opcode is
chosen depends on a type; what the opcode does to the stack is what the slot of that
type asks for.
-/
import StackCode.Proofs.Stack.Effect

namespace StackCode

variable {symbols : SymbolTable}

/-! ## The choice of opcodes -/

namespace Opcode

variable {t : DataType} {op : Opcode}

theorem pushVarFor_effect (h : pushVarFor t = .ok op) : op.effect? = some { gives := [t.slot] } := by
  cases t <;> simp [pushVarFor] at h <;> subst h <;> rfl

theorem pushMemFor_effect (h : pushMemFor t = .ok op) : op.effect? = some { gives := [t.slot] } := by
  rw [pushMemFor, orInvalid_ok_iff] at h
  cases t <;> simp [DataType.num?] at h
  subst h
  rfl

/-- What stores or drops a value takes its slot. -/
theorem stackSize?_map {f : Size → Opcode} (hf : ∀ s, (f s).effect? = some (.pop s))
    (h : t.stackSize?.map f = some op) : ∃ s, t.slot = .sized s ∧ op.effect? = some (.pop s) := by
  obtain ⟨s, hs, rfl⟩ := Option.map_eq_some_iff.1 h
  exact ⟨s, DataType.slot_eq_sized.2 hs, hf s⟩

theorem readIndexedFor_effect (h : readIndexedFor t = .ok op) :
    ∃ e, t.element? = some e ∧ op.effect? = some { takes := [.any], gives := [.sized e.size] } := by
  rw [readIndexedFor, orInvalid_ok_iff] at h
  obtain ⟨e, he, rfl⟩ := Option.map_eq_some_iff.1 h
  exact ⟨e, he, rfl⟩

theorem writeIndexedFor_effect (h : writeIndexedFor t = .ok op) :
    ∃ e, t.element? = some e ∧ op.effect? = some { takes := [.any, .size e.size] } := by
  rw [writeIndexedFor, orInvalid_ok_iff] at h
  obtain ⟨e, he, rfl⟩ := Option.map_eq_some_iff.1 h
  exact ⟨e, he, rfl⟩

theorem stepVar_effect (i : Increment) (n : NumType) : (stepVar i n).effect? = some {} := by
  cases i <;> rfl

theorem stepVarFor_effect {i : Increment} (h : stepVarFor i t = .ok op) : op.effect? = some {} := by
  unfold stepVarFor at h
  rw [orInvalid_ok_iff] at h
  obtain ⟨n, -, rfl⟩ := Option.map_eq_some_iff.1 h
  exact stepVar_effect i n

theorem stepIndexedFor_effect {i : Increment} (h : stepIndexedFor i t = .ok op) :
    op.effect? = some { takes := [.any] } := by
  cases i <;> cases t <;> simp [stepIndexedFor] at h <;> subst h <;> rfl

theorem stepMemory_effect (i : Increment) : (stepMemory i).effect? = some {} := by
  cases i <;> rfl

theorem popStepMemory_effect (i : Increment) :
    (popStepMemory i).effect? = some { takes := [.any] } := by
  cases i <;> rfl

end Opcode

/-! ## Opcodes that may be left out -/

theorem NumType.size_eq_of_rank_eq {t u : NumType} (h : t.rank = u.rank) : t.size = u.size := by
  revert h
  unfold rank
  rcases t.size with (_ | _) | _ <;> rcases u.size with (_ | _) | _ <;> simp

namespace Runs

theorem cast? (t u : NumType) :
    Runs symbols ((Opcode.cast? t u).map Opcode.plain).toList [.sized t.size] [.sized u.size] := by
  unfold Opcode.cast?
  split
  next => exact of_turn rfl
  next h =>
    obtain rfl := not_not.1 h
    exact nil

theorem bothNumeric_ok {source target : DataType} {t u : NumType}
    (h : source.bothNumeric target = .ok (t, u)) : source = .num t ∧ target = .num u := by
  unfold DataType.bothNumeric at h
  split at h <;> simp_all

theorem widening {source target : DataType} {op : Option Opcode}
    (h : source.widening target = .ok op) :
    Runs symbols (op.map Opcode.plain).toList [source.slot] [target.slot] := by
  unfold DataType.widening at h
  split at h
  next heq =>
    cases h
    subst heq
    exact nil
  next =>
    simp only [Lowered.bind_ok_iff] at h
    obtain ⟨⟨t, u⟩, htu, h⟩ := h
    obtain ⟨rfl, rfl⟩ := bothNumeric_ok htu
    split at h
    next => simp only [Lowered.throw_ok_iff] at h
    next =>
      split at h
      next hr =>
        cases h
        simp only [DataType.slot, NumType.size_eq_of_rank_eq hr]
        exact nil
      next =>
        cases h
        exact cast? t u

theorem castOpcode {source target : DataType} {op : Option Opcode}
    (h : source.castOpcode target = .ok op) :
    Runs symbols (op.map Opcode.plain).toList [source.slot] [target.slot] := by
  simp only [DataType.castOpcode, Lowered.bind_ok_iff, Lowered.pure_ok_iff] at h
  obtain ⟨⟨t, u⟩, htu, rfl⟩ := h
  obtain ⟨rfl, rfl⟩ := bothNumeric_ok htu
  exact cast? t u

/-! ## Values and registers -/

theorem push (v : Value) : Runs symbols v.push [] [(DataType.num v.type).slot] := of_push rfl

theorem pushRegister (r : Register) : Runs symbols r.push [] [.sized .byte] := of_push rfl

theorem popRegister (r : Register) : Runs symbols r.pop [.sized .byte] [] := of_pop rfl

end Runs

/-! ## Reading -/

theorem readVar_runs {name : String} {t : DataType} {code : Code}
    (ht : (Expr.var name).type? symbols = some t) (h : readVar symbols name = .ok code) :
    Runs symbols code [] [t.slot] := by
  simp only [readVar, Lowered.bind_ok_iff, SymbolTable.needVar_ok_iff] at h
  obtain ⟨info, hinfo, h⟩ := h
  simp only [Expr.type?, hinfo, Option.map_some, Option.some.injEq] at ht
  subst ht
  split at h <;>
    simp only [Lowered.bind_ok_iff, Lowered.pure_ok_iff, Lowered.throw_ok_iff] at h
  · obtain ⟨op, hop, rfl⟩ := h
    exact .of_opcode (Opcode.pushVarFor_effect hop) .nil
  · obtain ⟨op, hop, rfl⟩ := h
    exact .of_opcode (Opcode.pushMemFor_effect hop) .nil

/-- The type of an element, where the array has elements. -/
theorem SymbolTable.elementType?_eq {array : String} {info : VariableInfo} {e : NumType}
    (hinfo : symbols.var? array = some info) (he : info.type.element? = some e) :
    symbols.elementType? array = some (.num e) := by
  simp [elementType?, hinfo, he]

theorem readElement_runs {array : String} {index : Lowered Code} {t : DataType} {code : Code}
    (ht : symbols.elementType? array = some t)
    (hi : ∀ c, index = .ok c → ∃ s, Runs symbols c [] [s])
    (h : readElement symbols array index = .ok code) : Runs symbols code [] [t.slot] := by
  simp only [readElement, Lowered.bind_ok_iff, SymbolTable.needVar_ok_iff, Lowered.pure_ok_iff] at h
  obtain ⟨info, hinfo, op, hop, c, hc, rfl⟩ := h
  obtain ⟨e, he, heff⟩ := Opcode.readIndexedFor_effect hop
  rw [SymbolTable.elementType?_eq hinfo he, Option.some.injEq] at ht
  subst ht
  obtain ⟨s, hs⟩ := hi c hc
  exact hs.append (.of_any heff)

theorem readMemory_runs {address : Expr} {inner : Lowered Code} {code : Code}
    (hi : ∀ c, inner = .ok c → ∃ s, Runs symbols c [] [s])
    (h : readMemory symbols address inner = .ok code) :
    Runs symbols code [] [.sized .byte] := by
  simp only [readMemory, Lowered.bind_ok_iff] at h
  obtain ⟨fixed, -, h⟩ := h
  split at h <;> simp only [Lowered.bind_ok_iff, Lowered.pure_ok_iff] at h
  · subst h
    exact .of_push rfl
  · obtain ⟨c, hc, rfl⟩ := h
    obtain ⟨s, hs⟩ := hi c hc
    exact hs.append (.of_any rfl)

theorem readAddress_runs {name : String} {code : Code} (h : readAddress symbols name = .ok code) :
    Runs symbols code [] [.sized .word] := by
  simp only [readAddress, Lowered.bind_ok_iff] at h
  obtain ⟨info, -, h⟩ := h
  split at h
  · simp only [Lowered.throw_ok_iff] at h
  · split at h
    · cases h
      exact .of_push rfl
    · simp only [Lowered.throw_ok_iff] at h
  · cases h
    exact .of_push rfl

/-! ## Writing and stepping -/

/-- The code for the index or the address leaves one value, whatever its size. -/
def Place.InnerRuns (symbols : SymbolTable) (p : Place) (inner : Lowered Code) : Prop :=
  match p with
  | .element _ _ | .memory _ => ∀ code, inner = .ok code → ∃ s, Runs symbols code [] [s]
  | _ => True

theorem writeVar_runs {name : String} {t : DataType} {code : Code}
    (ht : (Place.var name).type? symbols = some t) (h : writeVar symbols name = .ok code) :
    Runs symbols code [t.slot] [] := by
  simp only [writeVar, Lowered.bind_ok_iff, SymbolTable.needVar_ok_iff] at h
  obtain ⟨info, hinfo, h⟩ := h
  simp only [Place.type?, hinfo, Option.map_some, Option.some.injEq] at ht
  subst ht
  split at h <;>
    simp only [Opcode.popVarFor, Opcode.popMemFor, Lowered.bind_ok_iff, orInvalid_ok_iff,
      Lowered.pure_ok_iff, Lowered.throw_ok_iff] at h
  all_goals
    obtain ⟨op, hop, rfl⟩ := h
    obtain ⟨s, hs, heff⟩ := Opcode.stackSize?_map (fun _ => rfl) hop
    rw [hs]
    exact .of_pop heff

theorem Place.write_runs {p : Place} {inner : Lowered Code} {t : DataType} {code : Code}
    (ht : p.type? symbols = some t) (hi : p.InnerRuns symbols inner)
    (h : p.write symbols inner = .ok code) : Runs symbols code [t.slot] [] := by
  cases p with
  | var name => exact writeVar_runs ht h
  | register r =>
    cases h
    cases ht
    exact Runs.popRegister r
  | element array index =>
    simp only [write, Lowered.bind_ok_iff, SymbolTable.needVar_ok_iff, Lowered.pure_ok_iff] at h
    obtain ⟨info, hinfo, op, hop, c, hc, rfl⟩ := h
    obtain ⟨e, he, heff⟩ := Opcode.writeIndexedFor_effect hop
    rw [type?, SymbolTable.elementType?_eq hinfo he, Option.some.injEq] at ht
    subst ht
    obtain ⟨s, hs⟩ := hi c hc
    exact (hs.onto _).append (.of_any_pop heff)
  | memory address =>
    cases ht
    simp only [write, Lowered.bind_ok_iff] at h
    obtain ⟨fixed, -, h⟩ := h
    split at h <;> simp only [Lowered.bind_ok_iff, Lowered.pure_ok_iff] at h
    · subst h
      exact .of_pop rfl
    · obtain ⟨c, hc, rfl⟩ := h
      obtain ⟨s, hs⟩ := hi c hc
      exact (hs.onto _).append (.of_any_pop rfl)

theorem Place.step_runs {op : Increment} {p : Place} {inner : Lowered Code} {code : Code}
    (hi : p.InnerRuns symbols inner) (h : p.step symbols op inner = .ok code) :
    Runs symbols code [] [] := by
  cases p with
  | var name =>
    simp only [step, Lowered.bind_ok_iff, Lowered.check_ok_iff, Lowered.pure_ok_iff] at h
    obtain ⟨info, -, -, o, ho, rfl⟩ := h
    exact .of_still (Opcode.stepVarFor_effect ho)
  | register r =>
    cases h
    exact .of_still (Opcode.stepVar_effect op _)
  | element array index =>
    simp only [step, Lowered.bind_ok_iff, Lowered.pure_ok_iff] at h
    obtain ⟨info, -, o, ho, c, hc, rfl⟩ := h
    obtain ⟨s, hs⟩ := hi c hc
    exact hs.append (.of_any (Opcode.stepIndexedFor_effect ho))
  | memory address =>
    simp only [step, Lowered.bind_ok_iff] at h
    obtain ⟨fixed, -, h⟩ := h
    split at h <;> simp only [Lowered.bind_ok_iff, Lowered.pure_ok_iff] at h
    · subst h
      exact .of_still (Opcode.stepMemory_effect op)
    · obtain ⟨c, hc, rfl⟩ := h
      obtain ⟨s, hs⟩ := hi c hc
      exact hs.append (.of_any (Opcode.popStepMemory_effect op))

end StackCode
