/-
Shifts and rotations of a place. What is stored there is loaded, shifted, and stored again, and the place is
found a second time for that. Without calls in its index or address it is the same place. With a call in it the
call is carried out twice, and what was loaded from one place can be stored in another.
-/
import StackCode.Proofs.Places.Reference
import StackCode.Proofs.Storage.Arguments

namespace StackCode

variable {symbols : SymbolTable}

theorem Opcode.role?_inPlace (shift : InPlaceShift) (t : IntType) :
    (inPlace shift t).plain.role? = some (.shift (inPlace shift t)) := by
  cases shift <;> rfl

/-- What is loaded is shifted, and stored in the place again. -/
theorem shiftInPlace_refers {name : String} {shift : InPlaceShift} {e : Expr} {code : Code}
    (h : shiftInPlace symbols name shift (e.operand symbols) = .ok code) :
    ∃ p r t, Place.ofExpr? e = some p ∧ p.Refers symbols r ∧ e.type? symbols = some (.int t) ∧
      r.size = .int t.size ∧ code = r.loadCode ++ [(Opcode.inPlace shift t).plain] ++ r.storeCode := by
  simp only [shiftInPlace, Expr.expr_operand] at h
  split at h
  next => simp only [Lowered.throw_ok_iff] at h
  next p hp =>
    simp only [Lowered.bind_ok_iff, Lowered.pure_ok_iff, Expr.needType_ok_iff, Opcode.inPlaceFor,
      orInvalid_ok_iff] at h
    obtain ⟨type, htype, op, hop, read, hread, write, hwrite, rfl⟩ := h
    obtain ⟨t, ht, rfl⟩ := Option.map_eq_some_iff.1 hop
    obtain rfl : type = .int t := by
      unfold DataType.int? at ht
      split at ht <;> cases ht
      rfl
    obtain ⟨r, hr, hsize, rfl, rfl⟩ := Place.exists_refers hp htype hread hwrite
    exact ⟨p, r, t, hp, hr, htype, hsize, rfl⟩

namespace Machine

variable {W R : Type} {m : Machine W R} {r : Reference} {op : Opcode} {s : MachineState W R}

/-- The place is found, and found again behind the shift. -/
theorem run_shiftCode (hop : op.plain.role? = some (.shift op)) :
    m.run (r.loadCode ++ [op.plain] ++ r.storeCode) s = (m.find? r s).bind fun (l, t) =>
      (m.shift? op (m.load r l t)).bind fun u => (m.find? r u).bind fun (k, v) => m.store? r.store k v := by
  rw [run_append, run_append, run_loadCode, Option.bind_map, Option.bind_assoc]
  refine Option.bind_congr fun found _ => ?_
  rw [Function.comp_apply, run_singleton, step?, hop]
  exact Option.bind_congr fun u _ => run_storeCode

/-- A place that is found from what is stored alone is found where it was. -/
theorem leaves_shiftCode (hop : op.plain.role? = some (.shift op)) (hr : r.IsPure) {stack : List Cell} {w : W} :
    m.Leaves (r.loadCode ++ [op.plain] ++ r.storeCode) s stack w ↔ stack = s.stack ∧ ∃ l t c,
      m.locate? s.stored r = some l ∧ m.find? r s = some (l, t) ∧
      (m.shift op (m.load r l t).rest (m.get s.stored l)).map Prod.fst = some c ∧ w = m.put s.stored l c := by
  unfold Leaves
  rw [run_shiftCode hop]
  constructor
  · rintro ⟨rest, hrun⟩
    obtain ⟨⟨l, t⟩, hfind, hrun⟩ := Option.bind_eq_some_iff.1 hrun
    obtain ⟨u, hshift, hrun⟩ := Option.bind_eq_some_iff.1 hrun
    obtain ⟨⟨k, v⟩, hfind', hstore⟩ := Option.bind_eq_some_iff.1 hrun
    obtain ⟨hl, hstack, hstored⟩ := hr.of_find hfind
    obtain ⟨⟨c, flags⟩, hc, rfl⟩ := Option.map_eq_some_iff.1 hshift
    obtain ⟨hk, hstack', hstored'⟩ := hr.of_find hfind'
    -- nothing has been stored when the place is found again
    dsimp only [load] at hk hstack' hstored'
    rw [hstored] at hk hstored'
    cases hl.symm.trans hk
    obtain ⟨_, _, hpop, -, heq⟩ := store?_eq_some_iff.1 hstore
    cases hstack'.symm.trans hpop
    cases heq
    refine ⟨hstack, l, t, c, hl, hfind, ?_, by rw [hstored']⟩
    rw [← hstored, hc]
    rfl
  · rintro ⟨rfl, l, t, _, hl, hfind, hshift, rfl⟩
    obtain ⟨-, hstack, hstored⟩ := hr.of_find hfind
    obtain ⟨⟨c, flags⟩, hc, rfl⟩ := Option.map_eq_some_iff.1 hshift
    obtain ⟨rest, hfind'⟩ := hr.exists_find (s := ⟨c :: s.stack, s.stored, flags⟩) hl
    have hload : m.shift? op (m.load r l t) = some ⟨c :: s.stack, s.stored, flags⟩ := by
      rw [← hstored] at hc
      simp only [shift?, load, hstack, hstored] at hc ⊢
      rw [hc]
      rfl
    have hsize : c.size = l.size := (m.size_shift _ _ _ _ _ hc).trans (m.size_get ..)
    refine ⟨m.note r.store s.stack rest, ?_⟩
    simp only [hfind, hload, hfind', Option.bind_some, store?_eq_some_iff]
    exact ⟨c, s.stack, rfl, hsize, rfl⟩

end Machine

/-- **A shift in place finds its place twice.** What was loaded from one location is shifted and stored at the
location that the place has when it is found again. Without calls in the index or the address this is the same
location, and nothing else that is stored has changed. -/
theorem SymbolTable.shift_finds_twice {target : String} {b : Builtin} {shift : InPlaceShift} {args : List Expr}
    {code : Code} (hfree : symbols.find? target = none) (hb : Builtin.find? target = some b)
    (hshift : b.method = .shift shift) (h : symbols.CallCode target args code) :
    ∃ e p r t, args = [e] ∧ Place.ofExpr? e = some p ∧ p.Refers symbols r ∧ e.type? symbols = some (.int t) ∧
      code = r.loadCode ++ [(Opcode.inPlace shift t).plain] ++ r.storeCode ∧
      ∀ {W R : Type} (m : Machine W R) (s : MachineState W R),
        (∀ s', m.run code s = some s' ↔ ∃ l t₁ t₂ l' t₃, m.find? r s = some (l, t₁) ∧
          m.shift? (Opcode.inPlace shift t) (m.load r l t₁) = some t₂ ∧ m.find? r t₂ = some (l', t₃) ∧
          m.store? r.store l' t₃ = some s') ∧
        (e.IsCallFree symbols → ∀ stack w, m.Leaves code s stack w ↔ stack = s.stack ∧ ∃ l t₁ c,
          m.locate? s.stored r = some l ∧ m.find? r s = some (l, t₁) ∧
          (m.shift (Opcode.inPlace shift t) (m.load r l t₁).rest (m.get s.stored l)).map Prod.fst = some c ∧
          w = m.put s.stored l c) := by
  have hreg := Builtin.isRegular_of_mem b (List.mem_of_find?_eq_some hb)
  simp only [Builtin.isRegular, hshift, Bool.and_eq_true, decide_eq_true_eq] at hreg
  have hcall := h.builtin hfree hb hreg.2
  simp only [builtinCall, hshift, Lowered.bind_ok_iff] at hcall
  obtain ⟨_, hcheck, hcall⟩ := hcall
  obtain ⟨hlen, -⟩ := checkArguments_ok_iff.1 hcheck
  obtain ⟨e, rfl⟩ : ∃ e, args = [e] := by
    rw [Expr.operands_eq_map, List.length_map, hreg.1] at hlen
    exact List.length_eq_one_iff.1 hlen
  simp only [Expr.operands, checkedCall, hshift] at hcall
  obtain ⟨p, r, t, hp, hr, ht, -, rfl⟩ := shiftInPlace_refers hcall
  refine ⟨e, p, r, t, rfl, hp, hr, ht, rfl, fun m s => ⟨fun s' => ?_, fun hcalls stack w => ?_⟩⟩
  · rw [Machine.run_shiftCode (Opcode.role?_inPlace shift t)]
    simp only [Option.bind_eq_some_iff, Prod.exists, exists_and_left]
  · exact Machine.leaves_shiftCode (Opcode.role?_inPlace shift t) (hr.isPure hp hcalls)

/-- The element that a call tells. -/
def drawnElement : Expr := .element "main.a" (.call "main.next" [])

/-- The call of the first time tells element 0, and the call of the second time element 1. -/
theorem drawnElement_strays : ∃ code s', indexedSymbols.CallCode "lsl" [drawnElement] code ∧
    sampleMachine.run code ⟨[], .ofNats fun _ => 5, 0⟩ = some s' ∧
    s'.stored.1 ⟨.byte, .element "main.a" 0⟩ = .int .byte 5 ∧
    s'.stored.1 ⟨.byte, .element "main.a" 1⟩ = .int .byte 10 := by
  have hcall : indexedSymbols.CallCode "lsl" [drawnElement] _ := .statement rfl
  obtain ⟨_, _, r, t, hargs, hp, hr, ht, hcode, hruns⟩ :=
    SymbolTable.shift_finds_twice (b := ⟨"lsl", [.inPlace], .nothing, .shift .shiftLeft⟩) rfl rfl rfl hcall
  cases hargs
  cases hp
  cases hr with
  | element found type lowered =>
    cases found
    cases type
    cases lowered
    cases ht
    exact ⟨_, _, hcall, ((hruns sampleMachine _).1 _).2 ⟨_, _, _, _, _, rfl, rfl, rfl, rfl⟩, rfl, rfl⟩

end StackCode
