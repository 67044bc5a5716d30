/-
The exchange of two places. Both are loaded, and then each is stored in the place of the other. The places are
found again for that, the second one when the first one has been stored already. If what tells its index or its
address is the first place, then it is not found where it was loaded from.
-/
import StackCode.Proofs.Places.Reference
import StackCode.Proofs.Storage.Arguments

namespace StackCode

variable {symbols : SymbolTable}

/-- Both places are loaded before the first one is stored. -/
theorem swapPlaces_refers {args : List Expr} {code : Code}
    (h : swapPlaces symbols (Expr.operands symbols args) = .ok code) :
    ∃ e e' p p' r r', args = [e, e'] ∧ Place.ofExpr? e = some p ∧ Place.ofExpr? e' = some p' ∧
      p.Refers symbols r ∧ p'.Refers symbols r' ∧ r.size = r'.size ∧
      code = r.loadCode ++ r'.loadCode ++ r.storeCode ++ r'.storeCode := by
  obtain ⟨e, e', rfl⟩ : ∃ e e', args = [e, e'] := by
    rw [Expr.operands_eq_map] at h
    rcases args with _ | ⟨e, _ | ⟨e', _ | _⟩⟩
    · cases h
    · cases h
    · exact ⟨e, e', rfl⟩
    · cases h
  simp only [Expr.operands, swapPlaces, Lowered.check_ok_iff, Lowered.bind_ok_iff, Expr.needType_ok_iff,
    Expr.expr_operand] at h
  obtain ⟨-, -, type, htype, type', htype', hsame, hnumeric, h⟩ := h
  obtain rfl := not_not.1 hsame
  obtain ⟨t, rfl⟩ : ∃ t, type = .num t := by
    cases type with
    | num t => exact ⟨t, rfl⟩
    | _ => exact absurd rfl hnumeric
  split at h
  next p p' hp hp' =>
    simp only [Lowered.bind_ok_iff, Lowered.pure_ok_iff] at h
    obtain ⟨read, hread, read', hread', write, hwrite, write', hwrite', rfl⟩ := h
    obtain ⟨r, hr, hsize, rfl, rfl⟩ := Place.exists_refers hp htype hread hwrite
    obtain ⟨r', hr', hsize', rfl, rfl⟩ := Place.exists_refers hp' htype' hread' hwrite'
    exact ⟨e, e', p, p', r, r', rfl, hp, hp', hr, hr', hsize.trans hsize'.symm, rfl⟩
  next => simp only [Lowered.throw_ok_iff] at h

namespace Machine

variable {W R : Type} {m : Machine W R} {r r' : Reference} {s : MachineState W R} {w : W} {l l' k : Location}

/-- Where two places are found, and where the second one is found again when the first one has been stored. -/
structure Found (m : Machine W R) (r r' : Reference) (w : W) (l l' k : Location) : Prop where
  first : m.locate? w r = some l
  second : m.locate? w r' = some l'
  again : m.locate? (m.put w l (m.get w l')) r' = some k

/-- What is stored at two locations goes to the other one each, but to `k` in place of the second one. -/
def exchange (m : Machine W R) (w : W) (l l' k : Location) : W := m.put (m.put w l (m.get w l')) k (m.get w l)

/-- The second place is found where it was, if the first location is not read to find it. -/
theorem Found.again_eq (h : m.Found r r' w l l' k) (hreads : ∀ i ∈ r'.inner, ∀ j, i.Reads j → m.Apart l j) :
    k = l' := by
  have hsame : m.locate? (m.put w l (m.get w l')) r' = m.locate? w r' :=
    locate?_congr fun i hi j hj => m.get_put_apart _ _ _ _ (hreads i hi j hj)
  exact Option.some.inj (h.again.symm.trans (hsame.trans h.second))

/-- What is stored at both is exchanged then, unless they overlap in part. -/
theorem Found.exchanged (h : m.Found r r' w l l' k) (hsize : r.size = r'.size) (hk : k = l')
    (hapart : l' = l ∨ m.Apart l' l) : m.Exchanged l l' w (m.exchange w l l' k) := by
  subst hk
  refine exchanged_put ?_ hapart
  rw [size_of_locate? h.first, size_of_locate? h.second, hsize]

/-- What is apart from where something is stored is as it was. -/
theorem get_exchange_apart {j : Location} (hk : m.Apart k j) (hl : m.Apart l j) :
    m.get (m.exchange w l l' k) j = m.get w j := by
  rw [exchange, m.get_put_apart _ _ _ _ hk, m.get_put_apart _ _ _ _ hl]

/-- Each place is found twice. -/
theorem run_swapCode : m.run (r.loadCode ++ r'.loadCode ++ r.storeCode ++ r'.storeCode) s =
    (m.find? r s).bind fun (l, t) => (m.find? r' (m.load r l t)).bind fun (l', t') =>
      (m.find? r (m.load r' l' t')).bind fun (k, u) => (m.store? r.store k u).bind fun u' =>
        (m.find? r' u').bind fun (k', v) => m.store? r'.store k' v := by
  have hstore (r : Reference) :
      m.run r.storeCode = fun t => (m.find? r t).bind fun (l, u) => m.store? r.store l u :=
    funext fun _ => run_storeCode
  simp only [run_append, run_loadCode, hstore, Option.bind_map, Option.bind_assoc, Function.comp_def]

/-- Without calls the first place is found where it was, since nothing has been stored when it is found again. -/
theorem leaves_swapCode (hr : r.IsPure) (hr' : r'.IsPure) (hsize : r.size = r'.size) {stack : List Cell} :
    m.Leaves (r.loadCode ++ r'.loadCode ++ r.storeCode ++ r'.storeCode) s stack w ↔
      stack = s.stack ∧ ∃ l l' k, m.Found r r' s.stored l l' k ∧ w = m.exchange s.stored l l' k := by
  obtain ⟨stack₀, w₀, rest₀⟩ := s
  rw [leaves_append fun _ _ _ => hr'.leaves_store]
  simp only [leaves_append fun _ _ _ => hr.leaves_store, leaves_append fun _ _ _ => hr'.leaves_load,
    hr.leaves_load]
  -- the value of the second place is on top of the other one, so it is the one that goes to the first place
  constructor
  · rintro ⟨_, _, ⟨_, _, ⟨_, _, ⟨l, hl, rfl, rfl⟩, l', hl', rfl, rfl⟩, _, _, hl₂, hpop, -, rfl⟩,
      k, _, hk, hpop', -, rfl⟩
    cases hl.symm.trans hl₂
    cases hpop
    cases hpop'
    exact ⟨rfl, l, l', k, ⟨hl, hl', hk⟩, rfl⟩
  · rintro ⟨rfl, l, l', k, ⟨hl, hl', hk⟩, rfl⟩
    have hleft : (m.get w₀ l').size = l.size := by
      rw [m.size_get, size_of_locate? hl, size_of_locate? hl', hsize]
    have hright : (m.get w₀ l).size = k.size := by
      rw [m.size_get, size_of_locate? hl, size_of_locate? hk, hsize]
    exact ⟨_, _, ⟨_, _, ⟨_, _, ⟨l, hl, rfl, rfl⟩, l', hl', rfl, rfl⟩, l, _, hl, rfl, hleft, rfl⟩,
      k, _, hk, rfl, hright, rfl⟩

end Machine

/-- **An exchange finds its second place again when the first one has been stored.** Each place is found twice, to
be loaded and to be stored. Without calls in the indices and addresses the first place is found where it was, and
what is stored at the second location goes there. What was stored at the first one goes to the second location
if the first one is not read to find the second place, and the two are exchanged then unless they overlap in
part. If the second place is found apart from where it was, then its location is as it was. -/
theorem SymbolTable.swap_finds_twice {target : String} {b : Builtin} {args : List Expr} {code : Code}
    (hfree : symbols.find? target = none) (hb : Builtin.find? target = some b) (hswap : b.method = .swap)
    (h : symbols.CallCode target args code) :
    ∃ e e' p p' r r', args = [e, e'] ∧ Place.ofExpr? e = some p ∧ Place.ofExpr? e' = some p' ∧
      p.Refers symbols r ∧ p'.Refers symbols r' ∧
      code = r.loadCode ++ r'.loadCode ++ r.storeCode ++ r'.storeCode ∧
      ∀ {W R : Type} (m : Machine W R) (s : MachineState W R),
        (∀ s', m.run code s = some s' ↔ ∃ l t₁ l' t₂ k t₃ t₄ k' t₅, m.find? r s = some (l, t₁) ∧
          m.find? r' (m.load r l t₁) = some (l', t₂) ∧ m.find? r (m.load r' l' t₂) = some (k, t₃) ∧
          m.store? r.store k t₃ = some t₄ ∧ m.find? r' t₄ = some (k', t₅) ∧ m.store? r'.store k' t₅ = some s') ∧
        (e.IsCallFree symbols → e'.IsCallFree symbols → ∀ stack w, m.Leaves code s stack w ↔ stack = s.stack ∧
          ∃ l l' k, m.Found r r' s.stored l l' k ∧ w = m.exchange s.stored l l' k) ∧
        ∀ l l' k, m.Found r r' s.stored l l' k →
          ((∀ i ∈ r'.inner, ∀ j, i.Reads j → m.Apart l j) → k = l') ∧
          (k = l' → l' = l ∨ m.Apart l' l → m.Exchanged l l' s.stored (m.exchange s.stored l l' k)) ∧
          (m.Apart k l' → m.Apart l l' → m.get (m.exchange s.stored l l' k) l' = m.get s.stored l') := by
  have hreg := Builtin.isRegular_of_mem b (List.mem_of_find?_eq_some hb)
  simp only [Builtin.isRegular, hswap, decide_eq_true_eq] at hreg
  have hcall := h.builtin hfree hb hreg
  simp only [builtinCall, hswap] at hcall
  obtain ⟨e, e', p, p', r, r', rfl, hp, hp', hr, hr', hsize, rfl⟩ := swapPlaces_refers hcall
  refine ⟨e, e', p, p', r, r', rfl, hp, hp', hr, hr', rfl, fun m s => ⟨fun s' => ?_, ?_, fun l l' k hfound => ?_⟩⟩
  · rw [Machine.run_swapCode]
    simp only [Option.bind_eq_some_iff, Prod.exists, exists_and_left]
  · exact fun he he' stack w => Machine.leaves_swapCode (hr.isPure hp he) (hr'.isPure hp' he') hsize
  · exact ⟨hfound.again_eq, hfound.exchanged hsize, Machine.get_exchange_apart⟩

/-- An index, and the element that it tells. -/
def selfIndexed : List Expr := [.var "main.i", .element "main.a" (.var "main.i")]

/-- The index is 1, and everything else is 3. -/
def indexOne : Contents := .ofNats fun l => if l.spot = .slot "main.i" then 1 else 3

/-- The index gets what is stored in element 1. What was the index goes to element 3 then, and element 1 keeps what
is stored there. -/
theorem selfIndexed_strays : ∃ code w, indexedSymbols.CallCode "swap" selfIndexed code ∧
    sampleMachine.Leaves code ⟨[], indexOne, 0⟩ [] w ∧ w.1 ⟨.byte, .slot "main.i"⟩ = .int .byte 3 ∧
    w.1 ⟨.byte, .element "main.a" 1⟩ = .int .byte 3 ∧ w.1 ⟨.byte, .element "main.a" 3⟩ = .int .byte 1 := by
  have hcall : indexedSymbols.CallCode "swap" selfIndexed _ := .statement rfl
  obtain ⟨e, e', p, p', r, r', hargs, hp, hp', hr, hr', hcode, hruns⟩ :=
    SymbolTable.swap_finds_twice (b := ⟨"swap", [.numeric, .numeric], .nothing, .swap⟩) rfl rfl rfl hcall
  cases hargs
  have hindex : (Expr.var "main.i").IsCallFree indexedSymbols := fun _ _ h => by simp [Expr.withInner] at h
  have helement : (Expr.element "main.a" (.var "main.i")).IsCallFree indexedSymbols :=
    fun _ _ h => by simp [Expr.withInner] at h
  have hleaves := (hruns sampleMachine ⟨[], indexOne, 0⟩).2.1 hindex helement
  cases hp
  cases hp'
  cases hr with
  | mapped found type memory =>
    cases found
    cases memory
  | var found type plain =>
    cases found
    cases type
    cases hr' with
    | element found type lowered =>
      cases found
      cases type
      cases lowered
      exact ⟨_, _, hcall, (hleaves _ _).2 ⟨rfl, _, _, _, ⟨rfl, rfl, rfl⟩, rfl⟩, rfl, rfl, rfl⟩

end StackCode
