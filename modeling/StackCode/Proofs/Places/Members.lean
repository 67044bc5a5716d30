/-
A struct literal is stored member by member. Each member has its turn: its value is computed, brought to the type of
the member, and stored, before it is the turn of the next member. So a value is computed from what the turns before
it have stored. It is the value from before all turns, if it has no calls and reads no member that comes before.
-/
import StackCode.Proofs.Places.Reference

namespace StackCode

variable {symbols : SymbolTable}

/-! ## Turns -/

/-- The code for a value, and the instruction that stores it at a location. -/
structure Turn where
  value : Code
  store : Instruction
  location : Location
  stores : store.role? = some (.store location.size (.fixed location.spot))

namespace Turn

def slot (value : Code) (name : String) (z : Size) : Turn where
  value := value
  store := (Opcode.popVar z).named name
  location := ⟨z, .slot name⟩
  stores := Instruction.role?_popVar z name

def mapped (value : Code) (address : UInt16) (z : Size) : Turn where
  value := value
  store := (Opcode.popMem z).addressed address
  location := ⟨z, .memory address.toNat⟩
  stores := Instruction.role?_popMem z address

def code (t : Turn) : Code := t.value ++ [t.store]

/-- The turn of a member of a struct: the value, as one of the type of the member, goes to where the member is
stored. -/
inductive IsOf (symbols : SymbolTable) (struct : String) : String × Expr → Turn → Prop where
  | plain {member : String} {value : Expr} {info : VariableInfo} {z : Size} {code : Code}
    (found : symbols.var? (memberName struct member) = some info) (plain : info.storage = .plain)
    (size : info.type.stackSize? = some z) (lowered : (value.operand symbols).pushAs symbols info.type = .ok code) :
    IsOf symbols struct (member, value) (.slot code (memberName struct member) z)
  | mapped {member : String} {value : Expr} {info : VariableInfo} {address : UInt16} {z : Size} {code : Code}
    (found : symbols.var? (memberName struct member) = some info) (memory : info.storage = .memory address)
    (size : info.type.stackSize? = some z) (lowered : (value.operand symbols).pushAs symbols info.type = .ok code) :
    IsOf symbols struct (member, value) (.mapped code address z)

end Turn

/-- The code for a value without calls leaves one value of the type that is asked for. -/
theorem Expr.pushAs_yields {e : Expr} {t : DataType} {code : Code} (hfree : e.IsCallFree symbols)
    (h : (e.operand symbols).pushAs symbols t = .ok code) : code.Yields := by
  simp only [Operand.pushAs, Lowered.bind_ok_iff] at h
  obtain ⟨source, -, c, hc, h⟩ := h
  have hyields : c.Yields := Expr.code_yields hfree hc
  split at h
  · cases h
    exact hyields
  · simp only [Lowered.bind_ok_iff, Lowered.pure_ok_iff] at h
    obtain ⟨op, hop, rfl⟩ := h
    exact hyields.optional fun o ho => DataType.role?_widening (ho ▸ hop)

theorem Turn.IsOf.yields {struct : String} {x : String × Expr} {t : Turn} (h : t.IsOf symbols struct x)
    (hfree : x.2.IsCallFree symbols) : t.value.Yields := by
  cases h with
  | plain _ _ _ lowered | mapped _ _ _ lowered => exact Expr.pushAs_yields hfree lowered

theorem assignCode_member {struct member : String} {value : Expr} {code : Code}
    (h : assignCode symbols (.var (memberName struct member)) value = .ok code) :
    ∃ t : Turn, t.IsOf symbols struct (member, value) ∧ code = t.code := by
  simp only [assignCode, Operand.assign, Place.write, writeVar, Lowered.bind_ok_iff, Lowered.pure_ok_iff,
    SymbolTable.needVar_ok_iff] at h
  obtain ⟨type, htype, c, hc, store, ⟨info, hinfo, hstore⟩, rfl⟩ := h
  obtain rfl : info.type = type := by
    simpa only [Place.needType, Place.type?, hinfo, Option.map_some, Except.ok.injEq] using htype
  cases hstorage : info.storage with
  | plain =>
    simp only [hstorage, Lowered.bind_ok_iff, Lowered.pure_ok_iff, Opcode.popVarFor, orInvalid_ok_iff,
      Option.map_eq_some_iff] at hstore
    obtain ⟨_, ⟨z, hz, rfl⟩, rfl⟩ := hstore
    exact ⟨_, .plain hinfo hstorage hz hc, rfl⟩
  | memory address =>
    simp only [hstorage, Lowered.bind_ok_iff, Lowered.pure_ok_iff, Opcode.popMemFor, orInvalid_ok_iff,
      Option.map_eq_some_iff] at hstore
    obtain ⟨_, ⟨z, hz, rfl⟩, rfl⟩ := hstore
    exact ⟨_, .mapped hinfo hstorage hz hc, rfl⟩
  | const =>
    rw [hstorage] at hstore
    cases hstore

theorem assignCode_members {struct : String} {xs : List (String × Expr)} {codes : List Code}
    (h : List.Forall₂ (fun x code => assignCode symbols (.var (memberName struct x.1)) x.2 = .ok code) xs codes) :
    ∃ turns, List.Forall₂ (fun x (t : Turn) => t.IsOf symbols struct x) xs turns ∧ codes = turns.map Turn.code := by
  induction h with
  | nil => exact ⟨[], .nil, rfl⟩
  | cons hx _ ih =>
    obtain ⟨t, ht, rfl⟩ := assignCode_member hx
    obtain ⟨turns, hturns, rfl⟩ := ih
    exact ⟨t :: turns, .cons ht hturns, rfl⟩

/-- The code is one turn for each member. -/
theorem structAssignCode_ok {p : Place} {values : List Expr} {code : Code}
    (h : structAssignCode symbols p values = .ok code) :
    ∃ struct info turns, p = .var struct ∧ symbols.var? struct = some info ∧ info.type = .struct ∧
      info.members.length = values.length ∧ List.Forall₂ (fun x (t : Turn) => t.IsOf symbols struct x)
        (info.members.zip values) turns ∧ code = turns.flatMap Turn.code := by
  unfold structAssignCode at h
  split at h
  next struct =>
    split at h
    next storage length members hinfo =>
      simp only [Lowered.check_ok_iff, Lowered.bind_ok_iff, Lowered.pure_ok_iff, not_not] at h
      obtain ⟨hlength, codes, hcodes, rfl⟩ := h
      obtain ⟨turns, hturns, rfl⟩ := assignCode_members (Lowered.mapM_ok_iff.1 hcodes)
      exact ⟨struct, _, turns, rfl, hinfo, rfl, hlength, hturns, List.flatMap_def.symm⟩
    next => simp only [Lowered.throw_ok_iff] at h
  next => simp only [Lowered.throw_ok_iff] at h

/-! ## Runs -/

namespace Machine

variable {W R : Type} (m : Machine W R)

def turn? (t : Turn) (s : MachineState W R) : Option (MachineState W R) :=
  (m.run t.value s).bind (m.store? t.store t.location)

def turns? (turns : List Turn) (s : MachineState W R) : Option (MachineState W R) :=
  turns.foldlM (fun s t => m.turn? t s) s

/-- The turns do not store there, and what is computed for them from this state on leaves it as it is. -/
def LeavesAlone (l : Location) : List Turn → MachineState W R → Prop
  | [], _ => True
  | t :: turns, s => m.Apart t.location l ∧ ∀ u, m.run t.value s = some u →
    m.get u.stored l = m.get s.stored l ∧ ∀ v, m.store? t.store t.location u = some v → LeavesAlone l turns v

/-- A turn without calls, as far as it changes what is stored. -/
def assign? (t : Turn) (w : W) : Option W :=
  (m.cell? w t.value).bind fun c => if c.size = t.location.size then some (m.put w t.location c) else none

def assignEach? (turns : List Turn) (w : W) : Option W := turns.foldlM (fun w t => m.assign? t w) w

/-- After the turns a member has the value that was computed in its turn, from what the turns before it have left,
if the later turns leave it alone. So is what all turns leave alone. -/
structure AssignsEach (turns : List Turn) (s s' : MachineState W R) : Prop where
  member : ∀ before t after, turns = before ++ t :: after → ∃ u v u', m.turns? before s = some u ∧
    m.run t.value u = some v ∧ m.store? t.store t.location v = some u' ∧
    (m.LeavesAlone t.location after u' → v.stack.head? = some (m.get s'.stored t.location))
  others : ∀ l, m.LeavesAlone l turns s → m.get s'.stored l = m.get s.stored l

/-- After turns without calls a member has the value that it had in its turn, and the one that it had before all
turns if it reads nothing that the turns before it store. What is apart from the members is as it was. -/
structure AssignsValues (turns : List Turn) (w w' : W) : Prop where
  member : ∀ before t after, turns = before ++ t :: after → (∀ t' ∈ after, m.Apart t'.location t.location) →
    ∃ u, m.assignEach? before w = some u ∧ m.cell? u t.value = some (m.get w' t.location)
  unread : ∀ before t after, turns = before ++ t :: after → (∀ t' ∈ after, m.Apart t'.location t.location) →
    (∀ i ∈ t.value, ∀ l, i.Reads l → ∀ t' ∈ before, m.Apart t'.location l) →
    m.cell? w t.value = some (m.get w' t.location)
  others : ∀ l, (∀ t ∈ turns, m.Apart t.location l) → m.get w' l = m.get w l

variable {m} {t : Turn} {turns turns' before after : List Turn} {s s' u : MachineState W R} {l : Location} {w w' : W}

theorem run_turn : m.run t.code s = m.turn? t s := by
  rw [Turn.code, run_append, turn?]
  exact Option.bind_congr fun u _ => run_store t.stores

theorem turns?_cons : m.turns? (t :: turns) s = (m.turn? t s).bind (m.turns? turns) := rfl

theorem turns?_append : m.turns? (turns ++ turns') s = (m.turns? turns s).bind (m.turns? turns') :=
  List.foldlM_append

theorem run_turns : m.run (turns.flatMap Turn.code) s = m.turns? turns s := by
  induction turns generalizing s with
  | nil => rfl
  | cons t turns ih =>
    rw [List.flatMap_cons, run_append, run_turn, turns?_cons]
    exact Option.bind_congr fun u _ => ih

theorem LeavesAlone.get_eq (halone : m.LeavesAlone l turns s) (h : m.turns? turns s = some s') :
    m.get s'.stored l = m.get s.stored l := by
  induction turns generalizing s with
  | nil =>
    cases h
    rfl
  | cons t turns ih =>
    obtain ⟨v, hv, h⟩ := Option.bind_eq_some_iff.1 h
    obtain ⟨u, hu, hstore⟩ := Option.bind_eq_some_iff.1 hv
    obtain ⟨hapart, hvalue⟩ := halone
    obtain ⟨hkept, halone⟩ := hvalue u hu
    obtain ⟨c, _, -, -, hput⟩ := store?_eq_some_iff.1 hstore
    calc m.get s'.stored l = m.get v.stored l := ih (halone v hstore) h
      _ = m.get u.stored l := by rw [hput, m.get_put_apart _ _ _ _ hapart]
      _ = m.get s.stored l := hkept

/-- What turns make of each location. -/
theorem turns?_assignsEach (h : m.turns? turns s = some s') : m.AssignsEach turns s s' where
  member before t after heq := by
    rw [heq, turns?_append] at h
    obtain ⟨u, hu, h⟩ := Option.bind_eq_some_iff.1 h
    obtain ⟨u', hu', h⟩ := Option.bind_eq_some_iff.1 h
    obtain ⟨v, hv, hstore⟩ := Option.bind_eq_some_iff.1 hu'
    refine ⟨u, v, u', hu, hv, hstore, fun halone => ?_⟩
    obtain ⟨c, stack, hstack, hsize, hput⟩ := store?_eq_some_iff.1 hstore
    rw [halone.get_eq h, hput, m.get_put _ _ _ hsize, hstack, List.head?_cons]
  others _ halone := halone.get_eq h

/-! ## Values without calls -/

theorem assign?_eq_some_iff : m.assign? t w = some w' ↔
    ∃ c, m.cell? w t.value = some c ∧ c.size = t.location.size ∧ w' = m.put w t.location c := by
  simp only [assign?, Option.bind_eq_some_iff, Option.ite_none_right_eq_some, Option.some.injEq, eq_comm (a := w')]

theorem assignEach?_cons : m.assignEach? (t :: turns) w = (m.assign? t w).bind (m.assignEach? turns) := rfl

theorem assignEach?_append :
    m.assignEach? (turns ++ turns') w = (m.assignEach? turns w).bind (m.assignEach? turns') :=
  List.foldlM_append

theorem leaves_turn (h : t.value.Yields) {stack stack' : List Cell} {rest : R} :
    m.Leaves t.code ⟨stack, w, rest⟩ stack' w' ↔ stack' = stack ∧ m.assign? t w = some w' := by
  have hstore (stack₁ : List Cell) (w₁ : W) (rest₁ : R) : m.Leaves [t.store] ⟨stack₁, w₁, rest₁⟩ stack' w' ↔
      ∃ c, stack₁ = c :: stack' ∧ c.size = t.location.size ∧ w' = m.put w₁ t.location c := by
    simp only [Leaves, run_store t.stores, store?_eq_some_iff]
    constructor
    · rintro ⟨_, c, _, rfl, hsize, heq⟩
      cases heq
      exact ⟨c, rfl, hsize, rfl⟩
    · rintro ⟨c, rfl, hsize, rfl⟩
      exact ⟨_, c, _, rfl, hsize, rfl⟩
  rw [Turn.code, leaves_append hstore, assign?_eq_some_iff]
  simp only [h.leaves]
  constructor
  · rintro ⟨_, _, ⟨c, hc, rfl, rfl⟩, _, heq, hsize, rfl⟩
    cases heq
    exact ⟨rfl, c, hc, hsize, rfl⟩
  · rintro ⟨rfl, c, hc, hsize, rfl⟩
    exact ⟨_, _, ⟨c, hc, rfl, rfl⟩, c, rfl, hsize, rfl⟩

theorem leaves_turns (h : ∀ t ∈ turns, t.value.Yields) {stack stack' : List Cell} {rest : R} :
    m.Leaves (turns.flatMap Turn.code) ⟨stack, w, rest⟩ stack' w' ↔
      stack' = stack ∧ m.assignEach? turns w = some w' := by
  induction turns generalizing stack w rest with
  | nil => simp [Leaves, run, assignEach?, eq_comm]
  | cons t turns ih =>
    have htail : ∀ t ∈ turns, t.value.Yields := fun t' ht' => h t' (List.mem_cons_of_mem _ ht')
    rw [List.flatMap_cons, leaves_append fun _ _ _ => ih htail, assignEach?_cons]
    simp only [leaves_turn (h t List.mem_cons_self), Option.bind_eq_some_iff]
    constructor
    · rintro ⟨_, v, ⟨rfl, hv⟩, rfl, htail⟩
      exact ⟨rfl, v, hv, htail⟩
    · rintro ⟨rfl, v, hv, htail⟩
      exact ⟨_, v, ⟨rfl, hv⟩, rfl, htail⟩

theorem get_of_assignEach? (h : m.assignEach? turns w = some w') (hl : ∀ t ∈ turns, m.Apart t.location l) :
    m.get w' l = m.get w l := by
  induction turns generalizing w with
  | nil =>
    cases h
    rfl
  | cons t turns ih =>
    obtain ⟨v, hv, h⟩ := Option.bind_eq_some_iff.1 h
    obtain ⟨c, -, -, rfl⟩ := assign?_eq_some_iff.1 hv
    rw [ih h fun t' ht' => hl t' (List.mem_cons_of_mem _ ht'),
      m.get_put_apart _ _ _ _ (hl t List.mem_cons_self)]

/-- What turns without calls make of each location. -/
theorem assignEach?_assignsValues (h : m.assignEach? turns w = some w') : m.AssignsValues turns w w' := by
  have hmember : ∀ before t after, turns = before ++ t :: after → (∀ t' ∈ after, m.Apart t'.location t.location) →
      ∃ u, m.assignEach? before w = some u ∧ m.cell? u t.value = some (m.get w' t.location) := by
    rintro before t after rfl hafter
    rw [assignEach?_append] at h
    obtain ⟨u, hu, h⟩ := Option.bind_eq_some_iff.1 h
    obtain ⟨v, hv, h⟩ := Option.bind_eq_some_iff.1 h
    obtain ⟨c, hc, hsize, rfl⟩ := assign?_eq_some_iff.1 hv
    exact ⟨u, hu, by rw [get_of_assignEach? h hafter, m.get_put _ _ _ hsize, hc]⟩
  -- what a value reads is as it was before all turns, since the turns before its own store elsewhere
  refine ⟨hmember, fun before t after heq hafter hreads => ?_, fun l hl => get_of_assignEach? h hl⟩
  obtain ⟨u, hu, hvalue⟩ := hmember before t after heq hafter
  rw [← hvalue]
  exact cell?_congr fun i hi l hl => (get_of_assignEach? hu (hreads i hi l hl)).symm

end Machine

/-- **A struct literal is one assignment for each member, one after the other.** Each member is given what its
value is after the assignments before it, and has it when all are done, if the later assignments leave it alone.
With values that have no calls, all that is changed is what is stored in the members, and a value that reads none
of the members before its own is what it was before the whole assignment. -/
theorem structAssignCode_assigns_each {p : Place} {values : List Expr} {code : Code}
    (h : structAssignCode symbols p values = .ok code) :
    ∃ struct info turns, p = .var struct ∧ symbols.var? struct = some info ∧ info.type = .struct ∧
      info.members.length = values.length ∧
      List.Forall₂ (fun x (t : Turn) => t.IsOf symbols struct x) (info.members.zip values) turns ∧
      ∀ {W R : Type} (m : Machine W R) (s : MachineState W R),
        m.run code s = m.turns? turns s ∧ (∀ s', m.run code s = some s' → m.AssignsEach turns s s') ∧
        ((∀ e ∈ values, e.IsCallFree symbols) →
          (∀ stack w, m.Leaves code s stack w ↔ stack = s.stack ∧ m.assignEach? turns s.stored = some w) ∧
          ∀ stack w, m.Leaves code s stack w → m.AssignsValues turns s.stored w) := by
  obtain ⟨struct, info, turns, rfl, hinfo, htype, hlength, hturns, rfl⟩ := structAssignCode_ok h
  refine ⟨struct, info, turns, rfl, hinfo, htype, hlength, hturns, fun m s =>
    ⟨Machine.run_turns, fun s' hrun => ?_, fun hfree => ?_⟩⟩
  · exact Machine.turns?_assignsEach (Machine.run_turns ▸ hrun)
  · have hyields : ∀ t ∈ turns, t.value.Yields := by
      intro t ht
      obtain ⟨x, hx, hxt⟩ := exists_of_mem_right hturns ht
      exact hxt.yields (hfree _ (List.of_mem_zip hx).2)
    have hleaves : ∀ stack w, m.Leaves (turns.flatMap Turn.code) s stack w ↔
        stack = s.stack ∧ m.assignEach? turns s.stored = some w := fun _ _ => Machine.leaves_turns hyields
    exact ⟨hleaves, fun stack w hw => Machine.assignEach?_assignsValues ((hleaves stack w).1 hw).2⟩

/-- A point with two bytes. -/
def pointSymbols : SymbolTable :=
  .ofDeclarations
    [.var ⟨"main.p", .struct, .plain, none, ["x", "y"], {}⟩, .var ⟨"main.p$x", .ubyte, .plain, none, [], {}⟩,
      .var ⟨"main.p$y", .ubyte, .plain, none, [], {}⟩]

/-- The point is at 1 and 2. -/
def unevenPoint : Contents := .ofNats fun l => if l.spot = .slot "main.p$x" then 1 else 2

def movedPoint : List Expr := [.var "main.p$y", .number (.wrapped .ubyte 5)]

theorem movedPoint_moves : ∃ code w, structAssignCode pointSymbols (.var "main.p") movedPoint = .ok code ∧
    sampleMachine.Leaves code ⟨[], unevenPoint, 0⟩ [] w ∧ w.1 ⟨.byte, .slot "main.p$x"⟩ = .int .byte 2 ∧
    w.1 ⟨.byte, .slot "main.p$y"⟩ = .int .byte 5 := by
  have hcode : structAssignCode pointSymbols (.var "main.p") movedPoint = .ok _ := rfl
  obtain ⟨struct, info, turns, hp, hinfo, -, -, hturns, hruns⟩ := structAssignCode_assigns_each hcode
  cases hp
  cases hinfo
  have hfree : ∀ e ∈ movedPoint, e.IsCallFree pointSymbols := by
    intro e he target args h
    rcases List.mem_pair.1 he with rfl | rfl <;> simp [Expr.withInner] at h
  have hleaves := ((hruns sampleMachine ⟨[], unevenPoint, 0⟩).2.2 hfree).1
  cases hturns with
  | cons hx hturns =>
    cases hturns with
    | cons hy hturns =>
      cases hturns
      cases hx with
      | mapped found memory => cases found; cases memory
      | plain found _ size lowered =>
        cases found
        cases size
        cases lowered
        cases hy with
        | mapped found memory => cases found; cases memory
        | plain found _ size lowered =>
          cases found
          cases size
          cases lowered
          exact ⟨_, _, hcode, (hleaves _ _).2 ⟨rfl, rfl⟩, rfl, rfl⟩

def turnedPoint : List Expr := [.var "main.p$y", .var "main.p$x"]

/-- The members are not exchanged: the second one is given what the first one has been given. -/
theorem turnedPoint_levels : ∃ code w value,
    structAssignCode pointSymbols (.var "main.p") turnedPoint = .ok code ∧
    sampleMachine.Leaves code ⟨[], unevenPoint, 0⟩ [] w ∧
    ((Expr.var "main.p$x").operand pointSymbols).pushAs pointSymbols .ubyte = .ok value ∧
    sampleMachine.cell? unevenPoint value ≠ some (w.1 ⟨.byte, .slot "main.p$y"⟩) :=
  ⟨_, _, _, rfl, ⟨_, rfl⟩, rfl, by decide⟩

end StackCode
