/-
Code that leaves a value. The code of an expression without calls computes a value from what is stored, leaves
it on the stack, and changes nothing that is stored. The value depends on what is stored at the locations that
the code can read, and on nothing else.
-/
import StackCode.Proofs.Places.Machine
import StackCode.Proofs.Stack.Expr

namespace StackCode

/-! ## Code in postfix order -/

/-- The code leaves one value: each operator stands behind its operands, and each index and each address in front
of what needs it. -/
inductive Code.Yields : Code → Prop where
  | constant {i : Instruction} {v : Value} (role : i.role? = some (.constant v)) : Yields [i]
  | address {i : Instruction} {name : String} (role : i.role? = some (.address name)) : Yields [i]
  | load {i : Instruction} {z : Size} {spot : Spot} (role : i.role? = some (.load z (.fixed spot))) : Yields [i]
  | element {c : Code} {i : Instruction} {z : Size} {array : String} (index : Yields c)
      (role : i.role? = some (.load z (.element array))) : Yields (c ++ [i])
  | memory {c : Code} {i : Instruction} {z : Size} (address : Yields c) (role : i.role? = some (.load z .memory)) :
      Yields (c ++ [i])
  | turn {c : Code} {i : Instruction} {op : Opcode} (operand : Yields c) (role : i.role? = some (.turn op)) :
      Yields (c ++ [i])
  | merge {c c' : Code} {i : Instruction} {op : Opcode} (left : Yields c) (right : Yields c')
      (role : i.role? = some (.merge op)) : Yields (c ++ c' ++ [i])

namespace Machine

variable {W R : Type} (m : Machine W R)

/-- The stack behind code that reads at most. -/
def eval? (w : W) (code : Code) (stack : List Cell) : Option (List Cell) :=
  code.foldlM (fun stack i => i.role?.bind fun role => m.value? w role stack) stack

/-- The value that code leaves. -/
def cell? (w : W) (code : Code) : Option Cell := (m.eval? w code []).bind (·.head?)

variable {m} {w w' : W} {code code' : Code} {i : Instruction} {stack : List Cell} {s t : MachineState W R}

theorem eval?_append : m.eval? w (code ++ code') stack = (m.eval? w code stack).bind (m.eval? w code') :=
  List.foldlM_append

theorem eval?_singleton : m.eval? w [i] stack = i.role?.bind fun role => m.value? w role stack :=
  Option.bind_fun_some _

/-- What an instruction leaves does not depend on what is stored at other locations than those it reads. -/
theorem value?_congr {role : Role} (hrole : i.role? = some role) (h : ∀ l, i.Reads l → m.get w l = m.get w' l)
    (stack : List Cell) : m.value? w role stack = m.value? w' role stack := by
  cases role with
  | load z p =>
    refine Option.map_congr fun found hfound => ?_
    exact congrArg (· :: found.2) (h ⟨z, found.1⟩ ⟨p, hrole, p.covers_of_find? hfound⟩)
  | turn op => rcases stack with _ | ⟨x, stack⟩ <;> rfl
  | merge op => rcases stack with _ | ⟨y, _ | ⟨x, stack⟩⟩ <;> rfl
  | _ => rfl

theorem eval?_congr (h : ∀ i ∈ code, ∀ l, i.Reads l → m.get w l = m.get w' l) (stack : List Cell) :
    m.eval? w code stack = m.eval? w' code stack := by
  induction code generalizing stack with
  | nil => rfl
  | cons i code ih =>
    have hfirst : (i.role?.bind fun role => m.value? w role stack) =
        i.role?.bind fun role => m.value? w' role stack := by
      cases hrole : i.role? with
      | none => rfl
      | some role => exact value?_congr hrole (h i List.mem_cons_self) stack
    simp only [eval?, List.foldlM_cons] at ih ⊢
    rw [hfirst]
    exact Option.bind_congr fun stack _ => ih (fun j hj => h j (List.mem_cons_of_mem _ hj)) stack

theorem cell?_congr (h : ∀ i ∈ code, ∀ l, i.Reads l → m.get w l = m.get w' l) : m.cell? w code = m.cell? w' code := by
  rw [cell?, cell?, eval?_congr h]

end Machine

namespace Code.Yields

variable {W R : Type} {m : Machine W R} {w : W} {code : Code} {s t : MachineState W R}

variable (m) (w) in
/-- One value is left, on top of whatever is on the stack. -/
theorem eval (h : Yields code) (stack : List Cell) :
    m.eval? w code stack = (m.cell? w code).map (· :: stack) := by
  -- the value is chosen in front of the stack, since the operands of an operator are left on different stacks
  suffices hvalue : ∃ c : Option Cell, ∀ stack, m.eval? w code stack = c.map (· :: stack) by
    obtain ⟨c, hc⟩ := hvalue
    have hcell : m.cell? w code = c := by
      rw [Machine.cell?, hc]
      cases c <;> rfl
    rw [hc, hcell]
  induction h with
  | @constant i v role => exact ⟨some v.cell, fun _ => by rw [Machine.eval?_singleton, role]; rfl⟩
  | @address i name role => exact ⟨some (m.address name), fun _ => by rw [Machine.eval?_singleton, role]; rfl⟩
  | @load i z spot role => exact ⟨some (m.get w ⟨z, spot⟩), fun _ => by rw [Machine.eval?_singleton, role]; rfl⟩
  | @element c i z array _ role ih =>
    obtain ⟨k, hk⟩ := ih
    refine ⟨k.bind fun k => ((Pointing.element array).find? [k]).map fun found => m.get w ⟨z, found.1⟩,
      fun stack => ?_⟩
    rw [Machine.eval?_append, hk]
    rcases k with _ | (_ | _) <;> simp [Machine.eval?_singleton, role, Machine.value?, Pointing.find?]
  | @memory c i z _ role ih =>
    obtain ⟨a, ha⟩ := ih
    refine ⟨a.bind fun a => (Pointing.memory.find? [a]).map fun found => m.get w ⟨z, found.1⟩, fun stack => ?_⟩
    rw [Machine.eval?_append, ha]
    rcases a with _ | (_ | _) <;> simp [Machine.eval?_singleton, role, Machine.value?, Pointing.find?]
  | @turn c i op _ role ih =>
    obtain ⟨x, hx⟩ := ih
    refine ⟨x.bind fun x => m.compute op [x], fun stack => ?_⟩
    rw [Machine.eval?_append, hx]
    cases x <;> simp [Machine.eval?_singleton, role, Machine.value?]
  | @merge c c' i op _ _ role ih ih' =>
    obtain ⟨x, hx⟩ := ih
    obtain ⟨y, hy⟩ := ih'
    refine ⟨x.bind fun x => y.bind fun y => m.compute op [x, y], fun stack => ?_⟩
    rw [Machine.eval?_append, Machine.eval?_append, hx]
    cases x with
    | none => rfl
    | some x =>
      rw [Option.map_some, Option.bind_some, hy]
      cases y <;> simp [Machine.eval?_singleton, role, Machine.value?]

/-- No instruction does more than read. -/
theorem reads (h : Yields code) : ∀ i ∈ code, ∃ role, i.role? = some role ∧
    ∀ s : MachineState W R, m.step? i s =
      (m.value? s.stored role s.stack).map fun stack => ⟨stack, s.stored, m.note i stack s.rest⟩ := by
  have hone {i : Instruction} {role : Role} (hrole : i.role? = some role)
      (hstep : ∀ s : MachineState W R, m.step? i s =
        (m.value? s.stored role s.stack).map fun stack => ⟨stack, s.stored, m.note i stack s.rest⟩) :
      ∀ j ∈ [i], ∃ role, j.role? = some role ∧ ∀ s : MachineState W R, m.step? j s =
        (m.value? s.stored role s.stack).map fun stack => ⟨stack, s.stored, m.note j stack s.rest⟩ :=
    fun j hj => List.mem_singleton.1 hj ▸ ⟨role, hrole, hstep⟩
  induction h with
  | constant role | address role | load role =>
    exact hone role fun s => by rw [Machine.step?, role]
  | element _ role ih | memory _ role ih | turn _ role ih =>
    intro j hj
    rcases List.mem_append.1 hj with hj | hj
    · exact ih j hj
    · exact hone role (fun s => by rw [Machine.step?, role]) j hj
  | merge _ _ role ih ih' =>
    intro j hj
    rcases List.mem_append.1 hj with hj | hj
    · exact (List.mem_append.1 hj).elim (ih j) (ih' j)
    · exact hone role (fun s => by rw [Machine.step?, role]) j hj

/-- Nothing that is stored is changed. -/
theorem run (h : Yields code) (s : MachineState W R) :
    (m.run code s).map (fun t => (t.stack, t.stored)) =
      (m.cell? s.stored code).map fun c => (c :: s.stack, s.stored) := by
  have hreads := h.reads (m := m)
  have heval : (m.run code s).map (fun t => (t.stack, t.stored)) =
      (m.eval? s.stored code s.stack).map fun stack => (stack, s.stored) := by
    -- by induction on the instructions: what is left of the code when one is done need not leave one value
    clear h
    induction code generalizing s with
    | nil => rfl
    | cons i code ih =>
      obtain ⟨role, hrole, hstep⟩ := hreads i List.mem_cons_self
      rw [Machine.run_cons, hstep, Machine.eval?, List.foldlM_cons, hrole, Option.bind_some]
      cases m.value? s.stored role s.stack with
      | none => rfl
      | some stack => exact ih _ fun j hj => hreads j (List.mem_cons_of_mem _ hj)
  rw [heval, h.eval m, Option.map_map]
  rfl

theorem leaves (h : Yields code) {stack stack' : List Cell} {w w' : W} {rest : R} :
    m.Leaves code ⟨stack, w, rest⟩ stack' w' ↔ ∃ c, m.cell? w code = some c ∧ stack' = c :: stack ∧ w' = w := by
  have hrun := h.run (m := m) ⟨stack, w, rest⟩
  constructor
  · rintro ⟨rest', ht⟩
    rw [ht] at hrun
    obtain ⟨c, hc, heq⟩ := Option.map_eq_some_iff.1 hrun.symm
    cases heq
    exact ⟨c, hc, rfl, rfl⟩
  · rintro ⟨c, hc, rfl, rfl⟩
    rw [hc] at hrun
    obtain ⟨⟨_, _, rest'⟩, ht, heq⟩ := Option.map_eq_some_iff.1 hrun
    cases heq
    exact ⟨rest', ht⟩

end Code.Yields

/-! ## Expressions -/

/-- Each call in the expression is folded to a constant. -/
def Expr.IsCallFree (symbols : SymbolTable) (e : Expr) : Prop :=
  ∀ target args, .call target args ∈ e.withInner → (callConstant? symbols target args).isSome

theorem Expr.IsCallFree.of_subset {symbols : SymbolTable} {e e' : Expr} (h : e.IsCallFree symbols)
    (hsub : ∀ x ∈ e'.withInner, x ∈ e.withInner) : e'.IsCallFree symbols :=
  fun target args hm => h target args (hsub _ hm)

theorem Opcode.role?_plain {op : Opcode} {role : Role} (h : op.role? = some role) : op.plain.role? = some role := by
  cases op <;> first | exact h | cases h

theorem Opcode.role?_binary {op : BinaryOp} {t : NumType} {opcode : Opcode} (h : binary? op t = some opcode) :
    opcode.role? = some (.merge opcode) := by
  cases op with
  | arithmetic op =>
    cases op <;> cases t <;> simp [binary?, arithmetic?] at h <;>
      first | (subst h; rfl) | (obtain ⟨-, rfl⟩ := h; rfl)
  | connective op => cases op <;> cases t <;> cases h <;> rfl
  | comparison op => cases op <;> cases h <;> rfl
  | shift op => cases h

theorem Opcode.role?_unary {op : UnaryOp} {t : DataType} {opcode : Opcode} (h : unaryFor op t = .ok (some opcode)) :
    opcode.role? = some (.turn opcode) := by
  cases op with
  | plus => cases h
  | minus =>
    rw [unaryFor, orInvalid_ok_iff] at h
    cases t <;> simp [DataType.num?] at h
    obtain ⟨-, rfl⟩ := h
    rfl
  | invert | not =>
    rw [unaryFor, orInvalid_ok_iff] at h
    rcases t with (n | _) | _ | _ | _ | _ <;> cases h
    rfl

theorem Opcode.role?_cast {t u : NumType} {op : Opcode} (h : cast? t u = some op) : op.role? = some (.turn op) := by
  unfold cast? at h
  split at h <;> cases h
  rfl

theorem DataType.role?_castOpcode {t u : DataType} {op : Opcode} (h : t.castOpcode u = .ok (some op)) :
    op.role? = some (.turn op) := by
  simp only [castOpcode, Lowered.bind_ok_iff, Lowered.pure_ok_iff] at h
  obtain ⟨⟨t, u⟩, -, h⟩ := h
  exact Opcode.role?_cast h

theorem DataType.role?_widening {t u : DataType} {op : Opcode} (h : t.widening u = .ok (some op)) :
    op.role? = some (.turn op) := by
  unfold widening at h
  split at h
  · cases h
  · simp only [Lowered.bind_ok_iff] at h
    obtain ⟨⟨t, u⟩, -, h⟩ := h
    split at h
    · simp only [Lowered.throw_ok_iff] at h
    · split at h
      · cases h
      · exact Opcode.role?_cast (Except.ok.inj h)

namespace Code.Yields

variable {symbols : SymbolTable} {code : Code}

/-- A conversion that may be left out. -/
theorem optional {op : Option Opcode} (h : Yields code) (hop : ∀ o, op = some o → o.role? = some (.turn o)) :
    Yields (code ++ (op.map Opcode.plain).toList) := by
  cases op with
  | none => exact (List.append_nil code).symm ▸ h
  | some op => exact h.turn (Opcode.role?_plain (hop op rfl))

theorem steps {op : Opcode} (h : Yields code) (hop : op.role? = some (.turn op)) (n : Nat) :
    Yields (code ++ List.replicate n op.plain) := by
  induction n with
  | zero => exact (List.append_nil code).symm ▸ h
  | succ n ih =>
    rw [List.replicate_succ', ← List.append_assoc]
    exact ih.turn (Opcode.role?_plain hop)

theorem push (v : Value) : Yields v.push := .constant rfl

theorem readVar {name : String} (h : readVar symbols name = .ok code) : Yields code := by
  simp only [StackCode.readVar, Lowered.bind_ok_iff] at h
  obtain ⟨info, -, h⟩ := h
  split at h
  · simp only [Lowered.bind_ok_iff, Lowered.pure_ok_iff] at h
    obtain ⟨op, hop, rfl⟩ := h
    unfold Opcode.pushVarFor at hop
    split at hop <;> cases hop
    · exact .load rfl
    · exact .address rfl
  next address _ =>
    simp only [Lowered.bind_ok_iff, Lowered.pure_ok_iff, Opcode.pushMemFor, orInvalid_ok_iff] at h
    obtain ⟨op, hop, rfl⟩ := h
    obtain ⟨t, -, rfl⟩ := Option.map_eq_some_iff.1 hop
    exact .load (Instruction.role?_pushMem t address)
  · simp only [Lowered.throw_ok_iff] at h

theorem readElement {array : String} {index : Lowered Code} (hindex : ∀ c, index = .ok c → Yields c)
    (h : readElement symbols array index = .ok code) : Yields code := by
  simp only [StackCode.readElement, Lowered.bind_ok_iff, Lowered.pure_ok_iff, Opcode.readIndexedFor,
    orInvalid_ok_iff] at h
  obtain ⟨info, -, op, hop, c, hc, rfl⟩ := h
  obtain ⟨t, -, rfl⟩ := Option.map_eq_some_iff.1 hop
  exact (hindex c hc).element rfl

theorem readMemory {address : Expr} {inner : Lowered Code} (hinner : ∀ c, inner = .ok c → Yields c)
    (h : readMemory symbols address inner = .ok code) : Yields code := by
  simp only [StackCode.readMemory, Lowered.bind_ok_iff] at h
  obtain ⟨fixed, -, h⟩ := h
  split at h <;> simp only [Lowered.bind_ok_iff, Lowered.pure_ok_iff] at h
  next a =>
    subst h
    exact .load (Instruction.role?_pushMem (.int .ubyte) a)
  · obtain ⟨c, hc, rfl⟩ := h
    exact (hinner c hc).memory rfl

theorem readAddress {name : String} (h : readAddress symbols name = .ok code) : Yields code := by
  simp only [StackCode.readAddress, Lowered.bind_ok_iff] at h
  obtain ⟨info, -, h⟩ := h
  split at h
  · simp only [Lowered.throw_ok_iff] at h
  · split at h
    · cases h
      exact .address rfl
    · simp only [Lowered.throw_ok_iff] at h
  · cases h
    exact .address rfl

theorem binaryCode {op : BinaryOp} {left right : Operand} (hleft : ∀ c, left.push = .ok c → Yields c)
    (hright : ∀ c, right.push = .ok c → Yields c) (h : binaryCode symbols op left right = .ok code) :
    Yields code := by
  by_cases hop : ∃ s, op = .shift s
  · obtain ⟨s, rfl⟩ := hop
    obtain ⟨t, _, n, c, -, rfl, -, hc, rfl⟩ := shiftCode_ok h
    exact (hleft c hc).steps (by cases s <;> rfl) n
  · obtain ⟨a, b, opcode, lc, lw, rc, rw, -, -, hopcode, hlc, hlw, hrc, hrw, rfl⟩ :=
      binaryCode_ok (fun s hs => hop ⟨s, hs⟩) h
    have hl := (hleft lc hlc).optional fun o (ho : lw = some o) => DataType.role?_widening (ho ▸ hlw)
    have hr := (hright rc hrc).optional fun o (ho : rw = some o) => DataType.role?_widening (ho ▸ hrw)
    have hboth := hl.merge hr (Opcode.role?_plain (Opcode.role?_binary hopcode))
    simpa only [List.append_assoc] using hboth

end Code.Yields

/-- The code of an expression without calls leaves one value. -/
theorem Expr.code_yields {symbols : SymbolTable} : ∀ {e : Expr} {code : Code}, e.IsCallFree symbols →
    e.code symbols = .ok code → code.Yields
  | .number v, _, _, h => by
    cases h
    exact .push v
  | .register r, _, _, h => by
    cases h
    exact .load rfl
  | .unary op e, _, hfree, h => by
    have he : ∀ c, (e.operand symbols).push = .ok c → c.Yields := fun c hc =>
      code_yields (hfree.of_subset fun x hx => List.mem_cons_of_mem _ hx) hc
    simp only [code, operand, unaryCode, Lowered.bind_ok_iff, Lowered.pure_ok_iff] at h
    obtain ⟨t, -, opcode, hop, c, hc, rfl⟩ := h
    exact (he c hc).optional fun o ho => Opcode.role?_unary (ho ▸ hop)
  | .binary left op right, _, hfree, h =>
    Code.Yields.binaryCode
      (fun _ hc => code_yields (hfree.of_subset fun x hx => by simp [withInner, hx]) hc)
      (fun _ hc => code_yields (hfree.of_subset fun x hx => by simp [withInner, hx]) hc) h
  | .call target args, _, hfree, h => by
    obtain ⟨v, hv⟩ := Option.isSome_iff_exists.1 (hfree target args List.mem_cons_self)
    simp only [code, operand, callCode, operands_expr, hv] at h
    cases h
    exact .push v
  | .var name, _, _, h => .readVar h
  | .element array index, _, hfree, h =>
    .readElement (fun _ hc => code_yields (hfree.of_subset fun x hx => List.mem_cons_of_mem _ hx) hc) h
  | .cast e t, _, hfree, h => by
    have he : ∀ c, (e.operand symbols).push = .ok c → c.Yields := fun c hc =>
      code_yields (hfree.of_subset fun x hx => List.mem_cons_of_mem _ hx) hc
    simp only [code, operand, castCode, Lowered.bind_ok_iff, Lowered.pure_ok_iff] at h
    obtain ⟨u, -, opcode, hop, c, hc, rfl⟩ := h
    exact (he c hc).optional fun o ho => DataType.role?_castOpcode (ho ▸ hop)
  | .memory address, _, hfree, h =>
    .readMemory (fun _ hc => code_yields (hfree.of_subset fun x hx => List.mem_cons_of_mem _ hx) hc) h
  | .addressOf name, _, _, h => .readAddress h
  | .range _ _ _, _, _, h => by cases h
  | .structLiteral _, _, _, h => by cases h

end StackCode
