/-
The operands in an expression. If there is code for the expression, then each operand in
it has a type that is asked for, apart from indices and addresses, which need not have one
at all. The code of an expression leaves one value of its type as long as they do have one.
-/
import StackCode.Proofs.Operands.Use

namespace StackCode

variable {symbols : SymbolTable}

namespace Expr

mutual

/-- The operands whose code stands in the code of an expression. There is no code for the argument of a
call that is a constant, for an address that is one, and for the amount of a shift. -/
def uses (symbols : SymbolTable) : Expr → List Use
  | unary op e => ⟨e, .unary op⟩ :: e.uses symbols
  | cast e t => ⟨e, .cast t⟩ :: e.uses symbols
  | binary left op right =>
    if op.isShift then ⟨left, .shift⟩ :: left.uses symbols
    else (⟨left, .binary op (right.type? symbols)⟩ :: left.uses symbols) ++
      (⟨right, .binary op (left.type? symbols)⟩ :: right.uses symbols)
  | call target args =>
    if (callConstant? symbols target args).isSome then []
    else argumentUses symbols (symbols.consumers target args) args
  | element _ index => ⟨index, .element⟩ :: index.uses symbols
  | memory address =>
    if (address.constant? symbols).isSome then [] else ⟨address, .memory⟩ :: address.uses symbols
  | number _ | register _ | var _ | addressOf _ | range .. | structLiteral _ => []

/-- The arguments that have consumers, and the operands in them. -/
def argumentUses (symbols : SymbolTable) : List (Option Consumer) → List Expr → List Use
  | some c :: cs, e :: es => (⟨e, c⟩ :: e.uses symbols) ++ argumentUses symbols cs es
  | none :: cs, _ :: es => argumentUses symbols cs es
  | _, _ => []

end

end Expr

/-- The operands in an operand are among the operands as well. -/
def UsesClosed (symbols : SymbolTable) (us : List Use) : Prop :=
  ∀ u ∈ us, u.expr.uses symbols ⊆ us

namespace UsesClosed

variable {us vs : List Use}

theorem nil : UsesClosed symbols [] := List.forall_mem_nil _

theorem append (h : UsesClosed symbols us) (h' : UsesClosed symbols vs) :
    UsesClosed symbols (us ++ vs) :=
  List.forall_mem_append.2
    ⟨fun u hu => List.subset_append_of_subset_left _ (h u hu),
      fun u hu => List.subset_append_of_subset_right _ (h' u hu)⟩

theorem use {e : Expr} {c : Consumer} (h : UsesClosed symbols (e.uses symbols)) :
    UsesClosed symbols (⟨e, c⟩ :: e.uses symbols) :=
  List.forall_mem_cons.2
    ⟨List.subset_cons_self _ _, fun u hu => List.subset_cons_of_subset _ (h u hu)⟩

theorem flatMap {α : Type} {xs : List α} {f : α → List Use} (h : ∀ x ∈ xs, UsesClosed symbols (f x)) :
    UsesClosed symbols (xs.flatMap f) := by
  intro u hu v hv
  obtain ⟨x, hx, hu⟩ := List.mem_flatMap.1 hu
  exact List.mem_flatMap.2 ⟨x, hx, h x hx u hu hv⟩

end UsesClosed

namespace Expr

mutual

theorem uses_closed : ∀ e : Expr, UsesClosed symbols (e.uses symbols)
  | number _ | register _ | var _ | addressOf _ | range .. | structLiteral _ => .nil
  | unary _ e | cast e _ | element _ e => .use (uses_closed e)
  | binary left op right => by
    rw [uses]
    split
    · exact .use (uses_closed left)
    · exact .append (.use (uses_closed left)) (.use (uses_closed right))
  | memory address => by
    rw [uses]
    split
    · exact .nil
    · exact .use (uses_closed address)
  | call target args => by
    rw [uses]
    split
    · exact .nil
    · exact argumentUses_closed _ args

theorem argumentUses_closed : ∀ (cs : List (Option Consumer)) (es : List Expr),
    UsesClosed symbols (argumentUses symbols cs es)
  | [], [] | [], _ :: _ | none :: _, [] | some _ :: _, [] => .nil
  | none :: cs, _ :: es => argumentUses_closed cs es
  | some _ :: cs, e :: es => .append (.use (uses_closed e)) (argumentUses_closed cs es)

end

theorem types_operands (es : List Expr) :
    (operands symbols es).map (·.expr.type? symbols) = es.map (·.type? symbols) := by
  simp [operands_eq_map, expr_operand]

/-- The arguments of a call that comes out are passed to their consumers. -/
theorem operands_passed {target : String} {args : List Expr} {code : Code}
    (hconstant : callConstant? symbols target args = none)
    (h : (call target args).code symbols = .ok code) :
    List.Forall₂ (fun c o => Operand.IsPassed symbols c o) (symbols.consumers target args)
      (operands symbols args) := by
  simp only [Expr.code, operand, callCode, operands_expr, hconstant] at h
  split at h
  next s hs =>
    simp only [SymbolTable.consumers, hs]
    exact subroutineCall_passed h
  next => cases h
  next hn =>
    split at h
    next b hb =>
      simp only [SymbolTable.consumers, hn, hb, Option.map_some, Option.getD_some, ← types_operands]
      exact builtinCall_passed h
    next => cases h

theorem isSome_constant?_of_fixedAddress {e : Expr} {fixed : Option UInt16}
    (h : e.fixedAddress? symbols = .ok fixed) : (e.constant? symbols).isSome = fixed.isSome := by
  unfold fixedAddress? at h
  split at h
  next hnone =>
    cases h
    rw [hnone]
    rfl
  next v hv =>
    split at h <;> cases h
    rw [hv]
    rfl

/-- An address that is computed has code. -/
theorem memory_uses_accepted {address : Expr} {fixed : Option UInt16}
    (h : address.fixedAddress? symbols = .ok fixed)
    (hcode : fixed = none → (∃ c, address.code symbols = .ok c) ∧
      ∀ u ∈ address.uses symbols, u.IsAccepted symbols) :
    ∀ u ∈ (memory address).uses symbols, u.IsAccepted symbols := by
  rw [uses, isSome_constant?_of_fixedAddress h]
  cases fixed with
  | some a => exact List.forall_mem_nil _
  | none =>
    obtain ⟨⟨c, hc⟩, hinner⟩ := hcode rfl
    exact List.forall_mem_cons.2 ⟨.unchecked rfl hc, hinner⟩

mutual

/-- **Every operand in an expression is accepted**, if there is code for the expression. -/
theorem uses_accepted : ∀ {e : Expr} {code : Code}, e.code symbols = .ok code →
    ∀ u ∈ e.uses symbols, u.IsAccepted symbols
  | number _, _, _ | register _, _, _ | var _, _, _ | addressOf _, _, _ => List.forall_mem_nil _
  | range .., _, h | structLiteral _, _, h => by cases h
  | unary op e, code, h => by
    simp only [Expr.code, operand, unaryCode, Lowered.bind_ok_iff, needType_ok_iff, expr_operand] at h
    obtain ⟨t, ht, opcode, hop, c, hc, -⟩ := h
    rw [uses, List.forall_mem_cons]
    exact ⟨.of_type? ht (Lowered.isOk_of_eq hop) hc, uses_accepted hc⟩
  | cast e target, code, h => by
    simp only [Expr.code, operand, castCode, Lowered.bind_ok_iff, needType_ok_iff, expr_operand] at h
    obtain ⟨t, ht, opcode, hop, c, hc, -⟩ := h
    rw [uses, List.forall_mem_cons]
    exact ⟨.of_type? ht (Lowered.isOk_of_eq hop) hc, uses_accepted hc⟩
  | binary left op right, code, h => by
    simp only [Expr.code, operand] at h
    rw [uses]
    cases hop : op.isShift with
    | true =>
      obtain ⟨shift, rfl⟩ := BinaryOp.isShift_iff.1 hop
      obtain ⟨t, _, _, c, ht, -, -, hc, -⟩ := shiftCode_ok h
      rw [expr_operand] at ht
      rw [if_pos rfl, List.forall_mem_cons]
      exact ⟨.of_type? ht rfl hc, uses_accepted hc⟩
    | false =>
      obtain ⟨a, b, opcode, lc, _, rc, _, ha, hb, hopcode, hlc, -, hrc, -⟩ :=
        binaryCode_ok (fun s hs => by simp [hs, BinaryOp.isShift] at hop) h
      rw [expr_operand] at ha hb
      have hleft : (Consumer.binary op (some (.num b))).takes (.num a) := by
        simp [Consumer.takes, DataType.num?, hopcode]
      have hright : (Consumer.binary op (some (.num a))).takes (.num b) := by
        simp [Consumer.takes, DataType.num?, NumType.join_comm b a, hopcode]
      simp only [Bool.false_eq_true, if_false, List.forall_mem_append, List.forall_mem_cons, ha, hb]
      exact ⟨⟨.of_type? ha hleft hlc, uses_accepted hlc⟩, .of_type? hb hright hrc, uses_accepted hrc⟩
  | element array index, code, h => by
    simp only [Expr.code, operand, readElement, Lowered.bind_ok_iff] at h
    obtain ⟨_, -, _, -, c, hc, -⟩ := h
    rw [uses, List.forall_mem_cons]
    exact ⟨.unchecked rfl hc, uses_accepted hc⟩
  | memory address, code, h => by
    simp only [Expr.code, operand, readMemory, Lowered.bind_ok_iff] at h
    obtain ⟨fixed, hfixed, h⟩ := h
    exact memory_uses_accepted hfixed fun hnone => by
      subst hnone
      obtain ⟨c, hc, -⟩ := Lowered.bind_ok_iff.1 h
      exact ⟨⟨c, hc⟩, uses_accepted hc⟩
  | call target args, code, h => by
    rw [uses]
    cases hconstant : callConstant? symbols target args with
    | some v => exact List.forall_mem_nil _
    | none => exact argumentUses_accepted (operands_passed hconstant h)

theorem argumentUses_accepted : ∀ {cs : List (Option Consumer)} {es : List Expr},
    List.Forall₂ (fun c o => Operand.IsPassed symbols c o) cs (operands symbols es) →
    ∀ u ∈ argumentUses symbols cs es, u.IsAccepted symbols
  | _, [], h => by
    cases h
    exact List.forall_mem_nil _
  | none :: _, _ :: _, .cons _ hrest => by
    rw [argumentUses]
    exact argumentUses_accepted hrest
  | some c :: cs, e :: es, .cons he hrest => by
    have haccepted := he.isAccepted
    rw [argumentUses, List.forall_mem_append, List.forall_mem_cons]
    refine ⟨⟨haccepted, ?_⟩, argumentUses_accepted hrest⟩
    rcases haccepted.lowered with ⟨code, hcode⟩ | ⟨p, name, hvar⟩
    · exact uses_accepted hcode
    · cases hvar
      exact List.forall_mem_nil _

end

/-! ## What operands leave -/

/-- Each call in the expression has a type. -/
def CallsTyped (symbols : SymbolTable) (e : Expr) : Prop :=
  ∀ target args, .call target args ∈ e.withInner → ((call target args).type? symbols).isSome

/-- What the expression calls returns what it declares. -/
def CallsFit (symbols : SymbolTable) (e : Expr) : Prop :=
  ∀ target args, .call target args ∈ e.withInner → symbols.Fits target

theorem CallsTyped.wellCalled {e : Expr} (h : e.CallsTyped symbols) (hfit : e.CallsFit symbols) :
    e.WellCalled symbols := fun target args hm => ⟨h target args hm, hfit target args hm⟩

theorem callsTyped_of_constant : ∀ {e : Expr} {v : Value}, e.constant? symbols = some v →
    e.CallsTyped symbols
  | number _, _, _ => by simp [CallsTyped, withInner]
  | cast e _, _, h | unary _ e, _, h => by
    obtain ⟨_, he, -⟩ := Option.bind_eq_some_iff.1 h
    simpa [CallsTyped, withInner] using callsTyped_of_constant he
  | binary left op right, _, h => by
    obtain ⟨_, hl, h⟩ := Option.bind_eq_some_iff.1 h
    obtain ⟨_, hr, -⟩ := Option.bind_eq_some_iff.1 h
    intro target args hm
    simp only [withInner, List.mem_cons, reduceCtorEq, false_or, List.mem_append] at hm
    exact hm.elim (callsTyped_of_constant hl target args) (callsTyped_of_constant hr target args)
  | call target args, v, h => by
    -- Only the length of a variable is a constant, and there is no call in a variable.
    obtain ⟨name, rfl⟩ : ∃ name, args = [var name] := by
      rw [constant?] at h
      unfold callConstant? at h
      split at h
      next name => exact ⟨name, rfl⟩
      next => cases h
    intro target' args' hm
    simp only [withInner, allOf, List.mem_cons, call.injEq, List.mem_append, List.not_mem_nil,
      reduceCtorEq, or_false] at hm
    obtain ⟨rfl, rfl⟩ := hm
    rw [type?_of_constant? h]
    rfl
  | register _, _, h | var _, _, h | element _ _, _, h | memory _, _, h | addressOf _, _, h
  | range .., _, h | structLiteral _, _, h => by cases h

mutual

/-- The calls in an expression are among its operands, those in constants apart. -/
theorem callsTyped_of_uses : ∀ {e : Expr} {code : Code}, e.code symbols = .ok code →
    (e.type? symbols).isSome → (∀ u ∈ e.uses symbols, (u.expr.type? symbols).isSome) →
    e.CallsTyped symbols
  | number _, _, _, _, _ | register _, _, _, _, _ | var _, _, _, _, _ | addressOf _, _, _, _, _ => by
    simp [CallsTyped, withInner]
  | range .., _, h, _, _ | structLiteral _, _, h, _, _ => by cases h
  | unary op e, code, h, _, hu => by
    simp only [Expr.code, operand, unaryCode, Lowered.bind_ok_iff] at h
    obtain ⟨_, -, _, -, c, hc, -⟩ := h
    rw [uses, List.forall_mem_cons] at hu
    simpa [CallsTyped, withInner] using callsTyped_of_uses hc hu.1 hu.2
  | cast e t, code, h, _, hu => by
    simp only [Expr.code, operand, castCode, Lowered.bind_ok_iff] at h
    obtain ⟨_, -, _, -, c, hc, -⟩ := h
    rw [uses, List.forall_mem_cons] at hu
    simpa [CallsTyped, withInner] using callsTyped_of_uses hc hu.1 hu.2
  | binary left op right, code, h, _, hu => by
    simp only [Expr.code, operand] at h
    rw [uses] at hu
    have hboth : left.CallsTyped symbols ∧ right.CallsTyped symbols := by
      cases hop : op.isShift with
      | true =>
        obtain ⟨shift, rfl⟩ := BinaryOp.isShift_iff.1 hop
        obtain ⟨_, _, _, c, -, -, hn, hc, -⟩ := shiftCode_ok h
        obtain ⟨v, hamount, -⟩ := shiftAmount_ok hn
        rw [expr_operand] at hamount
        rw [if_pos hop, List.forall_mem_cons] at hu
        exact ⟨callsTyped_of_uses hc hu.1 hu.2, callsTyped_of_constant hamount⟩
      | false =>
        obtain ⟨_, _, _, lc, _, rc, _, -, -, -, hlc, -, hrc, -⟩ :=
          binaryCode_ok (fun s hs => by simp [hs, BinaryOp.isShift] at hop) h
        rw [hop, if_neg Bool.false_ne_true, List.forall_mem_append, List.forall_mem_cons,
          List.forall_mem_cons] at hu
        exact ⟨callsTyped_of_uses hlc hu.1.1 hu.1.2, callsTyped_of_uses hrc hu.2.1 hu.2.2⟩
    intro target args hm
    simp only [withInner, List.mem_cons, reduceCtorEq, false_or, List.mem_append] at hm
    exact hm.elim (hboth.1 target args) (hboth.2 target args)
  | element array index, code, h, _, hu => by
    simp only [Expr.code, operand, readElement, Lowered.bind_ok_iff] at h
    obtain ⟨_, -, _, -, c, hc, -⟩ := h
    rw [uses, List.forall_mem_cons] at hu
    simpa [CallsTyped, withInner] using callsTyped_of_uses hc hu.1 hu.2
  | memory address, code, h, _, hu => by
    simp only [Expr.code, operand, readMemory, Lowered.bind_ok_iff] at h
    obtain ⟨fixed, hfixed, h⟩ := h
    have hconstant := isSome_constant?_of_fixedAddress hfixed
    have haddress : address.CallsTyped symbols := by
      cases fixed with
      | some a =>
        obtain ⟨v, hv⟩ := Option.isSome_iff_exists.1 hconstant
        exact callsTyped_of_constant hv
      | none =>
        obtain ⟨c, hc, -⟩ := Lowered.bind_ok_iff.1 h
        simp only [uses, hconstant, Option.isSome_none, Bool.false_eq_true, if_false,
          List.forall_mem_cons] at hu
        exact callsTyped_of_uses hc hu.1 hu.2
    simpa [CallsTyped, withInner] using haddress
  | call target args, code, h, ht, hu => by
    rw [uses] at hu
    cases hconstant : callConstant? symbols target args with
    | some v => exact callsTyped_of_constant (e := call target args) hconstant
    | none =>
      simp only [hconstant, Option.isSome_none, Bool.false_eq_true, if_false] at hu
      have hargs := argumentsTyped_of_uses (operands_passed hconstant h) hu
      intro target' args' hm
      rcases List.mem_cons.1 hm with heq | hm
      · cases heq
        exact ht
      · obtain ⟨arg, harg, hm⟩ := mem_allOf.1 hm
        exact hargs arg harg target' args' hm

theorem argumentsTyped_of_uses : ∀ {cs : List (Option Consumer)} {es : List Expr},
    List.Forall₂ (fun c o => Operand.IsPassed symbols c o) cs (operands symbols es) →
    (∀ u ∈ argumentUses symbols cs es, (u.expr.type? symbols).isSome) →
    ∀ e ∈ es, e.CallsTyped symbols
  | _, [], _, _ => List.forall_mem_nil _
  | none :: _, e :: _, .cons he hrest, hu => by
    rw [argumentUses] at hu
    rw [Operand.IsPassed, expr_operand] at he
    obtain ⟨v, hv⟩ := Option.isSome_iff_exists.1 he
    exact List.forall_mem_cons.2 ⟨callsTyped_of_constant hv, argumentsTyped_of_uses hrest hu⟩
  | some c :: cs, e :: es, .cons he hrest, hu => by
    rw [argumentUses, List.forall_mem_append, List.forall_mem_cons] at hu
    refine List.forall_mem_cons.2 ⟨?_, argumentsTyped_of_uses hrest hu.2⟩
    rcases he.isAccepted.lowered with ⟨code, hcode⟩ | ⟨p, name, hvar⟩
    · exact callsTyped_of_uses hcode hu.1.1 hu.1.2
    · cases hvar
      simp [CallsTyped, withInner]

end

/-- What the code of an expression leaves: one value of its type, or if it has none, no value or
several. -/
def Leaves (symbols : SymbolTable) (e : Expr) (code : Code) : Prop :=
  match e.type? symbols with
  | some t => Runs symbols code [] [t.slot]
  | none => ∃ slots, Runs symbols code [] slots ∧ slots.length ≠ 1

/-- A call without a type leaves another number of results than one. -/
theorem callCode_leaves {target : String} {args : List Expr} {code : Code} (hn : symbols.WellNamed)
    (hfits : symbols.Fits target) (ha : ∀ o ∈ operands symbols args, o.Sound symbols)
    (ht : (call target args).type? symbols = none)
    (h : callCode symbols target (operands symbols args) = .ok code) :
    ∃ slots, Runs symbols code [] slots ∧ slots.length ≠ 1 := by
  unfold callCode at h
  rw [operands_expr] at h
  split at h
  next v hv => simp [type?_call_constant hv] at ht
  next hv =>
    rw [type?_call hv] at ht
    split at h
    next s hs =>
      refine ⟨_, subroutineCall_runs ((hn target s hs).symm ▸ hs) (hfits s hs) ha h, fun hlen => ?_⟩
      rw [List.length_map] at hlen
      obtain ⟨t, hreturns⟩ := List.length_eq_one_iff.1 hlen
      obtain ⟨name, parameters, returnTypes, machine⟩ := s
      subst hreturns
      simp [SymbolTable.callType?, hs] at ht
    next => cases h
    next hs =>
      split at h
      next b hb =>
        have hruns := builtinCall_runs (List.mem_of_find?_eq_some hb) ha h
        simp only [SymbolTable.callType?, hs, hb, Option.bind_some] at ht
        rw [head?_operands, BuiltinResult.slots, ht] at hruns
        exact ⟨_, hruns, by simp⟩
      next => cases h

/-- **An expression leaves one value just if it has a type**, provided that the indices and addresses in it
do. -/
theorem leaves {e : Expr} {code : Code} (hn : symbols.WellNamed) (hfit : e.CallsFit symbols)
    (hu : ∀ u ∈ e.uses symbols, u.consumer.isChecked = false → (u.expr.type? symbols).isSome)
    (h : e.code symbols = .ok code) : e.Leaves symbols code := by
  have htyped : ∀ u ∈ e.uses symbols, (u.expr.type? symbols).isSome := fun u hmem => by
    cases hc : u.consumer.isChecked with
    | true => exact Use.isSome_of_isTaken ((uses_accepted h u hmem).taken hc)
    | false => exact hu u hmem hc
  unfold Leaves
  split
  next t ht =>
    have hw := (callsTyped_of_uses h (by rw [ht]; rfl) htyped).wellCalled hfit
    exact (operand_sound hn e hw).push (by rwa [expr_operand]) h
  next ht =>
    obtain ⟨t, ht'⟩ | ⟨target, args, rfl⟩ := type?_or_call h
    · simp [ht] at ht'
    · have hconstant : callConstant? symbols target args = none := by
        cases hv : callConstant? symbols target args with
        | none => rfl
        | some v => simp [type?_call_constant hv] at ht
      rw [uses, hconstant] at htyped
      have hargs := argumentsTyped_of_uses (operands_passed hconstant h) htyped
      refine callCode_leaves hn (hfit target args List.mem_cons_self)
        (operands_sound hn args fun e he => (hargs e he).wellCalled fun target' args' hm => ?_) ht h
      exact hfit target' args' (List.mem_cons_of_mem _ (mem_allOf.2 ⟨e, he, hm⟩))

end Expr
end StackCode
