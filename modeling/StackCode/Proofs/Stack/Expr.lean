/-
The stack under the code of expressions. The type of an expression and its code come
from two recursions; here they meet. Code that comes out leaves exactly one value, of
the type that was inferred, over a stack that it does not touch.

Calls are the one place where the two can disagree: a call may have no type and still
have code, and a machine subroutine may declare other results than its carriers hold.
`WellCalled` rules that out.
-/
import StackCode.Proofs.Stack.Builtin

namespace StackCode

/-! ## Inner expressions -/

mutual

/-- An expression and all expressions inside it. -/
def Expr.withInner : Expr → List Expr
  | .unary op e => .unary op e :: e.withInner
  | .binary left op right => .binary left op right :: (left.withInner ++ right.withInner)
  | .call target args => .call target args :: Expr.allOf args
  | .element array index => .element array index :: index.withInner
  | .cast e t => .cast e t :: e.withInner
  | .memory address => .memory address :: address.withInner
  | .range first last step =>
    .range first last step :: (first.withInner ++ last.withInner ++ step.withInner)
  | .structLiteral values => .structLiteral values :: Expr.allOf values
  | e => [e]

/-- All expressions of a list. -/
def Expr.allOf : List Expr → List Expr
  | [] => []
  | e :: es => e.withInner ++ Expr.allOf es

end

theorem Expr.mem_allOf {e : Expr} {es : List Expr} : e ∈ allOf es ↔ ∃ x ∈ es, e ∈ x.withInner := by
  induction es with
  | nil => simp [allOf]
  | cons x es ih => simp [allOf, ih]

/-- The machine subroutine of a name, if it is one, returns what it declares. -/
def SymbolTable.Fits (symbols : SymbolTable) (target : String) : Prop :=
  ∀ s, symbols.find? target = some (.subroutine s) → s.Fits

/-- Each call in the expression has a type, and what it calls returns what it declares. -/
def Expr.WellCalled (symbols : SymbolTable) (e : Expr) : Prop :=
  ∀ target args, .call target args ∈ e.withInner →
    ((Expr.call target args).type? symbols).isSome ∧ symbols.Fits target

namespace Expr.WellCalled

variable {symbols : SymbolTable} {e : Expr}

/-- Expressions inside are well called as well. -/
theorem of_subset {e' : Expr} (h : e.WellCalled symbols)
    (hsub : ∀ x ∈ e'.withInner, x ∈ e.withInner) : e'.WellCalled symbols :=
  fun target args hm => h target args (hsub _ hm)

theorem of_mem_args {target : String} {args : List Expr}
    (h : (Expr.call target args).WellCalled symbols) (he : e ∈ args) : e.WellCalled symbols :=
  h.of_subset fun _ hx => List.mem_cons_of_mem _ (mem_allOf.2 ⟨e, he, hx⟩)

theorem call {target : String} {args : List Expr} (h : (Expr.call target args).WellCalled symbols) :
    ((Expr.call target args).type? symbols).isSome ∧ symbols.Fits target :=
  h target args List.mem_cons_self

end Expr.WellCalled

variable {symbols : SymbolTable}

theorem Expr.operands_expr (es : List Expr) : (operands symbols es).map (·.expr) = es := by
  induction es with
  | nil => rfl
  | cons e es ih => rw [operands, List.map_cons, expr_operand, ih]

/-! ## What has code has a type -/

theorem DataType.common_ok {t u : DataType} {n : NumType} {w : Widened}
    (h : t.common u = .ok (n, w)) : ∃ a b, t = .num a ∧ u = .num b ∧ n = a.join b := by
  simp only [common, Lowered.bind_ok_iff, Lowered.pure_ok_iff, Prod.exists, Prod.mk.injEq] at h
  obtain ⟨a, b, hab, rfl, -⟩ := h
  obtain ⟨rfl, rfl⟩ := Runs.bothNumeric_ok hab
  exact ⟨a, b, rfl, rfl, rfl⟩

/-- The steps of a shift. -/
theorem shiftCode_ok {op : Shift} {left : Operand} {right : Expr} {code : Code}
    (h : shiftCode symbols op left right = .ok code) :
    ∃ t step n c, left.expr.type? symbols = some (.int t) ∧ step = Opcode.shiftStep op t ∧
      shiftAmount symbols op right = .ok n ∧ left.push = .ok c ∧
      code = c ++ List.replicate n step.plain := by
  simp only [shiftCode, Lowered.bind_ok_iff, Lowered.pure_ok_iff, Expr.needType_ok_iff,
    Opcode.shiftStepFor, orInvalid_ok_iff] at h
  obtain ⟨t, ht, step, hstep, n, hn, c, hc, rfl⟩ := h
  obtain ⟨t', ht', rfl⟩ := Option.map_eq_some_iff.1 hstep
  have ht'' : t = .int t' := by
    rcases t with (m | _) | _ | _ | _ | _ <;> cases ht'
    rfl
  exact ⟨t', _, n, c, ht.trans (congrArg some ht''), rfl, hn, hc, rfl⟩

theorem shiftAmount_ok {op : Shift} {amount : Expr} {n : Nat}
    (h : shiftAmount symbols op amount = .ok n) :
    ∃ v, amount.constant? symbols = some v ∧ v.int? = some (n : Int) := by
  unfold shiftAmount at h
  split at h
  · cases h
  next v hv =>
    split at h
    · cases h
    next m hm =>
      split at h <;> cases h
      next hneg => exact ⟨v, hv, by rw [hm, Int.toNat_of_nonneg (by omega)]⟩

/-- An operator on two operands that is no shift: both are pushed and brought to the common type. -/
theorem binaryCode_ok {op : BinaryOp} {left right : Operand} {code : Code}
    (hop : ∀ s, op ≠ .shift s) (h : binaryCode symbols op left right = .ok code) :
    ∃ a b opcode lc lw rc rw, left.expr.type? symbols = some (.num a) ∧
      right.expr.type? symbols = some (.num b) ∧ Opcode.binary? op (a.join b) = some opcode ∧
      left.push = .ok lc ∧ (DataType.num a).widening (.num (a.join b)) = .ok lw ∧
      right.push = .ok rc ∧ (DataType.num b).widening (.num (a.join b)) = .ok rw ∧
      code = lc ++ (lw.map Opcode.plain).toList ++ rc ++ (rw.map Opcode.plain).toList ++
        [opcode.plain] := by
  unfold binaryCode at h
  split at h
  next s => exact absurd rfl (hop s)
  next =>
    simp only [Lowered.bind_ok_iff, Lowered.pure_ok_iff, Expr.needType_ok_iff, Prod.exists,
      Opcode.binaryFor, orInvalid_ok_iff] at h
    obtain ⟨t, ht, u, hu, n, w, hn, opcode, hopcode, lc, hlc, lw, hlw, rc, hrc, rw, hrw, rfl⟩ := h
    obtain ⟨a, b, rfl, rfl, rfl⟩ := DataType.common_ok hn
    exact ⟨a, b, opcode, lc, lw, rc, rw, ht, hu, hopcode, hlc, hlw, hrc, hrw, rfl⟩

/-- Only calls have code without having a type. -/
theorem Expr.type?_or_call {e : Expr} {code : Code} (h : e.code symbols = .ok code) :
    (∃ t, e.type? symbols = some t) ∨ ∃ target args, e = .call target args := by
  unfold Expr.code at h
  cases e with
  | number v => exact .inl ⟨_, rfl⟩
  | register r => exact .inl ⟨_, rfl⟩
  | unary op e =>
    simp only [operand, unaryCode, Lowered.bind_ok_iff, needType_ok_iff, expr_operand] at h
    obtain ⟨t, ht, -⟩ := h
    exact .inl ⟨t, ht⟩
  | binary left op right =>
    cases op with
    | shift op =>
      simp only [operand, binaryCode, expr_operand] at h
      obtain ⟨t, -, n, -, ht, -, hn, -⟩ := shiftCode_ok h
      obtain ⟨v, hv, -⟩ := shiftAmount_ok hn
      rw [expr_operand] at ht
      exact .inl ⟨.int t, by simp [type?, ht, type?_of_constant? hv, BinaryOp.resultType?]⟩
    | _ =>
      simp only [operand] at h
      obtain ⟨a, b, -, -, -, -, -, ht, hu, -⟩ := binaryCode_ok (by simp) h
      rw [expr_operand] at ht hu
      simp only [type?, ht, hu, Option.bind_eq_bind, Option.bind_some]
      exact .inl ⟨_, rfl⟩
  | call target args => exact .inr ⟨target, args, rfl⟩
  | var name =>
    simp only [operand, readVar, Lowered.bind_ok_iff, SymbolTable.needVar_ok_iff] at h
    obtain ⟨info, hinfo, -⟩ := h
    exact .inl ⟨info.type, by simp [type?, hinfo]⟩
  | element array index =>
    simp only [operand, readElement, Lowered.bind_ok_iff, SymbolTable.needVar_ok_iff] at h
    obtain ⟨info, hinfo, op, hop, -⟩ := h
    obtain ⟨n, hn, -⟩ := Opcode.readIndexedFor_effect hop
    exact .inl ⟨.num n, SymbolTable.elementType?_eq hinfo hn⟩
  | cast e t => exact .inl ⟨t, rfl⟩
  | memory address => exact .inl ⟨_, rfl⟩
  | addressOf name => exact .inl ⟨_, rfl⟩
  | range first last step => cases h
  | structLiteral values => cases h

theorem Expr.type?_of_code {e : Expr} {code : Code} (hw : e.WellCalled symbols)
    (h : e.code symbols = .ok code) : ∃ t, e.type? symbols = some t := by
  rcases type?_or_call h with ht | ⟨target, args, rfl⟩
  · exact ht
  · exact Option.isSome_iff_exists.1 hw.call.1

/-! ## Operators -/

theorem unaryCode_runs {op : UnaryOp} {o : Operand} {t : DataType} {code : Code}
    (ho : o.Sound symbols) (ht : o.expr.type? symbols = some t)
    (h : unaryCode symbols op o = .ok code) : Runs symbols code [] [t.slot] := by
  simp only [unaryCode, Lowered.bind_ok_iff, Lowered.pure_ok_iff, Expr.needType_ok_iff] at h
  obtain ⟨t', ht', opcode, hop, c, hc, rfl⟩ := h
  obtain rfl : t = t' := by rwa [ht, Option.some.injEq] at ht'
  refine (ho.push ht hc).append ?_
  cases op with
  | plus =>
    cases hop
    exact .nil
  | minus =>
    rw [Opcode.unaryFor, orInvalid_ok_iff] at hop
    cases t <;> simp [DataType.num?] at hop
    obtain ⟨-, rfl⟩ := hop
    exact .of_turn rfl
  | invert | not =>
    rw [Opcode.unaryFor, orInvalid_ok_iff] at hop
    rcases t with (n | _) | _ | _ | _ | _ <;> cases hop
    exact .of_turn rfl

theorem castCode_runs {o : Operand} {t : DataType} {code : Code} (ho : o.Sound symbols)
    (h : castCode symbols o t = .ok code) : Runs symbols code [] [t.slot] := by
  simp only [castCode, Lowered.bind_ok_iff, Lowered.pure_ok_iff, Expr.needType_ok_iff] at h
  obtain ⟨source, hs, opcode, hop, c, hc, rfl⟩ := h
  exact (ho.push hs hc).append (.castOpcode hop)

/-- The opcode of an operator merges two values of the common type into the result. -/
theorem Opcode.binary?_effect {op : BinaryOp} {a b : NumType} {opcode : Opcode}
    (h : Opcode.binary? op (a.join b) = some opcode) :
    ∃ n, op.resultType? (.num a) (.num b) = some (.num n) ∧
      opcode.effect? = some (.merge (a.join b).size n.size) := by
  cases op with
  | arithmetic op =>
    refine ⟨a.join b, rfl, ?_⟩
    generalize a.join b = n at h
    cases op <;> cases n <;> simp [binary?, arithmetic?] at h <;>
      first | (subst h; rfl) | (obtain ⟨-, rfl⟩ := h; rfl)
  | connective op =>
    refine ⟨.int .ubyte, rfl, ?_⟩
    generalize a.join b = n at h
    cases op <;> cases n <;> cases h <;> rfl
  | comparison op =>
    refine ⟨.int .ubyte, rfl, ?_⟩
    cases op <;> cases h <;> rfl
  | shift op => cases h

theorem shiftCode_runs {op : Shift} {left : Operand} {right : Expr} {t : DataType} {code : Code}
    (ho : left.Sound symbols) (ht : left.expr.type? symbols = some t)
    (h : shiftCode symbols op left right = .ok code) : Runs symbols code [] [t.slot] := by
  obtain ⟨n, _, amount, c, hn, rfl, -, hc, rfl⟩ := shiftCode_ok h
  obtain rfl : t = .int n := by rwa [ht, Option.some.injEq] at hn
  refine (ho.push ht hc).append ?_
  have hstep : Runs symbols [(Opcode.shiftStep op n).plain] [(DataType.int n).slot]
      [(DataType.int n).slot] := by
    cases op <;> exact .of_turn rfl
  clear h
  induction amount with
  | zero => exact .nil
  | succ amount ih => exact hstep.append ih

theorem binaryCode_runs {op : BinaryOp} {left right : Operand} {t u r : DataType} {code : Code}
    (hl : left.Sound symbols) (hr : right.Sound symbols) (ht : left.expr.type? symbols = some t)
    (hu : right.expr.type? symbols = some u) (hres : op.resultType? t u = some r)
    (h : binaryCode symbols op left right = .ok code) : Runs symbols code [] [r.slot] := by
  by_cases hop : ∃ s, op = .shift s
  · obtain ⟨s, rfl⟩ := hop
    cases hres
    exact shiftCode_runs hl ht h
  · obtain ⟨a, b, opcode, lc, lw, rc, rw, ha, hb, hopcode, hlc, hlw, hrc, hrw, rfl⟩ :=
      binaryCode_ok (fun s hs => hop ⟨s, hs⟩) h
    obtain rfl : t = .num a := by rwa [ht, Option.some.injEq] at ha
    obtain rfl : u = .num b := by rwa [hu, Option.some.injEq] at hb
    obtain ⟨n, hn, heff⟩ := Opcode.binary?_effect hopcode
    rw [hres, Option.some.injEq] at hn
    subst hn
    have hleft := (hl.push ht hlc).append (.widening hlw)
    have hright := (hr.push hu hrc).append (.widening hrw)
    have hboth := hleft.append (hright.onto _)
    rw [← List.append_assoc] at hboth
    exact hboth.append (.of_merge heff)

/-! ## Calls and the recursion -/

theorem Expr.type?_call {target : String} {args : List Expr}
    (h : callConstant? symbols target args = none) :
    (Expr.call target args).type? symbols =
      symbols.callType? target (args.head?.bind (·.type? symbols)) := by
  cases args with
  | nil => rfl
  | cons arg rest => simp [type?, h]

theorem Expr.type?_call_constant {target : String} {args : List Expr} {v : Value}
    (h : callConstant? symbols target args = some v) :
    (Expr.call target args).type? symbols = some (.num v.type) :=
  type?_of_constant? (e := .call target args) (by rw [constant?, h])

theorem Expr.head?_operands (es : List Expr) :
    (operands symbols es).head?.bind (·.expr.type? symbols) = es.head?.bind (·.type? symbols) := by
  cases es with
  | nil => rfl
  | cons e es => simp [operands, expr_operand]

theorem callCode_runs {target : String} {args : List Expr} {t : DataType} {code : Code}
    (hn : symbols.WellNamed) (hfits : symbols.Fits target)
    (ha : ∀ o ∈ Expr.operands symbols args, o.Sound symbols)
    (ht : (Expr.call target args).type? symbols = some t)
    (h : callCode symbols target (Expr.operands symbols args) = .ok code) :
    Runs symbols code [] [t.slot] := by
  unfold callCode at h
  rw [Expr.operands_expr] at h
  split at h
  next v hv =>
    cases h
    rw [Expr.type?_call_constant hv, Option.some.injEq] at ht
    exact ht ▸ Runs.push v
  next hv =>
    rw [Expr.type?_call hv] at ht
    split at h
    next s hs =>
      have hname := hn target s hs
      have hruns := subroutineCall_runs (hname.symm ▸ hs) (hfits s hs) ha h
      rw [SymbolTable.callType?, hs] at ht
      split at ht
      next s' hs' =>
        cases hs'
        cases ht
        exact hruns
      next => cases ht
      next hs' => cases hs'
    next => cases h
    next hs =>
      split at h
      next b hb =>
        have hruns := builtinCall_runs (List.mem_of_find?_eq_some hb) ha h
        rw [SymbolTable.callType?, hs] at ht
        simp only [hb, Option.bind_some] at ht
        rw [Expr.head?_operands, BuiltinResult.slots, ht] at hruns
        exact hruns
      next => cases h

/-- What has code leaves a value, whatever its type. -/
theorem Expr.inner_runs {e : Expr} (he : (e.operand symbols).Sound symbols)
    (hw : e.WellCalled symbols) (code : Code) (h : (e.operand symbols).push = .ok code) :
    ∃ s, Runs symbols code [] [s] := by
  obtain ⟨t, ht⟩ := type?_of_code hw h
  exact ⟨t.slot, he.push (by rwa [expr_operand]) h⟩

mutual

/-- The code of an expression is what its type says. The induction follows the recursion that makes
the code; an index or an address counts as one value of any size. -/
theorem Expr.operand_sound (hn : symbols.WellNamed) : ∀ e : Expr, e.WellCalled symbols →
    (e.operand symbols).Sound symbols
  | .number v, _ => by
    refine ⟨fun ht h => ?_, fun hp => by cases hp⟩
    cases ht
    cases h
    exact Runs.push v
  | .register r, _ => by
    refine ⟨fun ht h => ?_, fun hp => ?_⟩
    · cases ht
      cases h
      exact Runs.pushRegister r
    · cases hp
      trivial
  | .unary op e, hw => by
    have he := operand_sound hn e (hw.of_subset fun x hx => List.mem_cons_of_mem _ hx)
    refine ⟨fun ht h => ?_, fun hp => by cases hp⟩
    exact unaryCode_runs he (by rw [expr_operand]; exact ht) h
  | .binary left op right, hw => by
    have hl := operand_sound hn left (hw.of_subset fun x hx => by simp [withInner, hx])
    have hr := operand_sound hn right (hw.of_subset fun x hx => by simp [withInner, hx])
    refine ⟨fun ht h => ?_, fun hp => by cases hp⟩
    simp only [operand, type?, Option.bind_eq_bind, Option.bind_eq_some_iff] at ht
    obtain ⟨t, htl, u, htr, hres⟩ := ht
    exact binaryCode_runs hl hr (by rwa [expr_operand]) (by rwa [expr_operand]) hres h
  | .call target args, hw => by
    have ha := operands_sound hn args fun e he => hw.of_mem_args he
    exact ⟨fun ht h => callCode_runs hn hw.call.2 ha ht h, fun hp => by cases hp⟩
  | .var name, _ => by
    refine ⟨fun ht h => readVar_runs ht h, fun hp => ?_⟩
    cases hp
    trivial
  | .element array index, hw => by
    have hsub : index.WellCalled symbols := hw.of_subset fun x hx => List.mem_cons_of_mem _ hx
    have hinner := inner_runs (operand_sound hn index hsub) hsub
    refine ⟨fun ht h => readElement_runs ht hinner h, fun hp => ?_⟩
    cases hp
    exact hinner
  | .cast e t, hw => by
    have he := operand_sound hn e (hw.of_subset fun x hx => List.mem_cons_of_mem _ hx)
    refine ⟨fun ht h => ?_, fun hp => by cases hp⟩
    cases ht
    exact castCode_runs he h
  | .memory address, hw => by
    have hsub : address.WellCalled symbols := hw.of_subset fun x hx => List.mem_cons_of_mem _ hx
    have hinner := inner_runs (operand_sound hn address hsub) hsub
    refine ⟨fun ht h => ?_, fun hp => ?_⟩
    · cases ht
      exact readMemory_runs hinner h
    · cases hp
      exact hinner
  | .addressOf name, _ => by
    refine ⟨fun ht h => ?_, fun hp => by cases hp⟩
    cases ht
    exact readAddress_runs h
  | .range _ _ _, _ => ⟨fun _ h => (by cases h), fun hp => by cases hp⟩
  | .structLiteral _, _ => ⟨fun _ h => (by cases h), fun hp => by cases hp⟩

theorem Expr.operands_sound (hn : symbols.WellNamed) : ∀ es : List Expr,
    (∀ e ∈ es, e.WellCalled symbols) → ∀ o ∈ operands symbols es, o.Sound symbols
  | [], _, o, ho => by cases ho
  | e :: es, hw, o, ho => by
    rw [operands, List.mem_cons] at ho
    rcases ho with rfl | ho
    · exact operand_sound hn e (hw e List.mem_cons_self)
    · exact operands_sound hn es (fun x hx => hw x (List.mem_cons_of_mem _ hx)) o ho

end

end StackCode
