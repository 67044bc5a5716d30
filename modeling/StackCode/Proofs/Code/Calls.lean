/-
A call as a statement against the same call as an expression. The statement is the code of
the expression with the result dropped behind it, wherever the expression is a call at all.
The length of an array is none: as an expression it is folded, in whatever type holds it and
whatever the table says of the name, and as a statement it is a call that answers with a byte.
-/
import StackCode.Proofs.Stack.Expr
import Mathlib.Data.Option.Basic

namespace StackCode

variable {symbols : SymbolTable} {target : String} {args : List Expr} {t : DataType} {code : Code}

/-! ## Calls that are not folded -/

theorem Expr.code_call (h : callConstant? symbols target args = none) :
    (call target args).code symbols =
      match symbols.find? target with
      | some (.subroutine s) => subroutineCall symbols s (operands symbols args)
      | some _ => .error (.invalidTarget target)
      | none =>
        match Builtin.find? target with
        | some b => builtinCall symbols b (operands symbols args)
        | none => .error (.invalidTarget target) := by
  rw [code, operand, callCode, operands_expr]
  split
  next hsome => cases h.symm.trans hsome
  next => rfl

/-- The first argument of a builtin that gives a result has a type, since it has been checked. -/
theorem builtinCall_first {b : Builtin} (hb : b ∈ Builtin.all)
    (ht : b.result.resolve (args.head?.bind (·.type? symbols)) = some t)
    (h : builtinCall symbols b (Expr.operands symbols args) = .ok code) :
    args.head?.mapM (Expr.needType symbols) = .ok (args.head?.bind (·.type? symbols)) := by
  unfold builtinCall at h
  split at h
  next hm =>
    have hreg := Builtin.isRegular_of_mem b hb
    simp only [Builtin.isRegular, hm, decide_eq_true_eq] at hreg
    rw [hreg] at ht
    cases ht
  next =>
    simp only [Lowered.bind_ok_iff, checkArguments_ok_iff] at h
    obtain ⟨-, ⟨hlen, hacc⟩, -⟩ := h
    cases args with
    | nil => rfl
    | cons arg rest =>
      obtain ⟨p, params, hparams⟩ := List.exists_cons_of_length_eq_add_one hlen.symm
      obtain ⟨u, hu, -⟩ := hacc p (arg.operand symbols) (by simp [hparams, Expr.operands])
      rw [Expr.expr_operand] at hu
      exact Lowered.option_mapM_ok_iff.2 (.inr ⟨arg, u, rfl, hu, Expr.needType_ok_iff.2 hu⟩)

/-- The statement is the expression with the result dropped. -/
theorem callStatementCode_of_call (hconstant : Expr.callConstant? symbols target args = none)
    (ht : (Expr.call target args).type? symbols = some t)
    (h : (Expr.call target args).code symbols = .ok code) :
    callStatementCode symbols target args =
      (Opcode.discardFor t).map fun op => code ++ [op.plain] := by
  rw [Expr.type?_call hconstant, SymbolTable.callType?] at ht
  rw [Expr.code_call hconstant] at h
  cases hfind : symbols.find? target with
  | some symbol =>
    simp only [hfind] at ht h
    split at ht
    next s hs =>
      cases hs
      cases ht
      simp only at h
      simp only [callStatementCode, hfind, h, List.mapM_cons, List.mapM_nil]
      cases Opcode.discardFor t <;> rfl
    next => cases ht
    next hs => cases hs
  | none =>
    simp only [hfind] at ht h
    cases hb : Builtin.find? target with
    | none => simp [hb] at ht
    | some b =>
      simp only [hb, Option.bind_some] at ht h
      have hfirst := builtinCall_first (List.mem_of_find?_eq_some hb) ht h
      simp only [callStatementCode, hfind, hb, hfirst, h, bind, Except.bind, ht, Option.mapM_some]
      cases Opcode.discardFor t <;> rfl

/-! ## Lengths -/

/-- What is folded is the length of an array. -/
theorem Expr.callConstant?_eq_some {v : Value} (h : callConstant? symbols target args = some v) :
    ∃ (name : String) (info : VariableInfo) (length : UInt16),
      target = lengthFunction ∧ args = [.var name] ∧ symbols.var? name = some info ∧
        info.type.isArray ∧ info.length = some length ∧
        Value.ofIntSmallest length.toNat = .ok v := by
  unfold callConstant? at h
  split at h
  next name =>
    split at h
    next hname =>
      simp only [SymbolTable.arrayLength?, Option.bind_eq_bind, Option.bind_eq_some_iff] at h
      obtain ⟨info, hinfo, _, harray, length, hlength, hv⟩ := h
      refine ⟨name, info, length, hname, rfl, hinfo, (Option.guard_eq_some' _).1 harray,
        hlength, ?_⟩
      cases hof : Value.ofIntSmallest length.toNat with
      | error e => rw [hof] at hv; cases hv
      | ok w => rw [hof] at hv; cases hv; rfl
    next => cases h
  next => cases h

/-- A length is a byte if it fits one, and a word if it does not. -/
theorem Value.ofIntSmallest_length {length : UInt16} {v : Value}
    (h : ofIntSmallest length.toNat = .ok v) :
    (v.type = .int .ubyte ∧ ofInt length.toNat .ubyte = .ok v) ∨
      (v.type = .int .uword ∧ v.int? = some length.toNat ∧
        ofInt length.toNat .ubyte = .error (.outOfRange length.toNat .ubyte)) := by
  have hlt := length.toNat_lt
  unfold ofIntSmallest at h
  by_cases hbyte : IntType.ubyte.Holds length.toNat
  · simp only [hbyte, decide_true, if_true] at h
    exact .inl ⟨DataType.num.inj (type_of_ofInt h), h⟩
  · have hnotByte : ¬ IntType.byte.Holds length.toNat := fun h =>
      hbyte ⟨Int.natCast_nonneg _, Int.le_trans h.2 (by decide)⟩
    have hword : IntType.uword.Holds length.toNat :=
      ⟨Int.natCast_nonneg _, Int.ofNat_le.2 (Nat.le_of_lt_succ hlt)⟩
    simp only [hbyte, hnotByte, hword, decide_true, decide_false, if_true, Bool.false_eq_true,
      if_false, ofInt, dif_pos, Except.ok.injEq] at h
    subst h
    exact .inr ⟨rfl, rfl, by rw [ofInt, dif_neg hbyte]⟩

/-- The statement asks for the length of an array in a byte. -/
theorem callStatementCode_length {name : String} {info : VariableInfo} {length : UInt16}
    (hfree : symbols.find? lengthFunction = none) (hinfo : symbols.var? name = some info)
    (harray : info.type.isArray) (hlength : info.length = some length) :
    callStatementCode symbols lengthFunction [.var name] =
      (pushLength length).map fun code => code ++ [(Opcode.discard .byte).plain] := by
  have hb : Builtin.find? lengthFunction =
      some { name := "len", params := [.iterable], result := .fixed .ubyte, method := .length } := by
    decide
  have htype : (Expr.var name).type? symbols = some info.type := by rw [Expr.type?, hinfo]; rfl
  have hneed : (Expr.var name).needType symbols = .ok info.type := Expr.needType_ok_iff.2 htype
  have hstring : info.type.isString = false := by
    cases hi : info.type <;> rw [hi] at harray <;> first | rfl | cases harray
  have hdeclared : declaredArray symbols (.var name) = .ok (info.type, length) := by
    simp only [declaredArray, SymbolTable.needVar, hinfo, bind, Except.bind, hlength]
    rfl
  have hchecked : checkArguments symbols ⟨"len", [.iterable], .fixed .ubyte, .length⟩
      [(Expr.var name).operand symbols] = .ok () := by
    refine checkArguments_ok_iff.2 ⟨rfl, fun p arg hmem => ?_⟩
    simp only [List.zip_cons_cons, List.zip_nil_left, List.mem_singleton, Prod.mk.injEq] at hmem
    obtain ⟨rfl, rfl⟩ := hmem
    exact ⟨info.type, by rw [Expr.expr_operand]; exact htype, by
      simp [BuiltinParam.accepts, DataType.isIterable, harray]⟩
  have hcall : builtinCall symbols ⟨"len", [.iterable], .fixed .ubyte, .length⟩
      (Expr.operands symbols [.var name]) = pushLength length := by
    simp only [builtinCall, Expr.operands, hchecked, checkedCall, elementCount, Expr.expr_operand,
      hneed, bind, Except.bind, hstring, hdeclared]
    rfl
  simp only [callStatementCode, hfree, hb, hcall, List.head?_cons, Option.mapM_some, hneed]
  cases pushLength length <;> rfl

/-! ## Both forms -/

theorem call_mem_subroutineCall {s : Signature} {args : List Operand}
    (h : subroutineCall symbols s args = .ok code) : Opcode.call.named s.name ∈ code := by
  unfold subroutineCall at h
  split at h
  · simp only [machineCall, Lowered.check_ok_iff, Lowered.bind_ok_iff, Lowered.pure_ok_iff] at h
    obtain ⟨-, passed, -, results, -, rfl⟩ := h
    unfold savingX
    split <;> simp
  · simp only [ordinaryCall, Lowered.check_ok_iff, Lowered.bind_ok_iff, Lowered.pure_ok_iff] at h
    obtain ⟨-, passed, -, rfl⟩ := h
    simp

/-- The call of something that has been declared is no number with nothing but a discard behind it. -/
theorem callStatementCode_declared {symbol : Symbol} {v : Value} {size : Size}
    (hfind : symbols.find? target = some symbol) :
    callStatementCode symbols target args ≠ .ok (v.push ++ [(Opcode.discard size).plain]) := by
  intro h
  have hno : ∀ l, Opcode.call.named l ∉ v.push ++ [(Opcode.discard size).plain] := by
    simp [Value.push, Opcode.named, Opcode.given, Opcode.plain]
  cases symbol with
  | subroutine s =>
    simp only [callStatementCode, hfind, Lowered.bind_ok_iff, Lowered.pure_ok_iff] at h
    obtain ⟨code, hcode, discards, -, h⟩ := h
    exact hno s.name (h ▸ List.mem_append_left _ (call_mem_subroutineCall hcode))
  | label =>
    simp only [callStatementCode, hfind, Lowered.pure_ok_iff] at h
    exact hno target (h ▸ List.mem_singleton.2 rfl)
  | var info => simp only [callStatementCode, hfind, Lowered.throw_ok_iff] at h

/-- **A call with a result that lowers as an expression lowers as a statement to the same code with the
result dropped, unless it is the length of an array that does not fit a byte, or one whose name has been
declared to stand for something else.** The length that does not fit is refused. A result that takes no
place on the stack cannot be dropped. -/
theorem callStatementCode_discards_iff (ht : (Expr.call target args).type? symbols = some t)
    (h : (Expr.call target args).code symbols = .ok code) :
    ((∃ size, t.stackSize? = some size ∧
        callStatementCode symbols target args = .ok (code ++ [(Opcode.discard size).plain])) ↔
      t.stackSize?.isSome ∧ ∀ v, Expr.callConstant? symbols target args = some v →
        symbols.find? target = none ∧ v.type = .int .ubyte) ∧
    (∀ v, Expr.callConstant? symbols target args = some v → symbols.find? target = none →
      v.type ≠ .int .ubyte → ∃ n : Int, v.int? = some n ∧
        callStatementCode symbols target args = .error (.value (.outOfRange n .ubyte))) ∧
    (t.stackSize? = none →
      callStatementCode symbols target args = .error (.invalidType "discard" t)) := by
  cases hconstant : Expr.callConstant? symbols target args with
  | none =>
    rw [callStatementCode_of_call hconstant ht h, Opcode.discardFor]
    cases t.stackSize? <;> simp [orInvalid, Except.map]
  | some v =>
    obtain ⟨name, info, length, rfl, rfl, hinfo, harray, hlength, hv⟩ :=
      Expr.callConstant?_eq_some hconstant
    have hcode : code = v.push := by
      rw [Expr.code, Expr.operand, callCode, Expr.operands_expr, hconstant] at h
      exact (Except.ok.inj h).symm
    rw [Expr.type?_call_constant hconstant, Option.some.injEq] at ht
    subst hcode ht
    cases hfind : symbols.find? lengthFunction with
    | some symbol =>
      refine ⟨iff_of_false ?_ ?_, fun _ _ hno => (by cases hno), fun hno => (by cases hno)⟩
      · rintro ⟨size, -, hcall⟩
        exact callStatementCode_declared hfind hcall
      · rintro ⟨-, hv⟩
        cases (hv v rfl).1
    | none =>
      rw [callStatementCode_length hfind hinfo harray hlength, pushLength]
      rcases Value.ofIntSmallest_length hv with ⟨htype, hbyte⟩ | ⟨htype, hint, hword⟩
      · simp [hbyte, htype, Except.map, DataType.stackSize?, NumType.size, IntType.size]
      · simp [hword, htype, hint, Except.map, DataType.stackSize?]

/-- An array of 256 bytes. -/
def longBuffer : SymbolTable :=
  .ofDeclarations [.var ⟨"main.buffer", .array (.int .ubyte), .plain, some 256, [], {}⟩]

/-- The length is pushed as a word, and refused where it is dropped. -/
theorem longBuffer_length :
    (Expr.call "len" [.var "main.buffer"]).code longBuffer =
        .ok (Value.wrapped .uword 256).push ∧
      callStatementCode longBuffer "len" [.var "main.buffer"] =
        .error (.value (.outOfRange 256 .ubyte)) := by
  have htype : (Expr.call "len" [.var "main.buffer"]).type? longBuffer = some .uword := by
    decide +kernel
  have hconstant : Expr.callConstant? longBuffer "len" [.var "main.buffer"] =
      some (.wrapped .uword 256) := by
    decide +kernel
  have hcode : (Expr.call "len" [.var "main.buffer"]).code longBuffer =
      .ok (Value.wrapped .uword 256).push := by
    rw [Expr.code, Expr.operand, callCode, Expr.operands_expr, hconstant]
  obtain ⟨n, hn, herror⟩ := (callStatementCode_discards_iff htype hcode).2.1 _ hconstant
    (by decide +kernel) nofun
  cases hn
  exact ⟨hcode, herror⟩

end StackCode
