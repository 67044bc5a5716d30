/-
Constants against the code that they stand for. The code brings the operands of an
operator to their common type first; folding takes their numbers as they are and wraps
only the result. For most operators that comes to the same. A quotient and a comparison
can tell the difference: 200 is greater than -1, but as bytes it is -56, which is less.

`alignedConstant?` folds the way the code computes. An expression is folded to what its
code leaves exactly when this folding gives the same value, and it does wherever the
operands of each quotient and each comparison fit their common type.
-/
import StackCode.Proofs.Arithmetic.Operators

namespace StackCode

variable {symbols : SymbolTable}

/-! ## Folding at the common type -/

/-- The value of an operator between two values that were brought to their common type. -/
def BinaryOp.foldAligned? (op : BinaryOp) (v w : Value) : Option Value :=
  op.fold? (v.readAs (v.type.join w.type)) (w.readAs (v.type.join w.type))

/-- The value of a constant expression whose operands are brought to their common types. The amount
of a shift is no operand: the code takes it from the folding. -/
def Expr.alignedConstant? (symbols : SymbolTable) : Expr → Option Value
  | number v => some v
  | cast operand type => do (← alignedConstant? symbols operand).cast type |>.toOption
  | unary op operand => do op.fold? (← alignedConstant? symbols operand)
  | binary left (.shift op) right => do
    op.fold? (← alignedConstant? symbols left) (← constant? symbols right)
  | binary left op right => do
    op.foldAligned? (← alignedConstant? symbols left) (← alignedConstant? symbols right)
  | call target args => callConstant? symbols target args
  | _ => none

/-- No expression inside is a float. -/
def Expr.IsFloatFree (symbols : SymbolTable) (e : Expr) : Prop :=
  ∀ e' ∈ e.withInner, e'.type? symbols ≠ some .float

/-! ## Types -/

theorem Value.join_readAs (v w : Value) :
    (v.readAs (v.type.join w.type)).type.join (w.readAs (v.type.join w.type)).type =
      v.type.join w.type := by
  rcases v with ⟨t, m, hm⟩ | x <;> rcases w with ⟨u, n, hn⟩ | y <;> try rfl
  exact congrArg NumType.int (IntType.of_self _)

theorem BinaryOp.resultType?_of_foldAligned? {op : BinaryOp} {v w u : Value}
    (hop : ∀ s, op ≠ .shift s) (h : op.foldAligned? v w = some u) :
    op.resultType? (.num v.type) (.num w.type) = some (.num u.type) := by
  have hu := resultType?_of_fold? h
  cases op with
  | arithmetic op =>
    simpa only [resultType?, DataType.num?, Option.bind_eq_bind, Option.bind_some,
      Value.join_readAs] using hu
  | connective op => exact hu
  | comparison op => exact hu
  | shift op => exact absurd rfl (hop op)

/-- An operator that is no shift. -/
theorem Expr.alignedConstant?_binary {left right : Expr} {op : BinaryOp}
    (hop : ∀ s, op ≠ .shift s) :
    (binary left op right).alignedConstant? symbols =
      (left.alignedConstant? symbols).bind fun v =>
        (right.alignedConstant? symbols).bind fun w => op.foldAligned? v w := by
  cases op with
  | shift op => exact absurd rfl (hop op)
  | _ => rfl

/-- The type does not depend on how a constant is folded. -/
theorem Expr.type?_of_alignedConstant? : ∀ {e : Expr} {v : Value},
    e.alignedConstant? symbols = some v → e.type? symbols = some (.num v.type)
  | .number _, _, h => by
    cases h
    rfl
  | .cast e t, v, h => by
    simp only [alignedConstant?, Option.bind_eq_bind, Option.bind_eq_some_iff] at h
    obtain ⟨w, -, h⟩ := h
    rw [type?, Value.type_of_toOption_cast h]
  | .unary op e, v, h => by
    simp only [alignedConstant?, Option.bind_eq_bind, Option.bind_eq_some_iff] at h
    obtain ⟨w, hw, h⟩ := h
    rw [type?, type?_of_alignedConstant? hw, UnaryOp.type_of_fold? h]
  | .binary left (.shift op) right, v, h => by
    simp only [alignedConstant?, Option.bind_eq_bind, Option.bind_eq_some_iff] at h
    obtain ⟨w, hw, u, hu, h⟩ := h
    simp only [type?, type?_of_alignedConstant? hw, type?_of_constant? hu, Option.bind_eq_bind,
      Option.bind_some, BinaryOp.resultType?, Shift.type_of_fold? h]
  | .binary left (.arithmetic op) right, v, h | .binary left (.connective op) right, v, h
  | .binary left (.comparison op) right, v, h => by
    rw [alignedConstant?_binary (by simp)] at h
    simp only [Option.bind_eq_some_iff] at h
    obtain ⟨w, hw, u, hu, h⟩ := h
    simp only [type?, type?_of_alignedConstant? hw, type?_of_alignedConstant? hu,
      Option.bind_eq_bind, Option.bind_some]
    exact BinaryOp.resultType?_of_foldAligned? (by simp) h
  | .call target [], v, h => by simp [alignedConstant?, callConstant?] at h
  | .call target (arg :: rest), v, h => by
    rw [alignedConstant?] at h
    simp only [type?, h]
  | .register _, _, h | .var _, _, h | .element _ _, _, h | .memory _, _, h | .addressOf _, _, h
  | .range _ _ _, _, h | .structLiteral _, _, h => by simp [alignedConstant?] at h

/-! ## What the code leaves -/

/-- The operand is an integer whose code leaves the value on any stack. If there is no value, the
code cannot run. -/
structure Operand.Leaves (symbols : SymbolTable) (o : Operand) (t : IntType) (v : Option Value) :
    Prop where
  type : o.expr.type? symbols = some (.int t)
  typed : ∀ x ∈ v, x.type = .int t
  computes : ∀ {code}, o.push = .ok code → ∀ stack,
    Code.compute? code stack = v.map (·.cell :: stack)

section

variable {o left right : Operand} {code : Code} {t u : IntType} {v w : Option Value}

theorem unaryCode_computes {op : UnaryOp} (ho : o.Leaves symbols t v)
    (h : unaryCode symbols op o = .ok code) (stack : List Cell) :
    Code.compute? code stack = (v.bind op.fold?).map (·.cell :: stack) := by
  simp only [unaryCode, Lowered.bind_ok_iff, Lowered.pure_ok_iff, Expr.needType_ok_iff, ho.type,
    Option.some.injEq] at h
  obtain ⟨_, rfl, opcode, hop, c, hc, rfl⟩ := h
  rw [Code.compute?_append, ho.computes hc]
  cases v with
  | none => rfl
  | some x => exact UnaryOp.compute? (ho.typed x rfl) hop

theorem castCode_computes (ho : o.Leaves symbols t v) (h : castCode symbols o (.int u) = .ok code)
    (stack : List Cell) :
    Code.compute? code stack =
      (v.bind fun x => (x.cast (.int u)).toOption).map (·.cell :: stack) := by
  simp only [castCode, Lowered.bind_ok_iff, Lowered.pure_ok_iff, Expr.needType_ok_iff, ho.type,
    Option.some.injEq, DataType.castOpcode] at h
  obtain ⟨_, rfl, _, ⟨⟨a, b⟩, hab, rfl⟩, c, hc, rfl⟩ := h
  obtain ⟨ha, hb⟩ := Runs.bothNumeric_ok hab
  cases ha
  cases hb
  rw [Code.compute?_append, ho.computes hc]
  cases v with
  | none => rfl
  | some x =>
    have hx := ho.typed x rfl
    rw [Option.bind_some, Value.cast_int hx]
    exact Value.cast?_computes hx u

/-- The steps of a shift whose amount is folded to `y`. -/
theorem shiftCode_computes {op : Shift} {amount : Expr} {x y z : Value}
    (hl : left.Leaves symbols t v) (hy : amount.constant? symbols = some y)
    (hz : op.fold? x y = some z) (h : shiftCode symbols op left amount = .ok code)
    (stack : List Cell) :
    Code.compute? code stack = (v.bind fun x => op.fold? x y).map (·.cell :: stack) := by
  obtain ⟨t', step, k, c, ht', rfl, hk, hc, rfl⟩ := shiftCode_ok h
  obtain ⟨y', hy', hint⟩ := shiftAmount_ok hk
  cases hl.type.symm.trans ht'
  cases hy.symm.trans hy'
  have hk16 := Shift.amount_of_fold? hz hint
  rw [Code.compute?_append, hl.computes hc]
  cases v with
  | none => rfl
  | some x' =>
    obtain ⟨n, hn, rfl⟩ := Value.exists_int (hl.typed x' rfl)
    rw [Option.map_some, Option.bind_some, Option.bind_some, Shift.compute?_steps,
      Shift.fold?_of_lt hint hk16, Option.map_some]

/-- Both operands of an operator are brought to their common type. -/
theorem binaryCode_computes {op : BinaryOp} (hop : ∀ s, op ≠ .shift s)
    (hl : left.Leaves symbols t v) (hr : right.Leaves symbols u w)
    (h : binaryCode symbols op left right = .ok code) (stack : List Cell) :
    Code.compute? code stack =
      (v.bind fun x => w.bind fun y => op.foldAligned? x y).map (·.cell :: stack) := by
  obtain ⟨a, b, opcode, lc, lw, rc, rw, ha, hb, hopcode, hlc, hlw, hrc, hrw, rfl⟩ :=
    binaryCode_ok hop h
  cases hl.type.symm.trans ha
  cases hr.type.symm.trans hb
  simp only [Code.compute?_append, hl.computes hlc]
  cases v with
  | none => rfl
  | some x =>
    have hx := hl.typed x rfl
    simp only [Option.map_some, Option.bind_some, Value.widening_computes hx hlw, hr.computes hrc]
    cases w with
    | none => rfl
    | some y =>
      have hy := hr.typed y rfl
      simp only [Option.map_some, Option.bind_some, Value.widening_computes hy hrw]
      rw [Code.compute?_plain, BinaryOp.act?_of_binary? hopcode _ _ (Value.type_readAs hx _)
        (Value.type_readAs hy _), BinaryOp.foldAligned?, hx, hy]
      rfl

end

namespace Expr

theorem self_mem_withInner (e : Expr) : e ∈ e.withInner := by
  cases e <;> simp [withInner]

namespace IsFloatFree

variable {e e' : Expr} {v : Value}

theorem of_subset (h : e.IsFloatFree symbols) (hsub : ∀ x ∈ e'.withInner, x ∈ e.withInner) :
    e'.IsFloatFree symbols :=
  fun x hx => h x (hsub x hx)

/-- A constant without floats has an integer type. -/
theorem exists_int (h : e.IsFloatFree symbols) (hv : e.constant? symbols = some v) :
    ∃ t, e.type? symbols = some (.int t) := by
  have ht := type?_of_constant? hv
  rcases hn : v.type with t | _
  · exact ⟨t, by rw [ht, hn]⟩
  · exact absurd (by rw [ht, hn]) (h e e.self_mem_withInner)

/-- What the code of a constant computes, with the type of the constant. -/
theorem leaves (h : e.IsFloatFree symbols) (hv : e.constant? symbols = some v)
    (hcode : ∀ code, e.code symbols = .ok code → ∀ stack,
      Code.compute? code stack = (e.alignedConstant? symbols).map (·.cell :: stack)) :
    ∃ t, (e.operand symbols).Leaves symbols t (e.alignedConstant? symbols) := by
  obtain ⟨t, ht⟩ := h.exists_int hv
  refine ⟨t, by rwa [expr_operand], fun x hx => ?_, hcode _⟩
  have hx' := type?_of_alignedConstant? hx
  rw [ht, Option.some.injEq] at hx'
  exact (DataType.num.inj hx').symm

end IsFloatFree

/-- **The code of a constant leaves the value that the constant has at the common types.** -/
theorem code_computes : ∀ {e : Expr} {v : Value}, e.IsFloatFree symbols →
    e.constant? symbols = some v → ∀ code, e.code symbols = .ok code → ∀ stack,
    Code.compute? code stack = (e.alignedConstant? symbols).map (·.cell :: stack)
  | .number v, _, _, _ => by
    rintro _ ⟨⟩ stack
    exact Code.compute?_push v
  | .cast e target, v, hf, hv => by
    intro code hc stack
    have hfe : e.IsFloatFree symbols := hf.of_subset fun x hx => by simp [withInner, hx]
    obtain ⟨u, hu⟩ := hf.exists_int hv
    cases hu
    simp only [constant?, Option.bind_eq_bind, Option.bind_eq_some_iff] at hv
    obtain ⟨w, hw, -⟩ := hv
    obtain ⟨t, he⟩ := hfe.leaves hw (code_computes hfe hw)
    rw [Expr.code, operand] at hc
    exact castCode_computes he hc stack
  | .unary op e, v, hf, hv => by
    intro code hc stack
    have hfe : e.IsFloatFree symbols := hf.of_subset fun x hx => by simp [withInner, hx]
    simp only [constant?, Option.bind_eq_bind, Option.bind_eq_some_iff] at hv
    obtain ⟨w, hw, -⟩ := hv
    obtain ⟨t, he⟩ := hfe.leaves hw (code_computes hfe hw)
    rw [Expr.code, operand] at hc
    exact unaryCode_computes he hc stack
  | .binary left (.shift op) right, v, hf, hv => by
    intro code hc stack
    have hfl : left.IsFloatFree symbols := hf.of_subset fun x hx => by simp [withInner, hx]
    simp only [constant?, Option.bind_eq_bind, Option.bind_eq_some_iff] at hv
    obtain ⟨x, hx, y, hy, hv⟩ := hv
    obtain ⟨t, hl⟩ := hfl.leaves hx (code_computes hfl hx)
    simp only [Expr.code, operand, binaryCode, expr_operand] at hc
    have hcode := shiftCode_computes hl hy hv hc stack
    simpa [alignedConstant?, hy, BinaryOp.fold?] using hcode
  | .binary left (.arithmetic op) right, v, hf, hv
  | .binary left (.connective op) right, v, hf, hv
  | .binary left (.comparison op) right, v, hf, hv => by
    intro code hc stack
    have hfl : left.IsFloatFree symbols := hf.of_subset fun x hx => by simp [withInner, hx]
    have hfr : right.IsFloatFree symbols := hf.of_subset fun x hx => by simp [withInner, hx]
    simp only [constant?, Option.bind_eq_bind, Option.bind_eq_some_iff] at hv
    obtain ⟨x, hx, y, hy, -⟩ := hv
    obtain ⟨t, hl⟩ := hfl.leaves hx (code_computes hfl hx)
    obtain ⟨u, hr⟩ := hfr.leaves hy (code_computes hfr hy)
    rw [Expr.code, operand] at hc
    rw [alignedConstant?_binary (by simp)]
    exact binaryCode_computes (by simp) hl hr hc stack
  | .call target args, v, hf, hv => by
    intro code hc stack
    rw [constant?] at hv
    simp only [Expr.code, operand, callCode, operands_expr, hv] at hc
    cases hc
    rw [alignedConstant?, hv]
    exact Code.compute?_push v
  | .register _, _, _, h | .var _, _, _, h | .element _ _, _, _, h | .memory _, _, _, h
  | .addressOf _, _, _, h | .range _ _ _, _, _, h | .structLiteral _, _, _, h => by
    simp [constant?] at h

end Expr

/-! ## Operands that fit -/

/-- The value is one of the type, except that a float is one of any. -/
def Value.Fits : NumType → Value → Prop
  | .int t, .int _ n _ => t.Holds n
  | _, _ => True

/-- The operands of a quotient or a comparison are numbers of their common type. Other operators
take any operands. -/
def BinaryOp.Fits (op : BinaryOp) (v w : Value) : Prop :=
  match op with
  | .arithmetic .div | .comparison _ =>
    v.Fits (v.type.join w.type) ∧ w.Fits (v.type.join w.type)
  | _ => True

/-- The operands of each operator fit, apart from those in the amount of a shift. -/
def Expr.OperandsFit (symbols : SymbolTable) : Expr → Prop
  | cast operand _ | unary _ operand => operand.OperandsFit symbols
  | binary left (.shift _) _ => left.OperandsFit symbols
  | binary left op right =>
    left.OperandsFit symbols ∧ right.OperandsFit symbols ∧
      ∀ v ∈ left.constant? symbols, ∀ w ∈ right.constant? symbols, op.Fits v w
  | _ => True

theorem Value.wrapped_congr {t : IntType} {m n : Int}
    (h : BitVec.ofInt t.size.bits m = .ofInt _ n) : Value.wrapped t m = .wrapped t n := by
  have hc : (wrapped t m).cell = (wrapped t n).cell := by rw [cell_wrapped, cell_wrapped, h]
  exact (cell_inj (v := wrapped t m) (w := wrapped t n) rfl).1 hc

/-- Sums, products and bitwise operations depend on the low bits alone. -/
theorem Arithmetic.map_wrapped_ofInts? {op : Arithmetic} {t : IntType} {m n : Int}
    (h : op = .div ∨ t.isSigned = false → t.Holds m ∧ t.Holds n) :
    (op.ofInts? t (t.wrap m) (t.wrap n)).map (Value.wrapped t) =
      (op.ofInts? t m n).map (Value.wrapped t) := by
  cases op
  case div =>
    obtain ⟨hm, hn⟩ := h (.inl rfl)
    rw [IntType.wrap_eq_self hm, IntType.wrap_eq_self hn]
  case remainder =>
    cases hs : t.isSigned with
    | false =>
      obtain ⟨hm, hn⟩ := h (.inr hs)
      rw [IntType.wrap_eq_self hm, IntType.wrap_eq_self hn]
    | true => simp [ofInts?, hs]
  case pow => rfl
  all_goals
    simp only [ofInts?, Option.map_some, Option.some.injEq]
    apply Value.wrapped_congr
    simp only [BitVec.ofInt_add, BitVec.ofInt_sub, BitVec.ofInt_mul, onBits, IntSize.ofInt_toInt,
      BitVec.setWidth_and, BitVec.setWidth_or, BitVec.setWidth_xor, IntSize.setWidth_ofInt,
      IntType.ofInt_wrap]

theorem IntType.bits_le_common (t u : IntType) (b : Bool) :
    t.size.bits ≤ (IntType.of (t.size.max u.size) b).size.bits ∧
      u.size.bits ≤ (IntType.of (t.size.max u.size) b).size.bits := by
  cases t <;> cases u <;> cases b <;> decide

/-- Numbers of one signedness are numbers of the common type. -/
theorem IntType.holds_common {t u : IntType} {m n : Int} (hs : t.isSigned = u.isSigned)
    (hm : t.Holds m) (hn : u.Holds n) :
    (IntType.of (t.size.max u.size) (t.isSigned || u.isSigned)).Holds m ∧
      (IntType.of (t.size.max u.size) (t.isSigned || u.isSigned)).Holds n := by
  cases t <;> cases u <;> simp only [isSigned, reduceCtorEq] at hs <;>
    simp only [of, Holds, lo, hi, isSigned, size, IntSize.max, IntSize.modulus,
      Bool.or_self] at * <;>
    simp at * <;> omega

/-- Operands of one signedness fit each operator. -/
theorem BinaryOp.fits_of_isSigned_eq (op : BinaryOp) {v w : Value}
    (hs : v.type.isSigned = w.type.isSigned) : op.Fits v w := by
  have hboth : v.Fits (v.type.join w.type) ∧ w.Fits (v.type.join w.type) := by
    rcases v with ⟨t, m, hm⟩ | x <;> rcases w with ⟨u, n, hn⟩ | y <;> try exact ⟨trivial, trivial⟩
    exact IntType.holds_common hs hm hn
  rcases op with (_ | _ | _ | _ | _ | _ | _ | _ | _) | _ | _ | _
  all_goals first | exact hboth | trivial

theorem BinaryOp.foldAligned?_of_fits {op : BinaryOp} {v w : Value} (hop : ∀ s, op ≠ .shift s)
    (h : op.Fits v w) : op.foldAligned? v w = op.fold? v w := by
  rcases v with ⟨t, m, hm⟩ | x <;> rcases w with ⟨u, n, hn⟩ | y <;> try rfl
  cases op with
  | arithmetic op =>
    simp only [foldAligned?, Value.type, NumType.join, Value.readAs, fold?, Value.wrapped,
      Arithmetic.fold?, IntType.of_self]
    refine Arithmetic.map_wrapped_ofInts? fun hd => ?_
    rcases hd with rfl | hs
    · exact h
    · refine IntType.holds_common ?_ hm hn
      cases t <;> cases u <;> first | rfl | cases hs
  | connective op =>
    obtain ⟨ht, hu⟩ := IntType.bits_le_common t u (t.isSigned || u.isSigned)
    simp only [foldAligned?, Value.type, NumType.join, Value.readAs, fold?, Value.wrapped,
      Value.isTrue, ne_eq, IntType.wrap_eq_zero ht hm, IntType.wrap_eq_zero hu hn]
  | comparison op =>
    obtain ⟨hm', hn'⟩ := h
    simp only [foldAligned?, Value.type, NumType.join, Value.readAs, fold?, Value.wrapped,
      Comparison.holds]
    rw [IntType.wrap_eq_self hm', IntType.wrap_eq_self hn']
  | shift op => exact absurd rfl (hop op)

/-- Where the operands fit, folding brings no operand to another number. -/
theorem Expr.alignedConstant?_eq : ∀ {e : Expr}, e.OperandsFit symbols →
    e.alignedConstant? symbols = e.constant? symbols
  | .number _, _ => rfl
  | .cast e t, h => by
    rw [alignedConstant?, constant?, alignedConstant?_eq (e := e) h]
  | .unary op e, h => by
    rw [alignedConstant?, constant?, alignedConstant?_eq (e := e) h]
  | .binary left (.shift op) right, h => by
    rw [alignedConstant?, constant?, alignedConstant?_eq (e := left) h]
    rfl
  | .binary left (.arithmetic op) right, h | .binary left (.connective op) right, h
  | .binary left (.comparison op) right, h => by
    obtain ⟨hl, hr, hfit⟩ := h
    rw [alignedConstant?_binary (by simp), constant?, alignedConstant?_eq hl,
      alignedConstant?_eq hr]
    exact Option.bind_congr fun v hv => Option.bind_congr fun w hw =>
      BinaryOp.foldAligned?_of_fits (by simp) (hfit v hv w hw)
  | .call _ _, _ => rfl
  | .register _, _ | .var _, _ | .element _ _, _ | .memory _, _ | .addressOf _, _
  | .range _ _ _, _ | .structLiteral _, _ => rfl

/-! ## Agreement -/

/-- **A constant is folded to what its code leaves exactly when folding at the common types gives
the same value.** It does if the operands of each quotient and each comparison fit. -/
theorem Expr.code_leaves_constant_iff {e : Expr} {v : Value} {code : Code}
    (hf : e.IsFloatFree symbols) (hv : e.constant? symbols = some v)
    (hc : e.code symbols = .ok code) (stack : List Cell) :
    (Code.compute? code stack = some (v.cell :: stack) ↔ e.alignedConstant? symbols = some v) ∧
      (e.OperandsFit symbols → Code.compute? code stack = some (v.cell :: stack)) := by
  have hcode := code_computes hf hv code hc stack
  constructor
  · rw [hcode]
    constructor
    · intro h
      obtain ⟨w, hw, hcell⟩ := Option.map_eq_some_iff.1 h
      have ht : w.type = v.type := by
        have := (type?_of_alignedConstant? hw).symm.trans (type?_of_constant? hv)
        exact DataType.num.inj (Option.some.inj this)
      rw [hw, (Value.cell_inj ht).1 (List.cons.inj hcell).1]
    · intro h
      rw [h]
      rfl
  · intro hfit
    rw [hcode, alignedConstant?_eq hfit, hv]
    rfl

/-- A ubyte and a byte: as numbers the first one is greater, as bytes it is less. -/
def mixedLess : Expr :=
  .binary (.number (.wrapped .ubyte 200)) (.comparison .less) (.number (.wrapped .byte (-1)))

/-- The same question about two ubytes. -/
def plainLess : Expr :=
  .binary (.number (.wrapped .ubyte 200)) (.comparison .less) (.number (.wrapped .ubyte 201))

theorem mixedLess_folded_wrong :
    (mixedLess.IsFloatFree {} ∧ mixedLess.constant? {} = some (.ofBool false) ∧
      ∃ code, mixedLess.code {} = .ok code ∧
        Code.compute? code [] ≠ some [(Value.ofBool false).cell]) ∧
    (plainLess.IsFloatFree {} ∧ plainLess.constant? {} = some (.ofBool true) ∧
      ∃ code, plainLess.code {} = .ok code ∧
        Code.compute? code [] = some [(Value.ofBool true).cell]) := by
  have hm : mixedLess.IsFloatFree {} := by
    rintro e (_ | ⟨_, _ | ⟨_, _ | ⟨_, ⟨⟩⟩⟩⟩) <;> decide
  have hp : plainLess.IsFloatFree {} := by
    rintro e (_ | ⟨_, _ | ⟨_, _ | ⟨_, ⟨⟩⟩⟩⟩) <;> decide
  refine ⟨⟨hm, rfl, _, rfl, fun h => ?_⟩, hp, rfl, _, rfl, ?_⟩
  · exact absurd ((Expr.code_leaves_constant_iff hm rfl rfl []).1.1 h) (by decide)
  · refine (Expr.code_leaves_constant_iff hp rfl rfl []).2 ⟨trivial, trivial, ?_⟩
    rintro _ ⟨⟩ _ ⟨⟩
    exact BinaryOp.fits_of_isSigned_eq _ rfl

end StackCode
