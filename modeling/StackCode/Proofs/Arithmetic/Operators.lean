/-
Operators on integers of one type: the opcode that the code takes for an operator leaves
the value that the operator is folded to. So does each step of a shift, and a conversion
leaves the low bits of what it converts.
-/
import StackCode.Proofs.Arithmetic.Machine
import StackCode.Proofs.Constant
import StackCode.Proofs.Stack.Expr

namespace StackCode

open IntType

variable {t u : IntType} {m n : Int} {rest : List Cell}

/-! ## Values as cells -/

theorem Value.cell_wrapped (t : IntType) (n : Int) :
    (Value.wrapped t n).cell = .int t.size (.ofInt _ n) := by
  rw [wrapped, cell, ofInt_wrap]

theorem Value.cell_of_ofInt {v : Value} (h : Value.ofInt n (.int t) = .ok v) :
    v.cell = .int t.size (.ofInt _ n) := by
  rw [ofInt] at h
  split at h <;> cases h
  rfl

theorem Value.cell_ofBool (b : Bool) : (Value.ofBool b).cell = .ofBool b := by
  cases b <;> rfl

theorem Value.exists_int {v : Value} (h : v.type = .int t) : ∃ n hn, v = .int t n hn := by
  rcases v with ⟨u, n, hn⟩ | x <;> cases h
  exact ⟨n, hn, rfl⟩

/-- Values of one type with the same cell are the same. -/
theorem Value.cell_inj {v w : Value} (ht : v.type = w.type) : v.cell = w.cell ↔ v = w := by
  refine ⟨fun h => ?_, fun h => h ▸ rfl⟩
  rcases v with ⟨t, m, hm⟩ | x <;> rcases w with ⟨u, n, hn⟩ | y <;>
    simp only [type, NumType.int.injEq, reduceCtorEq] at ht
  · subst ht
    simp only [cell, Cell.int.injEq, heq_eq_eq, true_and] at h
    have hmn : m = n := by rw [← read_of_holds hm, h, read_of_holds hn]
    subst hmn
    rfl
  · simp only [cell, Cell.float.injEq] at h
    rw [h]

/-- The common type of a type and itself. -/
theorem IntType.of_self (t : IntType) :
    IntType.of (t.size.max t.size) (t.isSigned || t.isSigned) = t := by
  cases t <;> rfl

/-! ## Operators between two operands -/

/-- The result of integer arithmetic, from the bits of its operands. -/
theorem Arithmetic.act?_of_arithmetic? {op : Arithmetic} {opcode : Opcode}
    (h : Opcode.arithmetic? op (.int t) = some opcode) (hm : t.Holds m) (hn : t.Holds n) :
    opcode.act? (.int t.size (.ofInt _ n) :: .int t.size (.ofInt _ m) :: rest) =
      (op.ofInts? t m n).map (fun r => .int t.size (.ofInt _ r) :: rest) := by
  cases op <;> simp only [Opcode.arithmetic?, Option.some.injEq, reduceCtorEq] at h
  case remainder =>
    split at h <;> cases h
    next hs =>
      simp only [Opcode.act?, Cell.merge_int, Arithmetic.ofInts?, ofInt_eq_zero hn, hs,
        Bool.false_eq_true, or_false]
      split
      · rfl
      · rw [remainder_eq (by simpa using hs), read_of_holds hm, read_of_holds hn]
        rfl
  all_goals
    subst h
    simp only [Opcode.act?, Cell.merge_int, Arithmetic.ofInts?, Option.map_some]
  case add => rw [BitVec.ofInt_add]
  case sub => rw [BitVec.ofInt_sub]
  case mul => rw [BitVec.ofInt_mul]
  case div =>
    simp only [ofInt_eq_zero hn]
    split
    · rfl
    · rw [quotient_eq, read_of_holds hm, read_of_holds hn]
      rfl
  all_goals
    simp only [onBits, IntSize.ofInt_toInt, BitVec.setWidth_and, BitVec.setWidth_or,
      BitVec.setWidth_xor, IntSize.setWidth_ofInt]

theorem Comparison.act?_of_comparison {op : Comparison} (hm : t.Holds m) (hn : t.Holds n) :
    (Opcode.comparison op (.int t)).act?
        (.int t.size (.ofInt _ n) :: .int t.size (.ofInt _ m) :: rest) =
      some (.ofBool (op.ofInts m n) :: rest) := by
  cases op <;>
    simp only [Opcode.comparison, NumType.size, Opcode.act?, Cell.merge_int, Option.map_some,
      Comparison.ofInts]
  case equal => rw [ofInt_beq hm hn]
  case notEqual => rw [bne, ofInt_beq hm hn, decide_not]
  all_goals
    simp only [below_eq, atMost_eq, read_of_holds hm, read_of_holds hn, gt_iff_lt, ge_iff_le]

theorem Connective.act?_of_connective {op : Connective} (hm : t.Holds m) (hn : t.Holds n) :
    (Opcode.connective op t.size).act?
        (.int t.size (.ofInt _ n) :: .int t.size (.ofInt _ m) :: rest) =
      some (.ofBool (op.holds (m ≠ 0) (n ≠ 0)) :: rest) := by
  cases op <;>
    simp only [Opcode.connective, Opcode.act?, Cell.merge_int, Option.map_some,
      ofInt_bne_zero hm, ofInt_bne_zero hn, Connective.holds]

/-- **On integers of one type an operator is folded to what its opcode leaves.** -/
theorem BinaryOp.act?_of_binary? {op : BinaryOp} {opcode : Opcode}
    (h : Opcode.binary? op (.int t) = some opcode) (v w : Value) (hv : v.type = .int t)
    (hw : w.type = .int t) :
    opcode.act? (w.cell :: v.cell :: rest) = (op.fold? v w).map (·.cell :: rest) := by
  obtain ⟨m, hm, rfl⟩ := Value.exists_int hv
  obtain ⟨n, hn, rfl⟩ := Value.exists_int hw
  cases op with
  | arithmetic op =>
    rw [Value.cell, Value.cell, Arithmetic.act?_of_arithmetic? h hm hn]
    simp only [fold?, Arithmetic.fold?, IntType.of_self, Option.map_map]
    congr 1
    funext r
    rw [Function.comp_apply, Value.cell_wrapped]
  | connective op =>
    cases h
    rw [Value.cell, Value.cell, Connective.act?_of_connective hm hn, fold?, Option.map_some,
      Value.cell_ofBool]
    rfl
  | comparison op =>
    cases h
    rw [Value.cell, Value.cell, Comparison.act?_of_comparison hm hn, fold?, Option.map_some,
      Value.cell_ofBool]
    rfl
  | shift op => cases h

/-! ## Operators before an operand -/

theorem UnaryOp.compute? {op : UnaryOp} {opcode : Option Opcode} {v : Value} {stack : List Cell}
    (hv : v.type = .int t) (h : Opcode.unaryFor op (.int t) = .ok opcode) :
    Code.compute? (opcode.map Opcode.plain).toList (v.cell :: stack) =
      (op.fold? v).map (·.cell :: stack) := by
  obtain ⟨n, hn, rfl⟩ := Value.exists_int hv
  cases op <;> simp only [Opcode.unaryFor, orInvalid_ok_iff] at h
  case plus =>
    cases h
    rfl
  case minus =>
    simp only [DataType.num?, Option.bind_some, Option.ite_none_right_eq_some] at h
    obtain ⟨hs, h⟩ := h
    cases h
    rw [NumType.isSigned] at hs
    rw [Code.compute?_toList, NumType.size, Opcode.act?, Value.cell, Cell.turn_int, UnaryOp.fold?,
      if_pos hs, Option.map_some, Value.cell_wrapped, BitVec.ofInt_neg]
  case invert =>
    cases h
    rw [Code.compute?_toList, Opcode.act?, Value.cell, Cell.turn_int, UnaryOp.fold?,
      Option.map_some, Value.cell_wrapped, BitVec.ofInt_not]
  case not =>
    cases h
    have hbit : (if BitVec.ofInt t.size.bits n = 0 then 1 else 0) =
        BitVec.ofInt t.size.bits (if n = 0 then 1 else 0) := by
      simp only [ofInt_eq_zero hn]
      split <;> rfl
    rw [Code.compute?_toList, Opcode.act?, Value.cell, Cell.turn_int, UnaryOp.fold?,
      Option.map_some, Value.cell_wrapped, hbit]

/-! ## Shifts -/

theorem IntType.holds_shiftRight (h : t.Holds n) (k : Nat) : t.Holds (n >>> k) := by
  induction k with
  | zero => rwa [Int.shiftRight_zero]
  | succ k ih =>
    rw [Int.shiftRight_add, Int.shiftRight_eq_div_pow]
    unfold Holds lo hi at *
    cases t <;> simp only [isSigned, size, IntSize.modulus] at * <;> omega

/-- One step of a shift. -/
theorem Shift.act?_step (op : Shift) {stack : List Cell} (h : t.Holds n) :
    (Opcode.shiftStep op t).act? ((Value.int t n h).cell :: stack) =
      some ((Value.wrapped t (op.apply n 1)).cell :: stack) := by
  rw [Value.cell_wrapped]
  cases op with
  | left =>
    simp only [Opcode.shiftStep, Opcode.act?, Value.cell, Cell.turn_int, apply,
      IntSize.ofInt_shiftLeft_one]
  | right =>
    simp only [Opcode.shiftStep, Opcode.act?, Value.cell, Cell.turn_int, apply, halve_eq,
      read_of_holds h]

/-- One step more. -/
theorem Shift.wrap_apply_succ (op : Shift) (k : Nat) (h : t.Holds n) :
    t.wrap (op.apply (t.wrap (op.apply n k)) 1) = t.wrap (op.apply n (k + 1)) := by
  cases op with
  | left =>
    simp only [apply, Int.shiftLeft_eq, wrap_inj]
    rw [BitVec.ofInt_mul, ofInt_wrap, ← BitVec.ofInt_mul, Int.mul_assoc, ← Int.pow_add]
  | right =>
    simp only [apply]
    rw [wrap_eq_self (holds_shiftRight h k), ← Int.shiftRight_add]

/-- An integer that is folded in a shift is an amount in the range of a word's bits. -/
theorem Shift.amount_of_fold? {op : Shift} {x y z : Value} {k : Nat} (h : op.fold? x y = some z)
    (hk : y.int? = some (k : Int)) : k < 16 := by
  rcases x with ⟨t, n, hn⟩ | x <;> rcases y with ⟨s, m, hm⟩ | y <;>
    simp only [fold?, Option.ite_none_right_eq_some, reduceCtorEq] at h
  have hm' : m = k := Option.some.inj hk
  omega

theorem Shift.fold?_of_lt {op : Shift} {y : Value} {k : Nat} {h : t.Holds n}
    (hk : y.int? = some (k : Int)) (hlt : k < 16) :
    op.fold? (.int t n h) y = some (.wrapped t (op.apply n k)) := by
  rcases y with ⟨s, m, hm⟩ | y
  · obtain rfl : m = k := Option.some.inj hk
    rw [fold?, if_pos (by omega), Int.toNat_natCast]
  · cases hk

/-- As many steps as the amount says. -/
theorem Shift.compute?_steps (op : Shift) {stack : List Cell} (k : Nat) (h : t.Holds n) :
    Code.compute? (List.replicate k (Opcode.shiftStep op t).plain)
        ((Value.int t n h).cell :: stack) =
      some ((Value.wrapped t (op.apply n k)).cell :: stack) := by
  induction k with
  | zero =>
    have h0 : op.apply n 0 = n := by cases op <;> simp [apply]
    rw [List.replicate_zero, Code.compute?_nil, h0, Value.cell_wrapped, Value.cell]
  | succ k ih =>
    rw [List.replicate_succ', Code.compute?_append, ih, Option.bind_some,
      Code.compute?_plain, Value.wrapped,
      Shift.act?_step, Value.cell_wrapped, Value.cell_wrapped, wrap_inj.1 (op.wrap_apply_succ k h)]

/-! ## Conversions -/

/-- A value as the operators of a type find it. An integer is there by its low bits. -/
def Value.readAs : NumType → Value → Value
  | .int t, .int _ n _ => .wrapped t n
  | _, v => v

theorem Value.type_readAs {v : Value} (hv : v.type = .int t) (u : IntType) :
    (v.readAs (.int u)).type = .int u := by
  obtain ⟨n, hn, rfl⟩ := exists_int hv
  rfl

/-- A type of the same size finds the same bits. -/
theorem Value.cell_readAs {v : Value} (hv : v.type = .int t) (hs : t.size = u.size) :
    (v.readAs (.int u)).cell = v.cell := by
  obtain ⟨n, hn, rfl⟩ := exists_int hv
  rw [readAs, cell_wrapped, cell, hs]

theorem Value.cast?_computes {v : Value} {stack : List Cell} (hv : v.type = .int t) (u : IntType) :
    Code.compute? ((Opcode.cast? (.int t) (.int u)).map Opcode.plain).toList (v.cell :: stack) =
      some ((v.readAs (.int u)).cell :: stack) := by
  obtain ⟨n, hn, rfl⟩ := exists_int hv
  rw [readAs, cell_wrapped, cell]
  unfold Opcode.cast?
  split
  next =>
    rw [Code.compute?_toList, Opcode.act?, Cell.turn_int, resize_eq, read_of_holds hn]
  next h =>
    obtain rfl := NumType.int.inj (not_not.1 h)
    rfl

/-- A value on its way to the common type: it is widened, or its bits stay as they are. -/
theorem Value.widening_computes {v : Value} {stack : List Cell} {op : Option Opcode}
    (hv : v.type = .int t) (h : (DataType.int t).widening (.int u) = .ok op) :
    Code.compute? (op.map Opcode.plain).toList (v.cell :: stack) =
      some ((v.readAs (.int u)).cell :: stack) := by
  unfold DataType.widening at h
  split at h
  next heq =>
    cases h
    cases heq
    rw [cell_readAs hv rfl]
    rfl
  next =>
    simp only [Lowered.bind_ok_iff] at h
    obtain ⟨⟨a, b⟩, hab, h⟩ := h
    obtain ⟨ha, hb⟩ := Runs.bothNumeric_ok hab
    cases ha
    cases hb
    split at h
    next => simp only [Lowered.throw_ok_iff] at h
    next =>
      split at h
      next hr =>
        cases h
        rw [cell_readAs hv (Size.int.inj (NumType.size_eq_of_rank_eq hr))]
        rfl
      next =>
        cases h
        exact cast?_computes hv u

/-- A cast of an integer to an integer type. -/
theorem Value.cast_int {v : Value} (hv : v.type = .int t) (u : IntType) :
    v.cast (.int u) = .ok (v.readAs (.int u)) := by
  obtain ⟨n, hn, rfl⟩ := exists_int hv
  rfl

end StackCode
