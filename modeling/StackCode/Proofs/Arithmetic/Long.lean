/-
Constants in 64 bits. The definitions of constants compute on all integers; the compiler has
64 bits for them. Here each operation on integers is done in 64 bits, behind the same checks
as before: it fails if its result needs more bits, if it divides by zero, or if it shifts by 64
bits or more. None of them ever fails, because all that an operation is applied to is the
integer of a value, which has at most 16 bits.
-/
import StackCode.Typing.Folding
import Mathlib.Logic.Basic

namespace StackCode

/-- Why an operation on 64-bit integers fails. -/
inductive LongFault where
  | overflow
  | zeroDivisor
  | wideShift
deriving DecidableEq, Repr

/-- What may fail on 64-bit integers. -/
abbrev Checked := Except LongFault

/-- What has been computed without a fault. -/
def computed {α : Type} (x : Option α) : OptionT Checked α := OptionT.mk (.ok x)

/-! ## Operations -/

namespace Long

/-- The number of different bit patterns. -/
def modulus : Nat := 18446744073709551616

/-- The integer has 64 bits. -/
def Holds (n : Int) : Prop := -(modulus / 2 : Nat) ≤ n ∧ n < (modulus / 2 : Nat)

instance (n : Int) : Decidable (Holds n) := inferInstanceAs (Decidable (_ ∧ _))

/-- The exact result, if it has 64 bits. -/
def exact (n : Int) : Checked Int := if Holds n then .ok n else .error .overflow

def neg (n : Int) : Checked Int := exact (-n)

def abs (n : Int) : Checked Int := exact n.natAbs

def add (m n : Int) : Checked Int := exact (m + n)

def sub (m n : Int) : Checked Int := exact (m - n)

def mul (m n : Int) : Checked Int := exact (m * n)

/-- Division cuts off towards zero. -/
def div (m n : Int) : Checked Int := if n = 0 then .error .zeroDivisor else exact (m.tdiv n)

/-- A remainder fails where the division does. -/
def rem (m n : Int) : Checked Int := do
  let _ ← div m n
  return m.tmod n

/-- A shift fails by its amount only. What is shifted out is lost. -/
def shift (op : Shift) (n amount : Int) : Checked Int :=
  if 0 ≤ amount ∧ amount < 64 then .ok ((op.apply n amount.toNat).bmod modulus)
  else .error .wideShift

end Long

/-! ## Operators on values -/

/-- The value of an operator before a value. A negation is the only one that can fail. -/
def UnaryOp.longFold? : UnaryOp → Value → OptionT Checked Value
  | .minus, .int t n _ => do
    guard t.isSigned
    return .wrapped t (← Long.neg n)
  | op, v => computed (op.fold? v)

def Shift.longFold? (op : Shift) : Value → Value → OptionT Checked Value
  | .int t n _, .int _ amount _ => do
    guard (0 ≤ amount ∧ amount < 16)
    return .wrapped t (← Long.shift op n amount)
  | v, w => computed (op.fold? v w)

/-- Integer arithmetic in a type. Bitwise operations cannot fail. -/
def Arithmetic.longInts? (op : Arithmetic) (t : IntType) (m n : Int) : OptionT Checked Int :=
  match op with
  | .add => Long.add m n
  | .sub => Long.sub m n
  | .mul => Long.mul m n
  | .div => do
    guard (n ≠ 0)
    Long.div m n
  | .remainder => do
    guard (n ≠ 0 ∧ ¬ t.isSigned)
    Long.rem m n
  | op => computed (op.ofInts? t m n)

def Arithmetic.longFold? (op : Arithmetic) : Value → Value → OptionT Checked Value
  | .int t m _, .int u n _ => do
    let common := IntType.of (t.size.max u.size) (t.isSigned || u.isSigned)
    return .wrapped common (← op.longInts? common m n)
  | v, w => computed (op.fold? v w)

def BinaryOp.longFold? : BinaryOp → Value → Value → OptionT Checked Value
  | .arithmetic op, v, w => op.longFold? v w
  | .shift op, v, w => op.longFold? v w
  | op, v, w => computed (op.fold? v w)

/-! ## Expressions -/

/-- The value of a constant expression, computed in 64 bits. -/
def Expr.longConstant? (symbols : SymbolTable) : Expr → OptionT Checked Value
  | cast operand type => do
    let v ← longConstant? symbols operand
    computed (v.cast type).toOption
  | unary op operand => do op.longFold? (← longConstant? symbols operand)
  | binary left op right => do
    op.longFold? (← longConstant? symbols left) (← longConstant? symbols right)
  | e => computed (e.constant? symbols)

/-! ## Integers of values -/

/-- The integer is not greater than that of any value. -/
def IsSmall (n : Int) : Prop := n.natAbs ≤ 65535

theorem IntType.Holds.isSmall {t : IntType} {n : Int} (h : t.Holds n) : IsSmall n := by
  unfold IsSmall
  cases t <;> simp only [Holds, lo, hi, isSigned, size, IntSize.modulus] at h <;> simp at h <;> omega

namespace Long

variable {m n amount : Int}

theorem exact_of_natAbs (h : n.natAbs < modulus / 2) : exact n = .ok n :=
  if_pos ⟨by omega, by omega⟩

/-- Not even a product of two small integers comes near the bound. -/
theorem lt_half {k : Nat} (h : k ≤ 65535 * 65535) : k < modulus / 2 :=
  Nat.lt_of_le_of_lt h (by decide)

theorem neg_small (h : IsSmall n) : neg n = .ok (-n) :=
  exact_of_natAbs (lt_half (by unfold IsSmall at h; omega))

theorem abs_small (h : IsSmall n) : abs n = .ok n.natAbs :=
  exact_of_natAbs (lt_half (by unfold IsSmall at h; omega))

theorem add_small (hm : IsSmall m) (hn : IsSmall n) : add m n = .ok (m + n) :=
  exact_of_natAbs (lt_half (by unfold IsSmall at hm hn; omega))

theorem sub_small (hm : IsSmall m) (hn : IsSmall n) : sub m n = .ok (m - n) :=
  exact_of_natAbs (lt_half (by unfold IsSmall at hm hn; omega))

theorem mul_small (hm : IsSmall m) (hn : IsSmall n) : mul m n = .ok (m * n) :=
  exact_of_natAbs (lt_half (Int.natAbs_mul m n ▸ Nat.mul_le_mul hm hn))

/-- A quotient is not greater than what is divided. -/
theorem div_eq (hm : m.natAbs < modulus / 2) (hn : n ≠ 0) : div m n = .ok (m.tdiv n) := by
  rw [div, if_neg hn]
  refine exact_of_natAbs (Nat.lt_of_le_of_lt ?_ hm)
  rw [Int.natAbs_tdiv]
  exact Nat.div_le_self _ _

theorem rem_eq (hm : m.natAbs < modulus / 2) (hn : n ≠ 0) : rem m n = .ok (m.tmod n) := by
  rw [rem, div_eq hm hn]
  rfl

/-- The bound is needed: of the least integer there is no quotient by minus one. -/
example : rem (-(modulus / 2 : Nat)) (-1) = .error .overflow := by rfl

/-- A shift by less than 16 bits loses none. -/
theorem shift_small (op : Shift) (h : IsSmall n) (h0 : 0 ≤ amount) (h16 : amount < 16) :
    shift op n amount = .ok (op.apply n amount.toNat) := by
  have hresult : (op.apply n amount.toNat).natAbs ≤ 65535 * 2 ^ 15 := by
    cases op with
    | left =>
      have hpow : 2 ^ amount.toNat ≤ 2 ^ 15 := Nat.pow_le_pow_right (by decide) (by omega)
      rw [Shift.apply, Int.shiftLeft_eq, Int.natAbs_mul]
      exact Nat.mul_le_mul h (by simpa using hpow)
    | right =>
      rw [Shift.apply, Int.shiftRight_eq_div_pow]
      have hle := Int.natAbs_ediv_le_natAbs n (2 ^ amount.toNat : Nat)
      unfold IsSmall at h
      omega
  rw [shift, if_pos ⟨h0, by omega⟩, Int.bmod_eq_of_le_mul_two] <;> unfold modulus <;> omega

end Long

/-! ## Nothing fails -/

section Computed

variable {α β : Type}

theorem computed_bind (x : Option α) (f : α → OptionT Checked β) :
    (computed x >>= f) = x.elim (computed none) f := by
  cases x <;> rfl

theorem computed_guard (p : Prop) [Decidable p] :
    (guard p : OptionT Checked Unit) = computed (if p then some () else none) := by
  unfold guard
  split <;> rfl

end Computed

theorem UnaryOp.longFold?_eq (op : UnaryOp) (v : Value) : op.longFold? v = computed (op.fold? v) := by
  unfold longFold?
  split
  next t n hn =>
    rw [Long.neg_small hn.isSmall, computed_guard, computed_bind, fold?]
    cases t.isSigned <;> rfl
  next => rfl

theorem Shift.longFold?_eq (op : Shift) (v w : Value) : op.longFold? v w = computed (op.fold? v w) := by
  unfold longFold?
  split
  next t n hn u amount _ =>
    rw [computed_guard, computed_bind, fold?]
    by_cases h : 0 ≤ amount ∧ amount < 16
    · rw [if_pos h, if_pos h, Long.shift_small op hn.isSmall h.1 h.2]
      rfl
    · rw [if_neg h, if_neg h]
      rfl
  next => rfl

theorem Arithmetic.longInts?_eq (op : Arithmetic) (t : IntType) {m n : Int} (hm : IsSmall m)
    (hn : IsSmall n) : op.longInts? t m n = computed (op.ofInts? t m n) := by
  have hlong : m.natAbs < Long.modulus / 2 := Long.lt_half (by unfold IsSmall at hm; omega)
  cases op with
  | add => rw [longInts?, Long.add_small hm hn]; rfl
  | sub => rw [longInts?, Long.sub_small hm hn]; rfl
  | mul => rw [longInts?, Long.mul_small hm hn]; rfl
  | div =>
    rw [longInts?, computed_guard, computed_bind, ofInts?]
    by_cases h : n = 0
    · simp [h]
    · rw [if_pos h, if_neg h, Long.div_eq hlong h]
      rfl
  | remainder =>
    rw [longInts?, computed_guard, computed_bind, ofInts?]
    by_cases h : n ≠ 0 ∧ ¬ t.isSigned
    · rw [if_pos h, if_neg (not_or.2 h), Long.rem_eq hlong h.1]
      rfl
    · rw [if_neg h, if_pos (by rwa [not_and_or, not_not, not_not] at h)]
      rfl
  | pow | bitAnd | bitOr | bitXor => rfl

theorem Arithmetic.longFold?_eq (op : Arithmetic) (v w : Value) :
    op.longFold? v w = computed (op.fold? v w) := by
  unfold longFold?
  split
  next t m hm u n hn =>
    dsimp only
    rw [longInts?_eq op _ hm.isSmall hn.isSmall, computed_bind, fold?]
    cases op.ofInts? (IntType.of (t.size.max u.size) (t.isSigned || u.isSigned)) m n <;> rfl
  next => rfl

theorem BinaryOp.longFold?_eq (op : BinaryOp) (v w : Value) :
    op.longFold? v w = computed (op.fold? v w) := by
  cases op with
  | arithmetic op => exact op.longFold?_eq v w
  | shift op => exact op.longFold?_eq v w
  | connective | comparison => rfl

/-- **A constant is computed in 64 bits without a fault**, and its value is the one that the exact
integers give. -/
theorem Expr.longConstant?_eq (symbols : SymbolTable) (e : Expr) :
    e.longConstant? symbols = computed (e.constant? symbols) := by
  fun_induction longConstant? symbols e with
  | case1 operand type ih =>
    rw [ih, computed_bind, constant?]
    cases operand.constant? symbols <;> rfl
  | case2 op operand ih =>
    rw [ih, computed_bind, constant?]
    cases h : operand.constant? symbols with
    | none => rfl
    | some v => exact op.longFold?_eq v
  | case3 left op right ihl ihr =>
    rw [ihl, computed_bind, constant?]
    cases left.constant? symbols with
    | none => rfl
    | some v =>
      rw [Option.elim_some, ihr, computed_bind]
      cases right.constant? symbols with
      | none => rfl
      | some w => exact op.longFold?_eq v w
  | case4 => rfl

/-- The integer of a constant is a small one. -/
theorem Expr.isSmall_constantInt? {symbols : SymbolTable} {e : Expr} {n : Int}
    (h : e.constantInt? symbols = some n) : IsSmall n := by
  obtain ⟨v, -, hv⟩ := Option.bind_eq_some_iff.1 h
  cases v with
  | int t m hm =>
    cases hv
    exact hm.isSmall
  | float => cases hv

end StackCode
