/-
The bits of an integer. On the stack an integer has no type, only eight or sixteen
bits; an opcode reads them by the type that it works on. For an integer of that type
each reading gives the integer back, and what is computed on the bits are the low bits
of the result.
-/
import Mathlib.Algebra.Group.Nat.Defs
import StackCode.DataType.Integer

namespace StackCode

namespace IntSize

/-- The number of bits. -/
def bits : IntSize → Nat
  | byte => 8
  | word => 16

theorem modulus_eq (s : IntSize) : s.modulus = 2 ^ s.bits := by
  cases s <;> rfl

theorem bits_le (s : IntSize) : s.bits ≤ 16 := by
  cases s <;> decide

/-- The low bits of a word, read as an integer, are the low bits of the word. -/
theorem ofInt_toInt (s : IntSize) (x : BitVec 16) : .ofInt s.bits x.toInt = x.setWidth s.bits :=
  BitVec.signExtend_eq_setWidth_of_le x s.bits_le

theorem setWidth_ofInt (s : IntSize) (n : Int) :
    (BitVec.ofInt 16 n).setWidth s.bits = .ofInt s.bits n := by
  apply BitVec.eq_of_toNat_eq
  cases s <;> simp [bits]
  omega

theorem ofInt_shiftLeft_one (s : IntSize) (n : Int) :
    BitVec.ofInt s.bits n <<< 1 = .ofInt s.bits (n <<< (1 : Nat)) := by
  have h2 : BitVec.twoPow s.bits 1 = .ofInt s.bits 2 := by cases s <;> rfl
  rw [BitVec.shiftLeft_eq_mul_twoPow, h2, Int.shiftLeft_eq, BitVec.ofInt_mul]
  rfl

end IntSize

theorem BitVec.ofInt_not {w : Nat} (n : Int) :
    BitVec.ofInt w (-n - 1) = ~~~BitVec.ofInt w n := by
  rw [BitVec.not_eq_neg_add, Int.sub_eq_add_neg, BitVec.ofInt_add, BitVec.ofInt_neg,
    BitVec.ofInt_neg, ← BitVec.sub_eq_add_neg]
  rfl

theorem BitVec.ofInt_sub {w : Nat} (m n : Int) :
    BitVec.ofInt w (m - n) = BitVec.ofInt w m - BitVec.ofInt w n := by
  rw [Int.sub_eq_add_neg, BitVec.ofInt_add, BitVec.ofInt_neg, BitVec.sub_eq_add_neg]

namespace IntType

variable {t u : IntType} {m n : Int}

/-! ## Reading -/

/-- The integer of the type that has these bits. -/
def read (t : IntType) (x : BitVec t.size.bits) : Int :=
  if t.isSigned then x.toInt else x.toNat

/-- The low bits of an integer are read as its wrapping. -/
@[simp] theorem read_ofInt (t : IntType) (n : Int) : t.read (.ofInt _ n) = t.wrap n := by
  unfold read wrap
  rw [IntSize.modulus_eq]
  split
  · exact BitVec.toInt_ofInt n
  · rw [BitVec.toNat_ofInt, Int.toNat_of_nonneg]
    exact Int.emod_nonneg _ (by have := Nat.two_pow_pos t.size.bits; omega)

@[simp] theorem ofInt_read (t : IntType) (x : BitVec t.size.bits) : .ofInt _ (t.read x) = x := by
  unfold read
  split
  · exact BitVec.ofInt_toInt
  · rw [BitVec.ofInt_natCast, BitVec.ofNat_toNat, BitVec.setWidth_eq]

theorem read_inj {x y : BitVec t.size.bits} : t.read x = t.read y ↔ x = y :=
  ⟨fun h => by rw [← ofInt_read t x, h, ofInt_read], fun h => h ▸ rfl⟩

/-- Wrapping keeps the low bits. -/
@[simp] theorem ofInt_wrap (t : IntType) (n : Int) :
    BitVec.ofInt t.size.bits (t.wrap n) = .ofInt _ n := by
  rw [← read_ofInt, ofInt_read]

/-- Integers wrap alike exactly when they have the same low bits. -/
theorem wrap_inj : t.wrap m = t.wrap n ↔ BitVec.ofInt t.size.bits m = .ofInt _ n := by
  rw [← read_ofInt, ← read_ofInt, read_inj]

/-- An integer of the type is read back from its bits. -/
theorem read_of_holds (h : t.Holds n) : t.read (.ofInt _ n) = n := by
  rw [read_ofInt, wrap_eq_self h]

/-- Integers of the type are told apart by their bits. -/
theorem ofInt_inj (hm : t.Holds m) (hn : t.Holds n) :
    BitVec.ofInt t.size.bits m = .ofInt _ n ↔ m = n := by
  rw [← wrap_inj, wrap_eq_self hm, wrap_eq_self hn]

theorem holds_zero (t : IntType) : t.Holds 0 := by
  cases t <;> decide

theorem ofInt_eq_zero (h : t.Holds n) : BitVec.ofInt t.size.bits n = 0 ↔ n = 0 :=
  ofInt_inj h t.holds_zero

theorem ofInt_beq (hm : t.Holds m) (hn : t.Holds n) :
    (BitVec.ofInt t.size.bits m == .ofInt _ n) = decide (m = n) := by
  rw [Bool.eq_iff_iff, beq_iff_eq, decide_eq_true_iff, ofInt_inj hm hn]

theorem ofInt_bne_zero (h : t.Holds n) : (BitVec.ofInt t.size.bits n != 0) = decide (n ≠ 0) := by
  rw [Bool.eq_iff_iff, bne_iff_ne, decide_eq_true_iff, Ne, ofInt_eq_zero h]

/-- A type that is no smaller wraps nothing but zero to zero. -/
theorem wrap_eq_zero (hs : t.size.bits ≤ u.size.bits) (h : t.Holds n) : u.wrap n = 0 ↔ n = 0 := by
  revert hs
  cases t <;> cases u <;>
    simp only [Holds, lo, hi, wrap, isSigned, size, IntSize.modulus, IntSize.bits,
      Int.bmod] at * <;>
    simp at * <;> omega

/-! ## Operations that depend on the sign

Sums, products and bitwise operations are the same for both signednesses. The rest are
not: each goes by the sign of the type.
-/

def below (t : IntType) (x y : BitVec t.size.bits) : Bool :=
  if t.isSigned then x.slt y else x.ult y

def atMost (t : IntType) (x y : BitVec t.size.bits) : Bool :=
  if t.isSigned then x.sle y else x.ule y

/-- Division cuts off towards zero. -/
def quotient (t : IntType) (x y : BitVec t.size.bits) : BitVec t.size.bits :=
  if t.isSigned then x.sdiv y else x / y

/-- The shift to the right by one. A signed type keeps its sign. -/
def halve (t : IntType) (x : BitVec t.size.bits) : BitVec t.size.bits :=
  if t.isSigned then x.sshiftRight 1 else x >>> 1

/-- More bits are copies of the sign or zeros, fewer are the low ones. -/
def resize (t : IntType) (s : IntSize) (x : BitVec t.size.bits) : BitVec s.bits :=
  if t.isSigned then x.signExtend s.bits else x.setWidth s.bits

theorem below_eq (x y : BitVec t.size.bits) : t.below x y = decide (t.read x < t.read y) := by
  unfold below read
  split
  · rfl
  · rw [BitVec.ult_eq_decide]
    simp

theorem atMost_eq (x y : BitVec t.size.bits) : t.atMost x y = decide (t.read x ≤ t.read y) := by
  unfold atMost read
  split
  · rfl
  · rw [BitVec.ule_eq_decide]
    simp

theorem quotient_eq (x y : BitVec t.size.bits) :
    t.quotient x y = .ofInt _ ((t.read x).tdiv (t.read y)) := by
  unfold quotient read
  split
  · apply BitVec.eq_of_toInt_eq
    rw [BitVec.toInt_sdiv, BitVec.toInt_ofInt]
  · rw [← Int.ofNat_tdiv, BitVec.ofInt_natCast, ← BitVec.toNat_udiv, BitVec.ofNat_toNat,
      BitVec.setWidth_eq]

theorem remainder_eq (h : t.isSigned = false) (x y : BitVec t.size.bits) :
    x % y = .ofInt _ ((t.read x).tmod (t.read y)) := by
  simp only [read, h, Bool.false_eq_true, if_false]
  rw [← Int.ofNat_tmod, BitVec.ofInt_natCast, ← BitVec.toNat_umod, BitVec.ofNat_toNat,
    BitVec.setWidth_eq]

theorem halve_eq (x : BitVec t.size.bits) : t.halve x = .ofInt _ (t.read x >>> (1 : Nat)) := by
  unfold halve read
  split
  · rfl
  · rw [← Int.natCast_shiftRight, BitVec.ofInt_natCast, ← BitVec.toNat_ushiftRight,
      BitVec.ofNat_toNat, BitVec.setWidth_eq]

theorem resize_eq (s : IntSize) (x : BitVec t.size.bits) :
    t.resize s x = .ofInt _ (t.read x) := by
  unfold resize read
  split
  · rfl
  · rw [BitVec.ofInt_natCast, BitVec.ofNat_toNat]

end IntType
end StackCode
