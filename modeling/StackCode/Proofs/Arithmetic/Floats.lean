/-
The numbers that values stand for. An integer stands for itself and a float for a rational number,
unless it is a NaN or an infinity. Where an integer is asked for, an integer of another type keeps its
low bits, and a float is cut off towards zero and refused if what is left does not fit.
-/
import Mathlib.Data.Rat.Floor
import StackCode.Value

namespace StackCode

open Float.Model (UnpackedFloat)
open Float.Model.UnpackedFloat (ExtendedMantissa Sign)

/-! ## Cutting off -/

/-- What is left of a number without its fraction. -/
def cutOff (q : ℚ) : ℤ := if 0 ≤ q then ⌊q⌋ else ⌈q⌉

theorem cutOff_of_nonneg {q : ℚ} (h : 0 ≤ q) : cutOff q = ⌊q⌋ := if_pos h

@[simp] theorem cutOff_intCast (n : ℤ) : cutOff n = n := by
  unfold cutOff
  split
  · exact Int.floor_intCast n
  · exact Int.ceil_intCast n

theorem cutOff_neg (q : ℚ) : cutOff (-q) = -cutOff q := by
  unfold cutOff
  rcases lt_trichotomy q 0 with h | rfl | h
  · rw [if_pos (by linarith), if_neg (by linarith), Int.floor_neg]
  · simp
  · rw [if_neg (by linarith), if_pos h.le, Int.ceil_neg]

theorem cutOff_apply (sign : Sign) (m : ℤ) (p : ℚ) :
    cutOff (sign.apply m * p) = sign.apply (cutOff (m * p)) := by
  cases sign with
  | negative =>
    have hneg : ((-m : ℤ) : ℚ) * p = -(m * p) := by rw [Int.cast_neg, neg_mul]
    exact (congrArg cutOff hneg).trans (cutOff_neg _)
  | positive => rfl

/-! ## Floats -/

theorem mantissa_shiftRight (em : ExtendedMantissa) (k : ℕ) : (em >>> k).mantissa = em.mantissa / 2 ^ k := by
  induction k with
  | zero => exact (Nat.div_one _).symm
  | succ k ih =>
    have hstep : (em >>> (k + 1)).mantissa = (em >>> k).mantissa / 2 := rfl
    rw [hstep, ih, Nat.div_div_eq_div_mul, Nat.pow_succ]

/-- A float is rounded towards zero: its bits are shifted out. -/
theorem roundToInt_eq (sign : Sign) (m : ℕ) (e : ℤ) :
    UnpackedFloat.roundToInt sign m e = cutOff (sign.apply m * 2 ^ e) := by
  have hround : UnpackedFloat.roundToInt sign m e =
      sign.apply ((m <<< e.toNat / 2 ^ (-(e - e.toNat)).toNat : ℕ) : ℤ) := by
    simp only [UnpackedFloat.roundToInt, UnpackedFloat.decreaseExponent, UnpackedFloat.shiftToExponent,
      mantissa_shiftRight, sub_zero, zero_sub]
    rfl
  have hpos : 0 ≤ ((m : ℤ) : ℚ) * 2 ^ e :=
    mul_nonneg (Int.cast_nonneg (Int.natCast_nonneg m)) (zpow_nonneg zero_le_two e)
  rw [hround, cutOff_apply, cutOff_of_nonneg hpos, Nat.shiftLeft_eq]
  congr 1
  rcases Int.le_total 0 e with he | he
  · obtain ⟨k, rfl⟩ := Int.eq_ofNat_of_zero_le he
    have hzero : (-((k : ℤ) - ((k : ℤ).toNat : ℤ))).toNat = 0 := by omega
    have hfloor : ((m : ℤ) : ℚ) * 2 ^ (k : ℤ) = ((m * 2 ^ k : ℤ) : ℚ) := by push_cast; rfl
    rw [hzero, hfloor, Int.floor_intCast, pow_zero, Nat.div_one, Int.toNat_natCast]
    push_cast
    rfl
  · obtain ⟨k, hk⟩ := Int.eq_ofNat_of_zero_le (Int.neg_nonneg_of_nonpos he)
    obtain rfl : e = -(k : ℤ) := by omega
    have hzero : (-(k : ℤ)).toNat = 0 := by omega
    have hshift : (-(-(k : ℤ) - ((0 : ℕ) : ℤ))).toNat = k := by omega
    have hfloor : ((m : ℤ) : ℚ) * 2 ^ (-(k : ℤ)) = ((m : ℤ) : ℚ) / ((2 ^ k : ℕ) : ℚ) := by
      rw [zpow_neg, zpow_natCast, div_eq_mul_inv, Nat.cast_pow, Nat.cast_ofNat]
    rw [hzero, hshift, hfloor, Rat.floor_intCast_div_natCast, pow_zero, Nat.mul_one, Int.natCast_ediv]

/-- The number that a float stands for, unless it is a NaN or an infinity. -/
def floatNumber? : UnpackedFloat → Option ℚ
  | .finite sign m e _ => some (sign.apply m * 2 ^ e)
  | .zero _ => some 0
  | _ => none

/-- A finite float is a number, and cut off it is the nearest 64-bit integer towards zero. -/
theorem toInt64_eq (u : UnpackedFloat) :
    if u.isFinite then ∃ q, floatNumber? u = some q ∧ u.toInt64 = Int64.ofIntClamp (cutOff q)
    else floatNumber? u = none := by
  cases u with
  | finite sign m e pos => exact ⟨_, rfl, congrArg Int64.ofIntClamp (roundToInt_eq sign m e)⟩
  | zero sign => exact ⟨0, rfl, congrArg Int64.ofIntClamp (cutOff_intCast 0).symm⟩
  | infinity sign => rfl
  | notANumber => rfl

namespace Value

/-- The number that a value stands for, if it is one. -/
def number? : Value → Option ℚ
  | int _ n _ => some n
  | float x => floatNumber? x.toModel.unpack

theorem number?_float (x : Float) :
    if x.isFinite then
      ∃ q, (float x).number? = some q ∧ x.toModel.toInt64 = Int64.ofIntClamp (cutOff q)
    else (float x).number? = none :=
  toInt64_eq x.toModel.unpack

end Value

/-! ## Conversion -/

/-- What fits a type of the machine lies well within 64 bits. -/
theorem IntType.toInt_clamp {t : IntType} {n : ℤ} (h : t.Holds n ∨ t.Holds (Int64.ofIntClamp n).toInt) :
    (Int64.ofIntClamp n).toInt = n := by
  have hlo : Int64.minValue.toInt = -9223372036854775808 := rfl
  have hhi : Int64.maxValue.toInt = 9223372036854775807 := rfl
  have hbounds : -32768 ≤ t.lo ∧ t.hi ≤ 65535 := by cases t <;> decide
  unfold Holds at h
  unfold Int64.ofIntClamp at h ⊢
  split
  · split
    · exact Int64.toInt_ofIntLE ..
    · simp_all only [dite_true, dite_false]
      omega
  · simp_all only [dite_false]
    omega

namespace Value

/-- The integer of a type that a value is converted to, if it is converted. -/
def converted? (t : IntType) : Value → Option ℤ
  | int _ n _ => some (t.wrap n)
  | float x => (float x).number?.bind fun q => if t.Holds (cutOff q) then some (cutOff q) else none

variable {t : IntType} {v w : Value} {n : ℤ}

theorem converted?_float_eq_some {x : Float} :
    converted? t (float x) = some n ↔ ∃ q, (float x).number? = some q ∧ cutOff q = n ∧ t.Holds n := by
  simp only [converted?, Option.bind_eq_some_iff, Option.ite_none_right_eq_some, Option.some.injEq]
  refine exists_congr fun q => and_congr_right fun _ => ⟨?_, ?_⟩
  · rintro ⟨hholds, rfl⟩
    exact ⟨rfl, hholds⟩
  · rintro ⟨rfl, hholds⟩
    exact ⟨hholds, rfl⟩

theorem holds_of_converted? (h : v.converted? t = some n) : t.Holds n := by
  cases v with
  | int u m hm =>
    cases h
    exact t.holds_wrap m
  | float x =>
    obtain ⟨_, -, -, hholds⟩ := converted?_float_eq_some.1 h
    exact hholds

/-- A conversion gives the integer that it is said to give. -/
theorem cast_int_ok_iff : v.cast (.int t) = .ok w ↔ ∃ n, v.converted? t = some n ∧ w = .wrapped t n := by
  cases v with
  | int u m hm =>
    have hwrap : (Value.wrapped t (t.wrap m)) = .wrapped t m := by
      simp only [wrapped, IntType.wrap_eq_self (t.holds_wrap m)]
    simp only [cast, converted?, Except.ok.injEq, Option.some.injEq, exists_eq_left', hwrap]
    exact eq_comm
  | float x =>
    have hfloat := number?_float x
    have hcast : (float x).cast (.int t) =
        if x.isFinite then ofInt x.toModel.toInt64.toInt (.int t) else .error (.notFinite x (.int t)) := rfl
    rw [hcast]
    simp only [converted?_float_eq_some]
    split at hfloat
    next hfinite =>
      obtain ⟨q, hq, htoInt⟩ := hfloat
      rw [if_pos hfinite, htoInt, hq, ofInt]
      split
      next hholds =>
        have hclamp := IntType.toInt_clamp (.inr hholds)
        simp only [hclamp] at hholds ⊢
        simp [wrapped, IntType.wrap_eq_self hholds, hholds, eq_comm]
      next hholds =>
        have hnone : ¬ t.Holds (cutOff q) := fun h => hholds (by rwa [IntType.toInt_clamp (.inl h)])
        simp [hnone]
    next hfinite =>
      rw [if_neg hfinite, hfloat]
      simp

/-- The number is kept by the conversion if the type has it, and only then. -/
theorem number?_of_converted? (h : v.converted? t = some n) :
    v.number? = some (n : ℚ) ↔ ∃ m : ℤ, t.Holds m ∧ v.number? = some (m : ℚ) := by
  refine ⟨fun hn => ⟨n, holds_of_converted? h, hn⟩, fun ⟨m, hm, hv⟩ => ?_⟩
  suffices hmn : m = n from hmn ▸ hv
  cases v with
  | int u k hk =>
    cases h
    obtain rfl : k = m := by simpa [number?] using hv
    exact (IntType.wrap_eq_self hm).symm
  | float x =>
    obtain ⟨q, hq, rfl, -⟩ := converted?_float_eq_some.1 h
    cases hq.symm.trans hv
    exact (cutOff_intCast m).symm

end Value
end StackCode
