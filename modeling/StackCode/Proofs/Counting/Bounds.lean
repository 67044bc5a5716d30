/-
Ranges whose bounds are known only when the loop runs, and what the two tests of such a loop say of
a counter that wraps around. In front of a round the counter is compared with the last value, both as
integers of their common type. Behind a round the loop is left if the stepped counter is zero. Together
they find the end of a range, unless zero is on the way or the counter has nowhere to go behind its end.
-/
import Mathlib.Data.Nat.Find
import StackCode.Proofs.Counting.Machine

namespace StackCode

/-! ## Integers in the common type -/

/-- The type in which integers of two types are compared. -/
def IntType.common (t u : IntType) : IntType := .of (t.size.max u.size) (t.isSigned || u.isSigned)

namespace IntType

variable {t u : IntType} {n : Int}

theorem common_self (t : IntType) : t.common t = t := of_self t

/-- An integer of both types is one of their common type. -/
theorem holds_common_of_both (ht : t.Holds n) (hu : u.Holds n) : (t.common u).Holds n := by
  cases t <;> cases u <;>
    simp only [common, of, Holds, lo, hi, isSigned, size, IntSize.max, IntSize.modulus,
      Bool.or_self, Bool.or_true, Bool.or_false] at * <;>
    simp at * <;> omega

/-- An integer that is too large for the common type is taken for a negative one. Its own type has no
sign. -/
theorem wrap_common_neg (ht : t.Holds n) (hn : ¬ (t.common u).Holds n) :
    t.lo = 0 ∧ (t.common u).lo ≤ n ∧ (t.common u).wrap n < 0 := by
  cases t <;> cases u <;>
    simp only [common, of, Holds, lo, hi, isSigned, size, IntSize.max, IntSize.modulus, wrap, Int.bmod,
      Bool.or_self, Bool.or_true, Bool.or_false] at * <;>
    simp at * <;> omega

theorem wrap_modulus (t : IntType) (op : Increment) : t.wrap (t.size.modulus * op.amount) = 0 := by
  cases t <;> cases op <;> decide

end IntType

/-! ## Bounds -/

/-- A range from the first value to the last one, in steps of one. Its values are those of the counter's
type. They are compared in a type that the last value decides on, too. -/
structure Bounds where
  op : Increment
  type : IntType
  common : IntType
  first : Int
  last : Int

namespace Bounds

/-- The value after so many steps. -/
def value (b : Bounds) (k : Nat) : Int := b.first + k * b.op.amount

/-- How many values there are from the first to the last one. There are none if the first one is past the
last. -/
def count (b : Bounds) : Nat := (b.op.amount * (b.last - b.first) + 1).toNat

/-- The counter has been counted to `x`, and the comparison finds it past the last value. -/
def ReadsPast (b : Bounds) (x : Int) : Prop :=
  b.op.pastLast.ofInts (b.common.wrap (b.type.wrap x)) b.last = true

instance (b : Bounds) (x : Int) : Decidable (b.ReadsPast x) := inferInstanceAs (Decidable (_ = true))

/-- No round is started after so many steps: the counter is found past the last value, or it has been
stepped to zero. -/
def StopsAt (b : Bounds) (k : Nat) : Prop :=
  b.ReadsPast (b.value k) ∨ (0 < k ∧ b.type.wrap (b.value k) = 0)

instance (b : Bounds) (k : Nat) : Decidable (b.StopsAt k) := inferInstanceAs (Decidable (_ ∨ _))

/-- The steps lead from one side of zero to zero or past it, and the range goes on to there. -/
def MeetsZero (b : Bounds) : Prop := b.op.amount * b.first < 0 ∧ 0 ≤ b.op.amount * b.last

instance (b : Bounds) : Decidable b.MeetsZero := inferInstanceAs (Decidable (_ ∧ _))

/-- The tests tell where the range ends. A range without values must be found to have none. Of any other one
the first value must be taken for what it is, zero must not be among the values behind it, and the value
behind the last one must be zero or be found past the last one. -/
def Tells (b : Bounds) : Prop :=
  if b.count = 0 then b.ReadsPast b.first
  else b.common.Holds b.first ∧ ¬ b.MeetsZero ∧
    (b.type.wrap (b.last + b.op.amount) = 0 ∨ b.ReadsPast (b.last + b.op.amount))

instance (b : Bounds) : Decidable b.Tells :=
  inferInstanceAs (Decidable (if b.count = 0 then _ else _))

/-- The bounds are integers of the counter's type, and so is the last one of the type that it has itself. -/
structure IsSound (b : Bounds) : Prop where
  first : b.type.Holds b.first
  last : b.type.Holds b.last
  common : ∃ u : IntType, u.Holds b.last ∧ b.common = b.type.common u

variable {b : Bounds} {k : Nat} {x : Int}

theorem value_zero : b.value 0 = b.first := by
  rw [value, Int.natCast_zero, Int.zero_mul, Int.add_zero]

theorem value_succ : b.value (k + 1) = b.value k + b.op.amount := by
  rw [value, value, Int.natCast_succ, Int.add_mul, Int.one_mul, Int.add_assoc]

theorem IsSound.common_last (h : b.IsSound) : b.common.Holds b.last := by
  obtain ⟨u, hu, hcommon⟩ := h.common
  exact hcommon ▸ IntType.holds_common_of_both h.last hu

/-- Past the last value on the side that the steps lead to. -/
theorem pastLast_iff {op : Increment} {m n : Int} :
    op.pastLast.ofInts m n = true ↔ op.amount * n < op.amount * m := by
  cases op <;> simp only [Increment.pastLast, Comparison.ofInts, Increment.amount, decide_eq_true_eq] <;>
    omega

/-- An integer that the common type has as well is compared as what it is. -/
theorem readsPast_of_holds (ht : b.type.Holds x) (hc : b.common.Holds x) :
    b.ReadsPast x ↔ b.op.amount * b.last < b.op.amount * x := by
  rw [ReadsPast, IntType.wrap_eq_self ht, IntType.wrap_eq_self hc, pastLast_iff]

/-- A value of the range that the common type does not have is found past the last one. -/
theorem readsPast_of_not_holds (h : b.IsSound) (ht : b.type.Holds x)
    (hx : b.op.amount * x ≤ b.op.amount * b.last) (hc : ¬ b.common.Holds x) : b.ReadsPast x := by
  have hlast := h.common_last
  have hown := h.last
  obtain ⟨u, -, hcommon⟩ := h.common
  rw [hcommon] at hc hlast
  obtain ⟨hlo, hclo, hneg⟩ := IntType.wrap_common_neg ht hc
  rw [ReadsPast, IntType.wrap_eq_self ht, hcommon, pastLast_iff]
  unfold IntType.Holds at hc hlast hown
  cases hop : b.op <;> simp only [hop, Increment.amount] at * <;> omega

/-- A value of the range starts a round just when the common type has it and it is not a zero that the
counter has been stepped to. -/
theorem stopsAt_iff (h : b.IsSound) (ht : b.type.Holds (b.value k))
    (hx : b.op.amount * b.value k ≤ b.op.amount * b.last) :
    b.StopsAt k ↔ ¬ b.common.Holds (b.value k) ∨ (0 < k ∧ b.value k = 0) := by
  rw [StopsAt, IntType.wrap_eq_self ht]
  by_cases hc : b.common.Holds (b.value k)
  · have hon : ¬ b.ReadsPast (b.value k) := by
      rw [readsPast_of_holds ht hc]
      omega
    simp only [hon, hc, not_true, false_or]
  · have hpast := readsPast_of_not_holds h ht hx hc
    simp only [hpast, hc, not_false_eq_true, true_or]

/-- The values of a range lie between its bounds. -/
theorem value_between (hk : k < b.count) :
    b.op.amount * b.first ≤ b.op.amount * b.value k ∧ b.op.amount * b.value k ≤ b.op.amount * b.last := by
  unfold count at hk
  unfold value
  cases hop : b.op <;> simp only [hop, Increment.amount] at * <;> omega

theorem holds_between {t : IntType} {op : Increment} {first last : Int} (hfirst : t.Holds first)
    (hlast : t.Holds last) (hlo : op.amount * first ≤ op.amount * x)
    (hhi : op.amount * x ≤ op.amount * last) : t.Holds x := by
  unfold IntType.Holds at *
  cases op <;> simp only [Increment.amount] at * <;> omega

/-- The value behind the last one. -/
theorem value_count (h : b.count ≠ 0) : b.value b.count = b.last + b.op.amount := by
  unfold count at h
  unfold value count
  cases hop : b.op <;> simp only [hop, Increment.amount] at * <;> omega

/-- After as many steps at the latest as there are bit patterns the counter is zero. -/
theorem exists_stop (h : b.IsSound) : ∃ k, b.StopsAt k := by
  have hfirst := h.first
  refine ⟨(b.type.size.modulus - b.op.amount * b.first).toNat, .inr ⟨?_, ?_⟩⟩
  · unfold IntType.Holds IntType.lo IntType.hi at hfirst
    cases ht : b.type <;> cases hop : b.op <;>
      simp only [ht, hop, Increment.amount, IntType.isSigned, IntType.size, IntSize.modulus] at * <;>
      simp at * <;> omega
  · have hvalue : b.value (b.type.size.modulus - b.op.amount * b.first).toNat =
        b.type.size.modulus * b.op.amount := by
      unfold value
      unfold IntType.Holds IntType.lo IntType.hi at hfirst
      cases ht : b.type <;> cases hop : b.op <;>
        simp only [ht, hop, Increment.amount, IntType.isSigned, IntType.size, IntSize.modulus] at * <;>
        simp at * <;> omega
    rw [hvalue, IntType.wrap_modulus]

/-- All values of the range start rounds just when the first one is taken for what it is and zero is not
behind it. -/
theorem starts_all_iff (h : b.IsSound) (hcount : b.count ≠ 0) :
    (∀ k < b.count, ¬ b.StopsAt k) ↔ b.common.Holds b.first ∧ ¬ b.MeetsZero := by
  have hholds (k : Nat) (hk : k < b.count) : b.type.Holds (b.value k) :=
    holds_between h.first h.last (value_between hk).1 (value_between hk).2
  constructor
  · intro hstart
    have hcommon : b.common.Holds b.first := by
      have hzero := hstart 0 (Nat.pos_of_ne_zero hcount)
      rw [stopsAt_iff h (hholds 0 (by omega)) (value_between (by omega)).2, value_zero] at hzero
      exact not_not.1 fun hc => hzero (.inl hc)
    refine ⟨hcommon, fun hmeets => ?_⟩
    obtain ⟨k, hk₀, hk, hvalue⟩ : ∃ k, 0 < k ∧ k < b.count ∧ b.value k = 0 := by
      refine ⟨(-(b.op.amount * b.first)).toNat, ?_⟩
      unfold MeetsZero at hmeets
      unfold value count
      cases hop : b.op <;> simp only [hop, Increment.amount] at * <;> omega
    exact hstart k hk (.inr ⟨hk₀, by rw [hvalue, IntType.wrap_eq_self b.type.holds_zero]⟩)
  · rintro ⟨hcommon, hmeets⟩ k hk hstop
    obtain ⟨hlo, hhi⟩ := value_between hk
    rcases (stopsAt_iff h (hholds k hk) hhi).1 hstop with hc | ⟨hk₀, hvalue⟩
    · exact hc (holds_between hcommon h.common_last hlo hhi)
    · refine hmeets ?_
      unfold value at hvalue
      unfold count at hk
      unfold MeetsZero
      cases hop : b.op <;> simp only [hop, Increment.amount] at * <;> omega

/-- **After some step no round is started, and these are all values of the range just when the tests tell
its end.** -/
theorem exists_rounds (h : b.IsSound) :
    ∃ m, b.StopsAt m ∧ (∀ k < m, ¬ b.StopsAt k) ∧ (m = b.count ↔ b.Tells) := by
  have hstop := exists_stop h
  refine ⟨Nat.find hstop, Nat.find_spec hstop, fun k hk => Nat.find_min hstop hk, ?_⟩
  rw [Nat.find_eq_iff, Tells]
  by_cases hcount : b.count = 0
  · simp [hcount, StopsAt, value_zero]
  · have hpos := Nat.pos_of_ne_zero hcount
    rw [starts_all_iff h hcount, if_neg hcount, StopsAt, value_count hcount]
    simp only [hpos, true_and]
    tauto

/-- With the last value of the counter's type the tests fail just for a range that meets zero, and for one
to the end of the type that is not followed by zero. -/
theorem tells_iff (h : b.IsSound) (hsame : b.common = b.type) :
    b.Tells ↔ b.count = 0 ∨ (¬ b.MeetsZero ∧
      (b.type.Holds (b.last + b.op.amount) ∨ (b.op = .up ∧ b.type.isSigned = false))) := by
  have hfirst := h.first
  have hlast := h.last
  unfold Tells
  split
  next hcount =>
    rw [readsPast_of_holds hfirst (hsame ▸ hfirst)]
    simp only [hcount, true_or, iff_true]
    unfold count at hcount
    cases hop : b.op <;> simp only [hop, Increment.amount] at * <;> omega
  next hcount =>
    have hend : (b.type.wrap (b.last + b.op.amount) = 0 ∨ b.ReadsPast (b.last + b.op.amount)) ↔
        b.type.Holds (b.last + b.op.amount) ∨ (b.op = .up ∧ b.type.isSigned = false) := by
      rw [ReadsPast, pastLast_iff, hsame, IntType.wrap_eq_self (IntType.holds_wrap ..)]
      cases ht : b.type <;> cases hop : b.op <;>
        simp only [ht, hop, Increment.amount, IntType.Holds, IntType.lo, IntType.hi, IntType.wrap,
          IntType.isSigned, IntType.size, IntSize.modulus, Int.bmod] at * <;>
        simp at * <;> omega
    simp only [hcount, hend, hsame, hfirst, true_and, false_or]

end Bounds
end StackCode
