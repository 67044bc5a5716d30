/-
Loops over constant ranges that end at zero. The test does not look at the counter again: it goes by
the sign that the flags tell of the last step. This finds the end of a range that comes down to zero, if
no value on the way has the bits of a negative number. A range that comes up to zero is left a round
early, since zero is not negative.
-/
import Mathlib.Data.Nat.Find
import StackCode.Proofs.Counting.Constant

namespace StackCode

namespace IntSize

variable {z : IntSize} {x : Int}

theorem exists_half (z : IntSize) : ∃ half : Int, z.modulus = 2 * half ∧ 0 < half :=
  match z with
  | byte => ⟨128, rfl, by decide⟩
  | word => ⟨32768, rfl, by decide⟩

/-- The sign of a number that may be too large to have one. -/
theorem bmod_nonneg_iff (hlo : 0 ≤ x) (hhi : x < z.modulus) :
    0 ≤ x.bmod z.modulus ↔ 2 * x < z.modulus := by
  cases z <;> simp only [modulus, Int.bmod] at * <;> omega

/-- The sign of a negative number that may be too small to have one. -/
theorem bmod_neg_iff (hlo : -z.modulus ≤ x) (hhi : x < 0) :
    x.bmod z.modulus < 0 ↔ -z.modulus ≤ 2 * x := by
  cases z <;> simp only [modulus, Int.bmod] at * <;> omega

end IntSize

/-! ## What the sign tells -/

namespace ConstantRange

variable {r : ConstantRange} {type : IntType} {n k : Nat} {counter : String} {code : Code} {x : Int}

/-- The flags of a step to `x` call for another round. On the way down they do so unless the counter has
become negative, on the way up as long as it is negative. -/
def TellsOn (r : ConstantRange) (type : IntType) (x : Int) : Prop :=
  if 0 < r.first then 0 ≤ x.bmod type.size.modulus else x.bmod type.size.modulus < 0

instance (r : ConstantRange) (type : IntType) (x : Int) : Decidable (r.TellsOn type x) :=
  inferInstanceAs (Decidable (if 0 < r.first then _ else _))

/-- The sign of a counter on its way down tells when zero has been passed: either the type has a sign, or
the second value is small enough to be read as a positive number, and the step behind zero is short
enough to lead to a negative one. -/
def SignTells (r : ConstantRange) (type : IntType) : Prop :=
  type.isSigned = true ∨ (2 * (r.first + r.step) < type.size.modulus ∧ -type.size.modulus ≤ 2 * r.step)

instance (r : ConstantRange) (type : IntType) : Decidable (r.SignTells type) :=
  inferInstanceAs (Decidable (_ ∨ _))

theorem value_sub (r : ConstantRange) (n k : Nat) : r.value n - r.value k = (n - k : Int) * r.step := by
  rw [value, value, Int.sub_mul]
  omega

/-- A step that there is code for is an integer of the counter's type. -/
theorem holds_of_stepCode (h : r.stepCode type counter = .ok code) : type.Holds r.step.natAbs := by
  unfold stepCode maxUnrolled at h
  split at h
  next hsmall => cases type <;> simp only [IntType.Holds, IntType.lo, IntType.hi, IntType.isSigned,
    IntType.size, IntSize.modulus, Bool.false_eq_true, if_true, if_false] <;> omega
  next =>
    split at h <;> cases h
    next hamount =>
    rw [Value.ofInt] at hamount
    split at hamount <;> cases hamount
    assumption

/-- How far a step can lead. -/
theorem step_bounds (h : type.Holds r.step.natAbs) :
    -type.size.modulus < r.step ∧ r.step < type.size.modulus ∧
      (type.isSigned = true → -type.size.modulus ≤ 2 * r.step ∧ 2 * r.step < type.size.modulus) := by
  cases type <;> simp only [IntType.Holds, IntType.lo, IntType.hi, IntType.isSigned,
    IntType.size, IntSize.modulus, Bool.false_eq_true, if_true, if_false, true_implies,
    false_implies, and_true] at * <;> omega

/-! ### On the way down -/

/-- A range that starts above zero and comes to it goes down. -/
theorem step_neg (hfirst : 0 < r.first) (hn : r.value n = 0) : r.step < 0 := by
  have hsum : r.first + n * r.step = 0 := hn
  by_contra hs
  have hprod : 0 ≤ (n : Int) * r.step := Int.mul_nonneg (Int.natCast_nonneg n) (Int.not_lt.1 hs)
  omega

/-- The values behind the first one, down to zero. -/
theorem value_mem_down (hfirst : 0 < r.first) (hn : r.value n = 0) (hk : k < n) :
    0 ≤ r.value (k + 1) ∧ r.value (k + 1) ≤ r.first + r.step := by
  have hs := step_neg hfirst hn
  have hzero := r.value_sub n (k + 1)
  have hsecond := r.value_sub (k + 1) 1
  have hvalue : r.value 1 = r.first + r.step := by rw [value_succ, value_zero]
  have hleft : ((n : Int) - (k + 1 : Nat)) * r.step ≤ 0 :=
    Int.mul_nonpos_of_nonneg_of_nonpos (by omega) (Int.le_of_lt hs)
  have hdone : (((k + 1 : Nat) : Int) - (1 : Nat)) * r.step ≤ 0 :=
    Int.mul_nonpos_of_nonneg_of_nonpos (by omega) (Int.le_of_lt hs)
  omega

theorem tellsOn_down (hfirst : 0 < r.first) : r.TellsOn type x ↔ 0 ≤ x.bmod type.size.modulus :=
  Iff.of_eq (if_pos hfirst)

/-- If the step behind zero leads too far to have a sign, the counter goes on from above. Its distance
to the greatest integer grows by less than half of all integers, so some step leads to one with a sign. -/
theorem exists_stop_down (hfirst : 0 < r.first) (hn : r.value n = 0)
    (hbound : -type.size.modulus < r.step) : ∃ k, ¬ r.TellsOn type (r.value (k + 1)) := by
  have hs := step_neg hfirst hn
  by_cases hnear : -type.size.modulus ≤ 2 * r.step
  · refine ⟨n, ?_⟩
    rw [tellsOn_down hfirst, value_succ, hn, Int.zero_add, Int.not_le, IntSize.bmod_neg_iff (by omega) hs]
    exact hnear
  · obtain ⟨half, hhalf, hhalf₀⟩ := type.size.exists_half
    let distance := type.size.modulus + r.step
    let q := (half - 1) / distance
    have hq : 0 ≤ q := Int.ediv_nonneg (by omega) (by omega)
    have hrest : distance * q + (half - 1) % distance = half - 1 := Int.mul_ediv_add_emod ..
    have hrest₀ := Int.emod_nonneg (half - 1) (by omega : distance ≠ 0)
    have hrest₁ := Int.emod_lt_of_pos (half - 1) (by omega : 0 < distance)
    refine ⟨n + q.toNat, ?_⟩
    have hvalue : r.value (n + q.toNat + 1) = distance * q + distance - type.size.modulus * (q + 1) := by
      have hsub := r.value_sub (n + q.toNat + 1) n
      have hcount : ((n + q.toNat + 1 : Nat) : Int) - n = q + 1 := by omega
      have hdistance : distance * q = type.size.modulus * q + q * r.step := by
        rw [Int.add_mul, Int.mul_comm r.step]
      rw [hn, hcount, Int.add_mul, Int.one_mul] at hsub
      rw [Int.mul_add, Int.mul_one]
      omega
    rw [tellsOn_down hfirst, hvalue, Int.sub_mul_bmod_self_left, IntSize.bmod_nonneg_iff (by omega) (by omega)]
    omega

/-- The sign finds the end of a range that comes down to zero just when no value on the way, and not the
one behind zero, is misread. -/
theorem stops_down_iff (hfirst : type.Holds r.first) (hpos : 0 < r.first) (hn : r.value n = 0)
    (hstep : type.Holds r.step.natAbs) :
    (¬ r.TellsOn type (r.value (n + 1)) ∧ ∀ k < n, ¬ ¬ r.TellsOn type (r.value (k + 1))) ↔
      r.SignTells type := by
  have hs := step_neg hpos hn
  obtain ⟨hbound, -, hsigned⟩ := step_bounds hstep
  have hend : ¬ r.TellsOn type (r.value (n + 1)) ↔ -type.size.modulus ≤ 2 * r.step := by
    rw [tellsOn_down hpos, value_succ, hn, Int.zero_add, Int.not_le,
      IntSize.bmod_neg_iff (Int.le_of_lt hbound) hs]
  have hmodulus : r.first < type.size.modulus ∧ (type.isSigned = true → 2 * r.first < type.size.modulus) := by
    cases type <;> simp only [IntType.Holds, IntType.lo, IntType.hi, IntType.isSigned,
      IntType.size, IntSize.modulus] at * <;> simp at * <;> omega
  have hway : (∀ k < n, ¬ ¬ r.TellsOn type (r.value (k + 1))) ↔
      2 * (r.first + r.step) < type.size.modulus := by
    have htells (k : Nat) (hk : k < n) :
        r.TellsOn type (r.value (k + 1)) ↔ 2 * r.value (k + 1) < type.size.modulus := by
      obtain ⟨hlo, hhi⟩ := value_mem_down hpos hn hk
      rw [tellsOn_down hpos, IntSize.bmod_nonneg_iff hlo (by omega)]
    constructor
    · intro h
      have hn₀ : 0 < n := by
        rw [Nat.pos_iff_ne_zero]
        rintro rfl
        rw [value_zero] at hn
        omega
      have hsecond := (htells 0 hn₀).1 (not_not.1 (h 0 hn₀))
      rwa [value_succ, value_zero] at hsecond
    · intro h k hk
      obtain ⟨-, hhi⟩ := value_mem_down hpos hn hk
      rw [not_not, htells k hk]
      omega
  rw [hend, hway, SignTells]
  constructor
  · rintro ⟨hbehind, hsecond⟩
    exact .inr ⟨hsecond, hbehind⟩
  · rintro (hsign | ⟨hsecond, hbehind⟩)
    · have hfirst₂ := hmodulus.2 hsign
      exact ⟨(hsigned hsign).1, by omega⟩
    · exact ⟨hbehind, hsecond⟩

/-! ### On the way up -/

theorem tellsOn_up (hfirst : r.first < 0) : r.TellsOn type x ↔ x.bmod type.size.modulus < 0 :=
  Iff.of_eq (if_neg (by omega))

/-- Each value in front of zero is negative, but zero is not, so no round is started at it. -/
theorem tellsOn_up_iff (hfirst : r.first < 0) (hholds : type.Holds r.first) (hn : r.value n = 0)
    (hk : k < n) : r.TellsOn type (r.value (k + 1)) ↔ k + 1 < n := by
  have hlast : type.Holds 0 := type.holds_zero
  have hsum : r.first + n * r.step = 0 := hn
  have hstep : 0 < r.step := by
    by_contra hs
    have hprod : (n : Int) * r.step ≤ 0 :=
      Int.mul_nonpos_of_nonneg_of_nonpos (Int.natCast_nonneg n) (Int.not_lt.1 hs)
    omega
  have hsigned : type.Holds (r.value (k + 1)) := by
    have hlast' : type.Holds (r.value n) := hn.symm ▸ hlast
    let range : ConstantRange := { r with last := r.value n }
    exact holds_value (r := range) hholds hlast' rfl hk
  have hvalue := r.value_sub n (k + 1)
  rw [hn, Int.zero_sub] at hvalue
  rw [tellsOn_up hfirst]
  by_cases hnext : k + 1 < n
  · have hprod : 0 < ((n : Int) - (k + 1 : Nat)) * r.step := Int.mul_pos (by omega) hstep
    have hhalf : -type.size.modulus ≤ 2 * r.value (k + 1) := by
      cases type <;> simp only [IntType.Holds, IntType.lo, IntType.hi, IntType.isSigned, IntType.size,
        IntSize.modulus] at * <;> simp at * <;> omega
    have hmodulus : 0 < type.size.modulus := by cases type <;> decide
    rw [IntSize.bmod_neg_iff (by omega) (by omega)]
    simp only [hhalf, hnext]
  · obtain rfl : n = k + 1 := by omega
    rw [hn, Int.zero_bmod]
    simp only [Int.lt_irrefl, Nat.lt_irrefl]

/-! ### How many rounds there are -/

/-- After some step the sign does not call for another round. For a range that comes down to zero this is
the step from its last value just when the sign tells; a range that comes up to zero is left a round
before. -/
theorem exists_rounds (hholds : type.Holds r.first) (hfirst : r.first ≠ 0) (hn : r.value n = 0)
    (hstep : type.Holds r.step.natAbs) :
    ∃ m, (∀ k < m, r.TellsOn type (r.value (k + 1))) ∧ ¬ r.TellsOn type (r.value (m + 1)) ∧
      (0 < r.first → (m = n ↔ r.SignTells type)) ∧ (r.first < 0 → m + 1 = n) := by
  rcases Int.lt_or_gt_of_ne hfirst with hup | hdown
  · obtain ⟨m, rfl⟩ := Nat.exists_eq_succ_of_ne_zero (n := n) (by
      rintro rfl
      exact hfirst (value_zero.symm.trans hn))
    refine ⟨m, fun k hk => ?_, ?_, fun h => by omega, fun _ => rfl⟩
    · exact (tellsOn_up_iff hup hholds hn (by omega)).2 (by omega)
    · exact fun h => Nat.lt_irrefl _ ((tellsOn_up_iff hup hholds hn (by omega)).1 h)
  · have hstop := exists_stop_down hdown hn (step_bounds hstep).1
    refine ⟨Nat.find hstop, fun k hk => ?_, Nat.find_spec hstop, fun _ => ?_, fun h => by omega⟩
    · exact not_not.1 (Nat.find_min hstop hk)
    · rw [Nat.find_eq_iff]
      exact stops_down_iff hholds hdown hn hstep

end ConstantRange

/-! ## The rounds of a loop -/

namespace RangeLoop

variable {W : Type} {others : Instruction → Store W → Option (Store W)} {l : RangeLoop}
  {front back : List Entry} {x : Int}

variable (others) in
/-- The sign of the stepped counter decides, and the counter stays as it is. -/
theorem goes_on_sign (hlast : l.range.last = 0) (hlabels : (labelsOf (front ++ (l.text ++ back))).Nodup)
    (x : Int) : l.TestsAt others front back x (¬ l.range.TellsOn l.type x) := fun s => by
  let goBack : FlagTest := if 0 < l.range.first then .positive else .negative
  let stepped := s.count l.counter l.type x
  refine ⟨stepped, Store.count_slots, ?_⟩
  have htest : l.test ++ back = .instruction ((Opcode.branch goBack).named l.frame.start) :: (l.exit ++ back) := by
    simp [test, ConstantRange.testCode, hlast, goBack]
  have hlen := l.length_test_lt back
  rw [htest, List.length_cons] at hlen
  have hbranch : l.Goes others front back
      (.instruction ((Opcode.branch goBack).named l.frame.start) :: (l.exit ++ back), stepped) []
      (if goBack.holds stepped.flags then l.entry ++ back else l.exit ++ back, stepped) :=
    .branch (entriesBehind?_start hlabels) (by omega)
  have hnegative : stepped.flags .negative = decide (x.bmod l.type.size.modulus < 0) := by
    rw [IntSize.modulus_eq, ← BitVec.toInt_ofInt]
    exact BitVec.msb_eq_toInt
  have hholds : goBack.holds stepped.flags = true ↔ l.range.TellsOn l.type x := by
    unfold goBack ConstantRange.TellsOn
    split <;> simp [FlagTest.holds, hnegative]
  simp only [hholds, ← apply_ite (· ++ back)] at hbranch
  rw [htest, ite_not]
  exact hbranch

end RangeLoop

/-- A loop is lowered only over a range that has been accepted. -/
theorem constantLoop_accepts {r : ConstantRange} {counter : Counter} {t : DataType} {scope : String}
    {body : LoopBody} {out out' : Output} {u : Unit}
    (h : constantLoop r counter t scope body out = .ok (u, out')) : ∃ type, r.check t = .ok type := by
  simp only [constantLoop, Writer.bind_ok_iff, Writer.lift_ok_iff] at h
  obtain ⟨type, _, ⟨hcheck, rfl⟩, -⟩ := h
  exact ⟨type, hcheck⟩

/-- **A loop over a constant range that ends at zero runs until the sign of its stepped counter ends it.**
Its rounds are entered with the counter at the first value and at each further one that the sign calls a
round for, and behind the last of them the loop comes to its break label. On the way down these are the
values of the range just when the sign tells that zero has been passed. On the way up the round at zero is
missing. -/
theorem constantLoop_counts_toZero {env : Environment} {ctx : Context} {s : Scope} {r : ConstantRange}
    {counter : Counter} {t : DataType} {scope : String} {out out' : Output} {u : Unit}
    (h : constantLoop r counter t scope (fun labels => s.lower env (ctx.inLoop labels)) out =
      .ok (u, out')) (hlast : r.last = 0) :
    ∃ (l : RangeLoop) (n m : Nat),
      l.IsLowered r counter t (fun labels => s.lower env (ctx.inLoop labels)) out out' ∧
      r.last = r.value n ∧ (∀ k ≤ n, l.type.Holds (r.value k)) ∧
      (∀ k < m, r.TellsOn l.type (r.value (k + 1))) ∧ ¬ r.TellsOn l.type (r.value (m + 1)) ∧
      (0 < r.first → (m = n ↔ r.SignTells l.type)) ∧ (r.first < 0 → m + 1 = n) ∧
      ∀ (W : Type) (others : Instruction → Store W → Option (Store W)) (front back : List Entry)
        (store : Store W), (labelsOf (front ++ (l.text ++ back))).Nodup →
        l.FinishesRounds others front back store →
        ∃ store', l.Goes others front back (l.text ++ back, store)
          ((List.range (m + 1)).map fun k => l.cell (r.value k)) (l.exit ++ back, store') := by
  obtain ⟨type, hcheck⟩ := constantLoop_accepts h
  obtain ⟨-, -, hends, -⟩ := ConstantRange.check_ok hcheck
  obtain ⟨l, hl, n, hn⟩ := RangeLoop.exists_isLowered (fun labels => s.lower_adds env (ctx.inLoop labels)) h
  obtain rfl := hl.range
  obtain ⟨m, hon, hstop, hdown, hup⟩ := ConstantRange.exists_rounds hl.first (fun h => hends (h.trans hlast.symm))
    (hn.symm.trans hlast) (ConstantRange.holds_of_stepCode hl.stepCode)
  refine ⟨l, n, m, hl, hn, fun k hk => ConstantRange.holds_value hl.first hl.last hn hk, hon, hstop, hdown,
    hup, fun W others front back store hlabels hbody => ?_⟩
  have htest : ∀ k ≤ m, l.TestsAt others front back (l.range.value (k + 1)) (k = m) := fun k hk => by
    have hsign := RangeLoop.goes_on_sign others hlast hlabels (l.range.value (k + 1))
    have hdone : ¬ l.range.TellsOn l.type (l.range.value (k + 1)) ↔ k = m := by
      rcases Nat.lt_or_eq_of_le hk with hlt | rfl
      · exact iff_of_false (not_not.2 (hon k hlt)) (by omega)
      · exact iff_of_true hstop rfl
    simpa only [RangeLoop.TestsAt, hdone] using hsign
  exact RangeLoop.goes_through hl.toIsSound htest hbody

/-- Bytes without a sign, from one that is negative if it is read with a sign. -/
def fallingBytes : ConstantRange where
  first := 200
  last := 0
  step := -1

/-- The first step leads to a byte that looks negative, so the loop is left after a single round. -/
theorem fallingBytes_count : ∃ (l : RangeLoop) (out' : Output),
    l.IsLowered fallingBytes (.var "main.b") .ubyte skippingRounds sampleOutput out' ∧
    ∀ (W : Type) (others : Instruction → Store W → Option (Store W)) (store : Store W), ∃ store',
      l.Goes others [] [] (l.text ++ [], store) [l.cell 200] (l.exit ++ [], store') := by
  have hlowered : (constantLoop fallingBytes (.var "main.b") .ubyte "main" skippingRounds
      sampleOutput).toOption.isSome := by decide +kernel
  cases h : constantLoop fallingBytes (.var "main.b") .ubyte "main" skippingRounds sampleOutput with
  | error e => simp [h, Except.toOption] at hlowered
  | ok result =>
    obtain ⟨u, out'⟩ := result
    obtain ⟨l, n, m, hl, -, -, hon, -, -, -, hcounts⟩ := constantLoop_counts_toZero h rfl
    have htype : l.type = .ubyte := NumType.int.inj (DataType.num.inj hl.type)
    obtain rfl : m = 0 := by
      by_contra hm
      have htells := hon 0 (Nat.pos_of_ne_zero hm)
      rw [htype] at htells
      revert htells
      decide
    obtain ⟨start, stop, hbody, hwrites⟩ := hl.body
    have hlabels : (labelsOf ([] ++ (l.text ++ []))).Nodup := by simpa using hl.writes.distinct
    exact ⟨l, out', hl, fun W others store => hcounts W others [] [] store hlabels
      (RangeLoop.finishesRounds_of_skip hlabels (skippingRounds_writes hbody hwrites))⟩

end StackCode
