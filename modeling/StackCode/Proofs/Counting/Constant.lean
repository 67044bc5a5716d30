/-
Loops over constant ranges. A range that is accepted starts at its first value and comes
to its last one in so many steps, all of them integers of the counter's type. A loop that
compares its counter with the value behind the last one runs through just these values: the
constant may have wrapped around, but so has the counter, and sums with the same step are the
same bits only if what is added to is the same.
-/
import StackCode.Proofs.Counting.Machine
import StackCode.Proofs.Flow.Preserved

namespace StackCode

/-- With the same integer added, two integers of a type differ by nothing only if they are the same. It
does not matter what wraps around. -/
theorem IntType.ofInt_shifted_sub_eq_zero {t : IntType} {m n : Int} (hm : t.Holds m) (hn : t.Holds n)
    (k : Int) : BitVec.ofInt t.size.bits (m + k - (n + k)) = 0 ↔ m = n := by
  have hdiff : m + k - (n + k) = m - n := by omega
  rw [hdiff, ofInt_sub_eq_zero hm hn]

/-! ## Ranges -/

namespace ConstantRange

variable {r : ConstantRange} {t : DataType} {type : IntType} {n k : Nat} {counter : String}

/-- The value after so many steps. -/
def value (r : ConstantRange) (k : Nat) : Int := r.first + k * r.step

theorem value_zero : r.value 0 = r.first := by
  rw [value, Int.natCast_zero, Int.zero_mul, Int.add_zero]

theorem value_succ : r.value (k + 1) = r.value k + r.step := by
  rw [value, value, Int.natCast_succ, Int.add_mul, Int.one_mul, Int.add_assoc]

/-- Steps that lead from one integer to another that is on the side they go to, without a rest. -/
theorem exists_steps (hup : 0 < r.step → r.first ≤ r.last) (hdown : r.step < 0 → r.last ≤ r.first)
    (hstep : r.step ≠ 0) (hexact : (r.last - r.first).tmod r.step = 0) :
    ∃ n, r.last = r.value n := by
  obtain ⟨m, hm⟩ := Int.dvd_of_tmod_eq_zero hexact
  have hm0 : 0 ≤ m := by
    rcases Int.lt_or_gt_of_ne hstep with hs | hs
    · have hle := hdown hs
      exact Int.nonneg_of_mul_nonpos_right (by omega) hs
    · have hle := hup hs
      exact Int.nonneg_of_mul_nonneg_right (by omega) hs
  refine ⟨m.toNat, ?_⟩
  rw [value, Int.toNat_of_nonneg hm0, Int.mul_comm, ← hm]
  omega

/-- What it takes for a range to be accepted. -/
theorem check_ok (h : r.check t = .ok type) :
    t = .int type ∧ r.step ≠ 0 ∧ r.first ≠ r.last ∧ type.Holds r.first ∧ type.Holds r.last ∧
      ∃ n, r.last = r.value n := by
  simp only [check, Lowered.check_ok_iff, Lowered.bind_ok_iff, orInvalid_ok_iff, Lowered.pure_ok_iff,
    not_or, not_and, not_not, ne_eq] at h
  obtain ⟨⟨hstep, hup, hdown⟩, hne, hexact, counter, ht, ⟨hfirst, hlast⟩, rfl⟩ := h
  exact ⟨DataType.int?_eq_some ht, hstep, hne, hfirst, hlast,
    exists_steps (fun hs => Int.not_lt.1 (hup hs)) (fun hs => Int.not_lt.1 (hdown hs)) hstep hexact⟩

/-- Every value on the way is between the first and the last one. -/
theorem holds_value (hfirst : type.Holds r.first) (hlast : type.Holds r.last) (hn : r.last = r.value n)
    (hk : k ≤ n) : type.Holds (r.value k) := by
  have hkn : (k : Int) ≤ n := Int.ofNat_le.2 hk
  rw [hn] at hlast
  unfold IntType.Holds value at *
  rcases Int.le_total 0 r.step with hs | hs
  · have h₀ : 0 ≤ k * r.step := Int.mul_nonneg (Int.natCast_nonneg k) hs
    have h₁ : k * r.step ≤ n * r.step := Int.mul_le_mul_of_nonneg_right hkn hs
    omega
  · have h₀ : k * r.step ≤ 0 := Int.mul_nonpos_of_nonneg_of_nonpos (Int.natCast_nonneg k) hs
    have h₁ : n * r.step ≤ k * r.step := Int.mul_le_mul_of_nonpos_right hkn hs
    omega

/-- No value comes twice. -/
theorem value_inj (hstep : r.step ≠ 0) : r.value k = r.value n ↔ k = n := by
  rw [value, value, Int.add_right_inj, Int.mul_eq_mul_right_iff hstep, Int.natCast_inj]

/-! ### What the code of a range computes -/

variable {W : Type} {others : Instruction → Store W → Option (Store W)} {s : Store W} {code : Code}
  {x : Int}

theorem initCode_run :
    s.run others (r.initCode type counter) =
      some (s.set counter (.int type.size (.ofInt _ r.first))) := by
  rw [initCode, Store.run_append, Store.run_push, Option.bind_some, Value.cell_wrapped, Store.run_popVar]

/-- Steps of one, one behind the other. -/
theorem run_replicate {op : Increment} (h : s.slots counter = .int type.size (.ofInt _ x)) (m : Nat) :
    s.run others (List.replicate (m + 1) ((Opcode.stepVar op (.int type)).named counter)) =
      some (s.count counter type (x + (m + 1 : Nat) * op.amount)) := by
  induction m generalizing s x with
  | zero => rw [Int.natCast_one, Int.one_mul]; exact Store.run_stepVar h
  | succ m ih =>
    have hsum : x + op.amount + (m + 1 : Nat) * op.amount = x + (m + 1 + 1 : Nat) * op.amount := by
      rw [Int.natCast_succ (m + 1), Int.add_mul, Int.one_mul]
      omega
    rw [List.replicate_succ, ← List.singleton_append, Store.run_append, Store.run_stepVar h,
      Option.bind_some, ih Store.count_slots, Store.count_count, hsum]

/-- However large the step is, it is added to the counter. -/
theorem stepCode_run (h : r.stepCode type counter = .ok code) (hstep : r.step ≠ 0)
    (hs : s.slots counter = .int type.size (.ofInt _ x)) :
    s.run others code = some (s.count counter type (x + r.step)) := by
  unfold stepCode at h
  split at h
  · cases h
    obtain ⟨m, hm⟩ := Nat.exists_eq_succ_of_ne_zero (Int.natAbs_ne_zero.2 hstep)
    rw [hm, Nat.succ_eq_add_one, run_replicate hs]
    congr 2
    split <;> simp only [Increment.amount] <;> omega
  · split at h <;> cases h
    next amount hamount =>
    rw [Store.run_append, Store.run_append, Store.run_pushVar hs, Option.bind_some, Store.run_push,
      Value.cell_of_ofInt hamount, Option.bind_some, ← List.singleton_append, Store.run_append]
    split
    · have hsum : x + r.step.natAbs = x + r.step := by omega
      rw [Store.run_add, Option.bind_some, Store.run_popVar, hsum]
      rfl
    · have hdiff : x - r.step.natAbs = x + r.step := by omega
      rw [Store.run_sub, Option.bind_some, Store.run_popVar, hdiff]
      rfl

end ConstantRange

/-! ## The text of a loop -/

/-- Making up labels writes nothing. -/
theorem freshFrame_writes {scope : String} {frame : LoopFrame} {out out' : Output}
    (h : freshFrame scope out = .ok (frame, out')) : Writes out [] out' := by
  simp only [freshFrame, Writer.bind_ok_iff, Writer.pure_ok_iff] at h
  obtain ⟨start, _, hstart, next, _, hnext, leave, _, hleave, -, rfl⟩ := h
  exact ((freshLabel_ok hstart).2.1.append (freshLabel_ok hnext).2.1).append (freshLabel_ok hleave).2.1

/-- A loop over a constant range, with the text of its body and the code of its step. -/
structure RangeLoop where
  range : ConstantRange
  type : IntType
  counter : String
  frame : LoopFrame
  body : List Entry
  step : Code

namespace RangeLoop

/-- From the break label on. -/
def exit (l : RangeLoop) : List Entry := [.label l.frame.leave false, .instruction Opcode.nop.plain]

/-- From the test of the counter on. -/
def test (l : RangeLoop) : List Entry :=
  (l.range.testCode l.type l.counter l.frame.start).map .instruction ++ l.exit

/-- From the continue label on, the label itself left out. -/
def next (l : RangeLoop) : List Entry := l.step.map .instruction ++ l.test

/-- From the start of a round on. -/
def entry (l : RangeLoop) : List Entry := l.body ++ .label l.frame.next false :: l.next

def text (l : RangeLoop) : List Entry :=
  (l.range.initCode l.type l.counter).map .instruction ++ .label l.frame.start false :: l.entry

/-- An integer in the counter. -/
def cell (l : RangeLoop) (n : Int) : Cell := .int l.type.size (.ofInt _ n)

/-- The range has been accepted, and the step is its step. -/
structure IsSound (l : RangeLoop) : Prop where
  first : l.type.Holds l.range.first
  last : l.type.Holds l.range.last
  step : l.range.step ≠ 0
  stepCode : l.range.stepCode l.type l.counter = .ok l.step

/-- The loop is what has been written, and between its labels stands what its body writes. -/
structure IsLowered (l : RangeLoop) (r : ConstantRange) (counter : Counter) (t : DataType)
    (body : LoopBody) (out out' : Output) : Prop extends l.IsSound where
  range : l.range = r
  type : .int l.type = t
  counter : l.counter = counter.name
  writes : Writes out l.text out'
  body : ∃ start stop, body l.frame.labels start = .ok ((), stop) ∧ Writes start l.body stop

section Runs

variable {W : Type} (others : Instruction → Store W → Option (Store W)) (l : RangeLoop)
  (front back : List Entry)

/-- The loop goes from one state to another, and in between the counter has these integers when a round
starts. -/
def Goes : List Entry × Store W → List Cell → List Entry × Store W → Prop :=
  Visits others (front ++ (l.text ++ back)) (l.entry ++ back) l.counter

/-- Each round that is started comes to its end, since the body falls through or continues, and no other
round is started on the way. The counter is then as it was: the body does not write it. -/
def FinishesRounds (s : Store W) : Prop :=
  ∀ cells s₁, l.Goes others front back (l.text ++ back, s) cells (l.entry ++ back, s₁) →
    ∃ s₂, l.Goes others front back (l.entry ++ back, s₁) [s₁.slots l.counter] (l.next ++ back, s₂) ∧
      s₂.slots l.counter = s₁.slots l.counter

/-- The counter has just been stepped to an integer, and the test leaves the loop or starts a round. -/
def TestsAt (x : Int) (done : Prop) [Decidable done] : Prop :=
  ∀ s : Store W, ∃ s', s'.slots l.counter = l.cell x ∧
    l.Goes others front back (l.test ++ back, s.count l.counter l.type x) []
      ((if done then l.exit else l.entry) ++ back, s')

end Runs

variable {W : Type} {others : Instruction → Store W → Option (Store W)} {l : RangeLoop}
  {front back : List Entry} {s : Store W} {n k : Nat} {x : Int}

/-- The loop is entered with the counter at the first value. -/
theorem goes_start (s : Store W) :
    ∃ s', l.Goes others front back (l.text ++ back, s) [] (l.entry ++ back, s') ∧
      s'.slots l.counter = l.cell l.range.first := by
  refine ⟨s.set l.counter (l.cell l.range.first), ?_, Function.update_self ..⟩
  rw [text, List.append_assoc, List.cons_append]
  refine .after (.straight ConstantRange.initCode_straight ConstantRange.initCode_run (.inr ?_))
    (.label (Nat.succ_ne_self _))
  exact Nat.le_succ _

/-- The start of a round stands behind its label. -/
theorem entriesBehind?_start (hlabels : (labelsOf (front ++ (l.text ++ back))).Nodup) :
    entriesBehind? l.frame.start (front ++ (l.text ++ back)) = some (l.entry ++ back) := by
  have htext : front ++ (l.text ++ back) =
      (front ++ (l.range.initCode l.type l.counter).map .instruction) ++
        .label l.frame.start false :: (l.entry ++ back) := by
    simp only [text, List.append_assoc, List.cons_append]
  rw [htext] at hlabels ⊢
  exact entriesBehind?_eq hlabels

/-- The end of a round stands behind the continue label. -/
theorem entriesBehind?_next (hlabels : (labelsOf (front ++ (l.text ++ back))).Nodup) :
    entriesBehind? l.frame.next (front ++ (l.text ++ back)) = some (l.next ++ back) := by
  have htext : front ++ (l.text ++ back) =
      (front ++ ((l.range.initCode l.type l.counter).map .instruction ++
        .label l.frame.start false :: l.body)) ++ .label l.frame.next false :: (l.next ++ back) := by
    simp only [text, entry, List.append_assoc, List.cons_append]
  rw [htext] at hlabels ⊢
  exact entriesBehind?_eq hlabels

theorem length_next_lt (l : RangeLoop) (back : List Entry) :
    (l.next ++ back).length < (l.entry ++ back).length := by
  simp only [entry, List.length_append, List.length_cons]
  omega

theorem length_test_lt (l : RangeLoop) (back : List Entry) :
    (l.test ++ back).length < (l.entry ++ back).length := by
  have hnext := l.length_next_lt back
  simp only [next, List.length_append] at hnext ⊢
  omega

variable (others front back) in
/-- Behind a round the counter is stepped. -/
theorem goes_step (h : l.IsSound) (hs : s.slots l.counter = l.cell x) :
    l.Goes others front back (l.next ++ back, s) []
      (l.test ++ back, s.count l.counter l.type (x + l.range.step)) := by
  have hlen := l.length_next_lt back
  rw [next, List.append_assoc] at hlen ⊢
  rw [List.length_append, List.length_map] at hlen
  exact .straight (ConstantRange.stepCode_straight _ h.stepCode)
    (ConstantRange.stepCode_run h.stepCode h.step hs) (.inl (by omega))

variable (others) in
/-- The stepped counter is compared with the value behind the last one: the next round is started unless
it has come there. -/
theorem goes_on (h : l.IsSound) (hlast : l.range.last ≠ 0)
    (hlabels : (labelsOf (front ++ (l.text ++ back))).Nodup) (hx : l.type.Holds x) :
    l.TestsAt others front back (x + l.range.step) (x = l.range.last) := fun s => by
  let stepped := s.count l.counter l.type (x + l.range.step)
  let difference := BitVec.ofInt l.type.size.bits (x + l.range.step - (l.range.last + l.range.step))
  let compare := [(Opcode.pushVar (.int l.type.size)).named l.counter] ++
    [(Opcode.compare l.type).given (.wrapped l.type (l.range.last + l.range.step))]
  let goBack := (Opcode.branch .notZero).named l.frame.start
  refine ⟨stepped.tell difference, Store.count_slots, ?_⟩
  have hrun : stepped.run others compare = some (stepped.tell difference) := by
    rw [Store.run_append, Store.run_pushVar Store.count_slots, Option.bind_some,
      Store.run_compare (Value.cell_wrapped ..)]
  have htest : l.test ++ back = compare.map .instruction ++ .instruction goBack :: (l.exit ++ back) := by
    simp [test, ConstantRange.testCode, hlast, compare, goBack]
  have hlen := l.length_test_lt back
  rw [htest, List.length_append, List.length_map, List.length_cons] at hlen
  have hbranch : l.Goes others front back (.instruction goBack :: (l.exit ++ back), stepped.tell difference)
      [] (if FlagTest.notZero.holds (stepped.tell difference).flags then l.entry ++ back else l.exit ++ back,
        stepped.tell difference) :=
    .branch (entriesBehind?_start hlabels) (by omega)
  have hflag : FlagTest.notZero.holds (stepped.tell difference).flags = true ↔ ¬x = l.range.last := by
    rw [← IntType.ofInt_shifted_sub_eq_zero hx h.last l.range.step]
    exact bne_iff_ne
  simp only [hflag, ite_not, ← apply_ite (· ++ back)] at hbranch
  rw [htest]
  exact .after (.straight ((Straight.of_effect rfl).append (.of_effect rfl)) hrun
    (.inl (by rw [List.length_cons]; omega))) hbranch

/-- One round, the last or another one. -/
theorem goes_round (h : l.IsSound) (htest : l.TestsAt others front back (l.range.value (k + 1)) (k = n))
    (hbody : l.FinishesRounds others front back s) {cells : List Cell} {s₁ : Store W}
    (hcome : l.Goes others front back (l.text ++ back, s) cells (l.entry ++ back, s₁))
    (hs : s₁.slots l.counter = l.cell (l.range.value k)) :
    ∃ s', l.Goes others front back (l.entry ++ back, s₁) [l.cell (l.range.value k)]
        ((if k = n then l.exit else l.entry) ++ back, s') ∧
      s'.slots l.counter = l.cell (l.range.value (k + 1)) := by
  obtain ⟨s₂, hround, hkept⟩ := hbody cells s₁ hcome
  rw [hs] at hround hkept
  obtain ⟨s', hstepped, hon⟩ := htest s₂
  have hstep := goes_step others front back h hkept
  rw [← ConstantRange.value_succ] at hstep
  exact ⟨s', hround.trans (hstep.after hon), hstepped⟩

/-- The rounds that are left up to the one behind which the test leaves the loop, by induction on how many
there are besides the present one. -/
theorem goes_until (h : l.IsSound)
    (htest : ∀ k ≤ n, l.TestsAt others front back (l.range.value (k + 1)) (k = n))
    (hbody : l.FinishesRounds others front back s) {cells : List Cell} {s₁ : Store W} (left : Nat)
    (hk : k + left = n)
    (hcome : l.Goes others front back (l.text ++ back, s) cells (l.entry ++ back, s₁))
    (hs : s₁.slots l.counter = l.cell (l.range.value k)) :
    ∃ s', l.Goes others front back (l.entry ++ back, s₁)
      ((List.range' k (left + 1)).map fun k => l.cell (l.range.value k)) (l.exit ++ back, s') := by
  induction left generalizing k cells s₁ with
  | zero =>
    obtain ⟨s', hround, -⟩ := goes_round h (htest k (by omega)) hbody hcome hs
    rw [if_pos (by omega)] at hround
    exact ⟨s', hround⟩
  | succ left ih =>
    obtain ⟨s₂, hround, hs₂⟩ := goes_round h (htest k (by omega)) hbody hcome hs
    rw [if_neg (by omega)] at hround
    obtain ⟨s', hrest⟩ := ih (by omega) (hcome.trans hround) hs₂
    exact ⟨s', hround.trans hrest⟩

/-- All rounds, from the start of the loop to its break label. -/
theorem goes_through (h : l.IsSound)
    (htest : ∀ k ≤ n, l.TestsAt others front back (l.range.value (k + 1)) (k = n))
    (hbody : l.FinishesRounds others front back s) :
    ∃ s', l.Goes others front back (l.text ++ back, s)
      ((List.range (n + 1)).map fun k => l.cell (l.range.value k)) (l.exit ++ back, s') := by
  obtain ⟨s₁, hstart, hfirst⟩ : ∃ s₁, l.Goes others front back (l.text ++ back, s) [] (l.entry ++ back, s₁) ∧
      s₁.slots l.counter = l.cell l.range.first := goes_start s
  rw [← ConstantRange.value_zero] at hfirst
  obtain ⟨s', hrounds⟩ := goes_until h htest hbody n (Nat.zero_add n) hstart hfirst
  rw [← List.range_eq_range'] at hrounds
  exact ⟨s', hstart.after hrounds⟩

/-- With the value behind the last one to compare with, these are the rounds up to the last value. -/
theorem goes_rounds (h : l.IsSound) (hlast : l.range.last ≠ 0)
    (hlabels : (labelsOf (front ++ (l.text ++ back))).Nodup) (hn : l.range.last = l.range.value n)
    (hbody : l.FinishesRounds others front back s) {cells : List Cell} {s₁ : Store W} (left : Nat)
    (hk : k + left = n)
    (hcome : l.Goes others front back (l.text ++ back, s) cells (l.entry ++ back, s₁))
    (hs : s₁.slots l.counter = l.cell (l.range.value k)) :
    ∃ s', l.Goes others front back (l.entry ++ back, s₁)
      ((List.range' k (left + 1)).map fun k => l.cell (l.range.value k)) (l.exit ++ back, s') := by
  refine goes_until h (fun k hk => ?_) hbody left hk hcome hs
  have hon := goes_on others h hlast hlabels (ConstantRange.holds_value h.first h.last hn hk)
  simp only [hn, ConstantRange.value_inj h.step] at hon
  rw [ConstantRange.value_succ]
  exact hon

/-! ## What is lowered -/

/-- A loop over a constant range, once it is lowered. -/
theorem exists_isLowered {r : ConstantRange} {counter : Counter} {t : DataType} {scope : String}
    {body : LoopBody} {part : LoopLabels → Part} (hb : ∀ labels, (body labels).Adds (part labels))
    {out out' : Output} {u : Unit} (h : constantLoop r counter t scope body out = .ok (u, out')) :
    ∃ l : RangeLoop, l.IsLowered r counter t body out out' ∧ ∃ n, r.last = r.value n := by
  simp only [constantLoop, Writer.bind_ok_iff, Writer.lift_ok_iff, emitLowered_ok_iff] at h
  obtain ⟨type, _, ⟨hcheck, rfl⟩, frame, _, hframe, _, _, hinit, _, _, hstart, _, _, hbody, _, _, hnext,
    _, _, ⟨code, hcode, hstep⟩, _, _, htest, hleave⟩ := h
  obtain ⟨htype, hne, -, hfirst, hlast, hsteps⟩ := ConstantRange.check_ok hcheck
  obtain ⟨ps, -, hround⟩ := (hb frame.labels).writes hbody
  obtain ⟨_, ⟨rfl, -⟩, hexit⟩ := Writer.Adds.close.writes hleave
  have hinit := (emit_appends ConstantRange.initCode_straight.unmarked hinit).toWrites
  have hstep := (emit_appends (ConstantRange.stepCode_straight code hcode).unmarked hstep).toWrites
  have htest := (emit_appends ConstantRange.testCode_unmarked htest).toWrites
  have hbefore := (freshFrame_writes hframe).append (hinit.append (label_appends hstart).toWrites)
  have hafter := (label_appends hnext).toWrites.append (hstep.append (htest.append hexit))
  let l : RangeLoop := { range := r, type, counter := counter.name, frame, body := entriesOf ps, step := code }
  refine ⟨l, ⟨⟨hfirst, hlast, hne, hcode⟩, rfl, htype.symm, rfl, ?_, _, _, hbody, hround⟩, hsteps⟩
  simpa [l, text, entry, next, test, exit, entriesOf, Piece.entries, Piece.label, Piece.op] using
    hbefore.append (hround.append hafter)

end RangeLoop

/-- **A loop over a constant range that does not end at zero runs through the values of the range.** Its
rounds are entered with the counter at the first value, then at each further one and at last at the last
one, all of them integers of the counter's type. Behind the last round the loop comes to its break label.
This holds wherever the text of the loop stands, whatever the other instructions do, and for each body
whose rounds come to their end and leave the counter alone. -/
theorem constantLoop_counts {env : Environment} {ctx : Context} {s : Scope} {r : ConstantRange}
    {counter : Counter} {t : DataType} {scope : String} {out out' : Output} {u : Unit}
    (h : constantLoop r counter t scope (fun labels => s.lower env (ctx.inLoop labels)) out =
      .ok (u, out')) (hlast : r.last ≠ 0) :
    ∃ (l : RangeLoop) (n : Nat),
      l.IsLowered r counter t (fun labels => s.lower env (ctx.inLoop labels)) out out' ∧
      r.last = r.value n ∧ (∀ k ≤ n, l.type.Holds (r.value k)) ∧
      ∀ (W : Type) (others : Instruction → Store W → Option (Store W)) (front back : List Entry)
        (store : Store W), (labelsOf (front ++ (l.text ++ back))).Nodup →
        l.FinishesRounds others front back store →
        ∃ store', l.Goes others front back (l.text ++ back, store)
          ((List.range (n + 1)).map fun k => l.cell (r.value k)) (l.exit ++ back, store') := by
  obtain ⟨l, hl, n, hn⟩ := RangeLoop.exists_isLowered (fun labels => s.lower_adds env (ctx.inLoop labels)) h
  refine ⟨l, n, hl, hn, fun k hk => ?_, fun W others front back store hlabels hbody => ?_⟩
  · exact ConstantRange.holds_value (hl.range ▸ hl.first) (hl.range ▸ hl.last) hn hk
  · obtain rfl := hl.range
    obtain ⟨start, hstart, hfirst⟩ : ∃ start, l.Goes others front back (l.text ++ back, store) []
        (l.entry ++ back, start) ∧ start.slots l.counter = l.cell l.range.first := RangeLoop.goes_start store
    rw [← ConstantRange.value_zero] at hfirst
    obtain ⟨store', hrounds⟩ := RangeLoop.goes_rounds hl.toIsSound hlast hlabels hn hbody n (Nat.zero_add n)
      hstart hfirst
    rw [← List.range_eq_range'] at hrounds
    exact ⟨store', hstart.after hrounds⟩

/-- The highest bytes. The value behind the last one wraps around to zero. -/
def highestBytes : ConstantRange where
  first := 253
  last := 255
  step := 1

/-- Rounds that do nothing but continue. -/
def skippingRounds : LoopBody := fun labels =>
  Scope.lower sampleEnvironment (({ scope := "main" } : Context).inLoop labels)
    { name := "", statements := [.exit .next {}], position := {} }

/-- What does nothing but continue is a jump. -/
theorem skip_writes {env : Environment} {ctx : Context} {labels : LoopLabels} {out out' : Output} {u : Unit}
    {es : List Entry}
    (h : Scope.lower env (ctx.inLoop labels) ⟨"", [.exit .next {}], {}⟩ out = .ok (u, out'))
    (hes : Writes out es out') : es = [.instruction (Opcode.jump.named labels.next)] := by
  obtain ⟨_, ⟨_, _, _, ⟨_, hloop, rfl, rfl⟩, ⟨rfl, -⟩, rfl⟩, hwrites⟩ :=
    (Scope.lower_adds ..).writes h
  cases hloop
  exact List.append_cancel_left (hes.code.symm.trans hwrites.code)

theorem skippingRounds_writes {labels : LoopLabels} {out out' : Output} {u : Unit} {es : List Entry}
    (h : skippingRounds labels out = .ok (u, out')) (hes : Writes out es out') :
    es = [.instruction (Opcode.jump.named labels.next)] :=
  skip_writes h hes

/-- Rounds that are skipped come to their end. -/
theorem RangeLoop.finishesRounds_of_skip {W : Type} {others : Instruction → Store W → Option (Store W)}
    {l : RangeLoop} {front back : List Entry} {s : Store W}
    (hlabels : (labelsOf (front ++ (l.text ++ back))).Nodup)
    (hbody : l.body = [.instruction (Opcode.jump.named l.frame.next)]) :
    l.FinishesRounds others front back s := fun cells s₁ _ => by
  refine ⟨s₁, .enter rfl ?_ (.refl _), rfl⟩
  rw [entry, hbody]
  exact congrArg (Option.map (·, s₁)) (entriesBehind?_next hlabels)

/-- The rounds of a loop over the highest bytes are entered with each of them. -/
theorem highestBytes_count : ∃ (l : RangeLoop) (out' : Output),
    l.IsLowered highestBytes (.var "main.b") .ubyte skippingRounds sampleOutput out' ∧
    ∀ (W : Type) (others : Instruction → Store W → Option (Store W)) (store : Store W), ∃ store',
      l.Goes others [] [] (l.text ++ [], store) [l.cell 253, l.cell 254, l.cell 255]
        (l.exit ++ [], store') := by
  have hlowered : (constantLoop highestBytes (.var "main.b") .ubyte "main" skippingRounds
      sampleOutput).toOption.isSome := by decide +kernel
  cases h : constantLoop highestBytes (.var "main.b") .ubyte "main" skippingRounds sampleOutput with
  | error e => simp [h, Except.toOption] at hlowered
  | ok result =>
    obtain ⟨u, out'⟩ := result
    obtain ⟨l, n, hl, hn, -, hcounts⟩ := constantLoop_counts h (by decide)
    obtain rfl : n = 2 := by
      simp only [highestBytes, ConstantRange.value] at hn
      omega
    obtain ⟨start, stop, hbody, hwrites⟩ := hl.body
    have hlabels : (labelsOf ([] ++ (l.text ++ []))).Nodup := by simpa using hl.writes.distinct
    exact ⟨l, out', hl, fun W others store => hcounts W others [] [] store hlabels
      (RangeLoop.finishesRounds_of_skip hlabels (skippingRounds_writes hbody hwrites))⟩

end StackCode
