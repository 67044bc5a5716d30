/-
Loops over ranges with bounds that are not constant. The counter and the last value are compared in
front of each round, and the counter is looked at once more behind its step. The rounds that the loop goes
through are those up to the first one that the two tests forbid.
-/
import StackCode.Proofs.Counting.Bounds
import StackCode.Proofs.Counting.Constant

namespace StackCode

/-! ## Counters in slots -/

/-- The counter is in a register or in a variable that lives where its name says. -/
def Counter.IsSlot (symbols : SymbolTable) (t : IntType) : Counter → Prop
  | register _ => t = .ubyte
  | var name => ∃ info, symbols.var? name = some info ∧ info.type = .int t ∧ info.storage = .plain

namespace Counter.IsSlot

variable {symbols : SymbolTable} {t : IntType} {counter : Counter}

theorem type? (h : counter.IsSlot symbols t) : counter.place.type? symbols = some (.int t) := by
  cases counter with
  | register r =>
    cases h
    rfl
  | var name =>
    obtain ⟨info, hinfo, htype, -⟩ := h
    simp only [place, Place.type?, hinfo, htype, Option.map_some]

theorem read_type? (h : counter.IsSlot symbols t) : counter.place.read.type? symbols = some (.int t) := by
  cases counter with
  | register r =>
    cases h
    rfl
  | var name => exact h.type?

theorem read_code (h : counter.IsSlot symbols t) :
    counter.place.read.code symbols = .ok [(Opcode.pushVar (.int t.size)).named counter.name] := by
  cases counter with
  | register r =>
    cases h
    rfl
  | var name =>
    obtain ⟨info, hinfo, htype, hplain⟩ := h
    cases info
    cases htype
    cases hplain
    simp only [place, Place.read, Expr.code, Expr.operand, readVar, SymbolTable.needVar, hinfo]
    rfl

theorem write (h : counter.IsSlot symbols t) (inner : Lowered Code) :
    counter.place.write symbols inner = .ok [(Opcode.popVar (.int t.size)).named counter.name] := by
  cases counter with
  | register r =>
    cases h
    rfl
  | var name =>
    obtain ⟨info, hinfo, htype, hplain⟩ := h
    cases info
    cases htype
    cases hplain
    simp only [place, Place.write, writeVar, SymbolTable.needVar, hinfo]
    rfl

theorem step (h : counter.IsSlot symbols t) (op : Increment) (inner : Lowered Code) :
    counter.place.step symbols op inner = .ok [(Opcode.stepVar op (.int t)).named counter.name] := by
  cases counter with
  | register r =>
    cases h
    rfl
  | var name =>
    obtain ⟨info, hinfo, htype, hplain⟩ := h
    cases info
    cases htype
    cases hplain
    simp only [place, Place.step, SymbolTable.needVar, hinfo]
    rfl

end Counter.IsSlot

/-! ## The text of a loop -/

/-- A loop over a range, with the code of its bounds and the text of its body. The last value has a type of
its own, and both sides of the comparison are brought to the common type. -/
structure VariableLoop where
  op : Increment
  type : IntType
  limit : IntType
  counter : String
  frame : LoopFrame
  first : Code
  counterCast : Option Opcode
  last : Code
  lastCast : Option Opcode
  body : List Entry

namespace VariableLoop

def common (l : VariableLoop) : IntType := l.type.common l.limit

/-- Behind the break label. -/
def exit : List Entry := [.instruction Opcode.nop.plain]

/-- Steps the counter and pushes it. -/
def stepCode (l : VariableLoop) : Code :=
  [(Opcode.stepVar l.op (.int l.type)).named l.counter] ++
    [(Opcode.pushVar (.int l.type.size)).named l.counter]

/-- Behind the continue label. -/
def next (l : VariableLoop) : List Entry :=
  l.stepCode.map .instruction ++
    .instruction ((Opcode.jumpNonzero l.type.size).named l.frame.start) :: .label l.frame.leave false :: exit

/-- From the start of a round on. -/
def entry (l : VariableLoop) : List Entry := l.body ++ .label l.frame.next false :: l.next

/-- Pushes the counter as an integer of the common type. -/
def counterCode (l : VariableLoop) : Code :=
  [(Opcode.pushVar (.int l.type.size)).named l.counter] ++ (l.counterCast.map Opcode.plain).toList

/-- Behind the last value: the comparison. -/
def compareCode (l : VariableLoop) : Code :=
  (l.lastCast.map Opcode.plain).toList ++ [(Opcode.comparison l.op.pastLast (.int l.common)).plain]

/-- The comparison as a whole. -/
def testCode (l : VariableLoop) : Code := l.counterCode ++ (l.last ++ l.compareCode)

/-- From the comparison in front of a round on. -/
def head (l : VariableLoop) : List Entry :=
  l.testCode.map .instruction ++
    .instruction ((Opcode.jumpNonzero .byte).named l.frame.leave) :: l.entry

def text (l : VariableLoop) : List Entry :=
  (l.first ++ [(Opcode.popVar (.int l.type.size)).named l.counter]).map .instruction ++
    .label l.frame.start false :: l.head

/-- An integer in the counter. -/
def cell (l : VariableLoop) (n : Int) : Cell := .int l.type.size (.ofInt _ n)

/-- The range between two values. -/
def bounds (l : VariableLoop) (first last : Int) : Bounds where
  op := l.op
  type := l.type
  common := l.common
  first := first
  last := last

/-- Neither the first value nor the comparison takes a jump, and both sides of the comparison are
converted. -/
structure IsSound (l : VariableLoop) : Prop where
  firstStraight : Straight l.first
  testStraight : Straight l.testCode
  counterCast : (DataType.int l.type).widening (.int l.common) = .ok l.counterCast
  lastCast : (DataType.int l.limit).widening (.int l.common) = .ok l.lastCast

/-- The loop is what has been written, and between its labels stands what its body writes. -/
structure IsLowered (l : VariableLoop) (symbols : SymbolTable) (first last step : Expr) (counter : Counter)
    (body : LoopBody) (out out' : Output) : Prop extends l.IsSound where
  op : variableStep symbols step = .ok l.op
  slot : counter.IsSlot symbols l.type
  counter : l.counter = counter.name
  firstCode : (first.operand symbols).pushAs symbols (.int l.type) = .ok l.first
  lastCode : last.code symbols = .ok l.last
  limit : last.type? symbols = some (.int l.limit)
  writes : Writes out l.text out'
  body : ∃ start stop, body l.frame.labels start = .ok ((), stop) ∧ Writes start l.body stop

section Runs

variable {W : Type} (others : Instruction → Store W → Option (Store W)) (l : VariableLoop)
  (front back : List Entry)

/-- The loop goes from one state to another, and in between the counter has these integers when a round
starts. -/
def Goes : List Entry × Store W → List Cell → List Entry × Store W → Prop :=
  Visits others (front ++ (l.text ++ back)) (l.entry ++ back) l.counter

/-- The first bound is computed in front of the loop. -/
def StartsAt (first : Int) (s : Store W) : Prop :=
  ∃ s' : Store W, s.run others l.first = some (s'.push (l.cell first))

/-- The last bound keeps its value: each time that the loop comes to the comparison, the code of the bound
leaves this value on the stack and the counter as it is. -/
def KeepsLast (last : Int) (s : Store W) : Prop :=
  ∀ cells s₁ s₂, l.Goes others front back (l.text ++ back, s) cells (l.head ++ back, s₁) →
    s₁.run others l.counterCode = some s₂ →
    ∃ s₃ : Store W, s₂.run others l.last = some (s₃.push (.int l.limit.size (.ofInt _ last))) ∧
      s₃.stack = s₂.stack ∧ s₃.slots l.counter = s₂.slots l.counter

/-- Each round that is started comes to its end, since the body falls through or continues, and no other
round is started on the way. The counter is then as it was: the body does not write it. -/
def FinishesRounds (s : Store W) : Prop :=
  ∀ cells s₁, l.Goes others front back (l.text ++ back, s) cells (l.entry ++ back, s₁) →
    ∃ s₂, l.Goes others front back (l.entry ++ back, s₁) [s₁.slots l.counter] (l.next ++ back, s₂) ∧
      s₂.slots l.counter = s₁.slots l.counter

end Runs

variable {W : Type} {others : Instruction → Store W → Option (Store W)} {l : VariableLoop}
  {front back : List Entry} {s s₁ : Store W} {cells : List Cell} {first last x : Int} {k m : Nat}

/-! ## Labels and places -/

theorem head_suffix (l : VariableLoop) (front back : List Entry) :
    .label l.frame.start false :: (l.head ++ back) <:+ front ++ (l.text ++ back) := by
  rw [text, List.append_assoc, List.cons_append]
  exact (List.suffix_append _ _).trans (List.suffix_append front _)

theorem next_suffix (l : VariableLoop) (back : List Entry) :
    .label l.frame.next false :: (l.next ++ back) <:+ l.head ++ back := by
  rw [head, entry, List.append_assoc, List.cons_append, List.append_assoc, List.cons_append]
  exact (List.suffix_append _ _).trans ((List.suffix_cons _ _).trans (List.suffix_append _ _))

theorem exit_suffix (l : VariableLoop) (back : List Entry) :
    .label l.frame.leave false :: (exit ++ back) <:+ l.next ++ back := by
  rw [next, List.append_assoc, List.cons_append, List.cons_append]
  exact (List.suffix_cons _ _).trans (List.suffix_append _ _)

theorem entriesBehind?_start (hlabels : (labelsOf (front ++ (l.text ++ back))).Nodup) :
    entriesBehind? l.frame.start (front ++ (l.text ++ back)) = some (l.head ++ back) :=
  entriesBehind?_of_suffix hlabels (l.head_suffix front back)

theorem entriesBehind?_next (hlabels : (labelsOf (front ++ (l.text ++ back))).Nodup) :
    entriesBehind? l.frame.next (front ++ (l.text ++ back)) = some (l.next ++ back) :=
  entriesBehind?_of_suffix hlabels
    ((l.next_suffix back).trans ((List.suffix_cons _ _).trans (l.head_suffix front back)))

theorem entriesBehind?_leave (hlabels : (labelsOf (front ++ (l.text ++ back))).Nodup) :
    entriesBehind? l.frame.leave (front ++ (l.text ++ back)) = some (exit ++ back) := by
  have hnext := (List.suffix_cons _ _).trans (l.next_suffix back)
  exact entriesBehind?_of_suffix hlabels
    ((l.exit_suffix back).trans (hnext.trans ((List.suffix_cons _ _).trans (l.head_suffix front back))))

theorem length_next_lt (l : VariableLoop) (back : List Entry) :
    (l.next ++ back).length < (l.entry ++ back).length := by
  simp only [entry, List.length_append, List.length_cons]
  omega

/-! ## Rounds -/

variable (front back) in
/-- The loop is entered with the counter at the first value. -/
theorem goes_start (h : l.IsSound) (hfirst : l.StartsAt others first s) :
    ∃ s', l.Goes others front back (l.text ++ back, s) [] (l.head ++ back, s') ∧
      s'.slots l.counter = l.cell first := by
  obtain ⟨s₁, hrun⟩ := hfirst
  refine ⟨s₁.set l.counter (l.cell first), ?_, Function.update_self ..⟩
  have hinit : s.run others (l.first ++ [(Opcode.popVar (.int l.type.size)).named l.counter]) =
      some (s₁.set l.counter (l.cell first)) := by
    rw [Store.run_append, hrun, Option.bind_some]
    exact Store.run_popVar
  have hstraight := h.firstStraight.append
    (.of_effect (i := (Opcode.popVar (.int l.type.size)).named l.counter) rfl)
  rw [text, List.append_assoc, List.cons_append]
  refine .after (.straight hstraight hinit (.inr ?_)) (.label ?_) <;>
    simp only [head, List.length_append, List.length_cons] <;> omega

/-- The comparison reads the counter and the last value as integers of the common type. -/
theorem compare_run (h : l.IsSound) (hlast : l.limit.Holds last) (hcommon : l.common.Holds last)
    (hkept : l.KeepsLast others front back last s)
    (hcome : l.Goes others front back (l.text ++ back, s) cells (l.head ++ back, s₁))
    (hs : s₁.slots l.counter = l.cell x) :
    ∃ s' : Store W, s'.slots l.counter = l.cell x ∧
      s₁.run others l.testCode =
        some (s'.push (.ofBool (l.op.pastLast.ofInts (l.common.wrap (l.type.wrap x)) last))) := by
  obtain ⟨s₂, hslots₂, -, hcounter⟩ := Store.run_widening others s₁ x h.counterCast
  have hcounterCode : s₁.run others l.counterCode =
      some (s₂.push (.int l.common.size (.ofInt _ (l.type.wrap x)))) := by
    rw [counterCode, Store.run_append, Store.run_pushVar hs, Option.bind_some, hcounter]
  obtain ⟨s₃, hlastRun, hstack, hslots₃⟩ := hkept cells s₁ _ hcome hcounterCode
  obtain ⟨s₄, hslots₄, hstack₄, hlimit⟩ :=
    Store.run_widening others s₃ last h.lastCast
  rw [IntType.wrap_eq_self hlast] at hlimit
  have hcompare : (Opcode.comparison l.op.pastLast (.int l.common)).act?
      (s₄.push (.int l.common.size (.ofInt _ last))).stack =
        some (.ofBool (l.op.pastLast.ofInts (l.common.wrap (l.type.wrap x)) last) :: s₂.stack) := by
    rw [← Comparison.act?_of_comparison (IntType.holds_wrap ..) hcommon, IntType.ofInt_wrap]
    change Opcode.act? _ (_ :: s₄.stack) = _
    rw [hstack₄, hstack]
    rfl
  let isPast := l.op.pastLast.ofInts (l.common.wrap (l.type.wrap x)) last
  refine ⟨{ s₄ with stack := s₂.stack }.tell (z := .byte) (if isPast then 1 else 0), ?_, ?_⟩
  · calc s₄.slots l.counter = s₂.slots l.counter := by rw [hslots₄, hslots₃]; rfl
      _ = l.cell x := by rw [hslots₂, hs]
  · rw [testCode, Store.run_append, hcounterCode, Option.bind_some, Store.run_append, hlastRun,
      Option.bind_some, compareCode, Store.run_append, hlimit, Option.bind_some]
    exact Store.run_plain hcompare

variable (first) in
/-- In front of a round: it is started unless the counter is found past the last value. -/
theorem goes_test (h : l.IsSound) (hlast : l.limit.Holds last) (hcommon : l.common.Holds last)
    (hlabels : (labelsOf (front ++ (l.text ++ back))).Nodup)
    (hkept : l.KeepsLast others front back last s)
    (hcome : l.Goes others front back (l.text ++ back, s) cells (l.head ++ back, s₁))
    (hs : s₁.slots l.counter = l.cell x) :
    ∃ s', s'.slots l.counter = l.cell x ∧ l.Goes others front back (l.head ++ back, s₁) []
      ((if (l.bounds first last).ReadsPast x then exit else l.entry) ++ back, s') := by
  obtain ⟨s', hslots, hrun⟩ := compare_run h hlast hcommon hkept hcome hs
  refine ⟨s', hslots, ?_⟩
  rw [head, List.append_assoc, List.cons_append]
  refine .after (.straight h.testStraight hrun (.inr (Nat.le_succ _))) ?_
  have hjump : l.Goes others front back _ []
      (if (l.bounds first last).ReadsPast x then exit ++ back else l.entry ++ back, s') :=
    .jumpIf (entriesBehind?_leave hlabels) (Nat.succ_ne_self _)
  rw [apply_ite (· ++ back)]
  exact hjump

variable (others front back) in
/-- Behind a round the counter is stepped, and the loop is left if it is zero then. -/
theorem goes_on (hlabels : (labelsOf (front ++ (l.text ++ back))).Nodup)
    (hs : s.slots l.counter = l.cell x) :
    ∃ s', s'.slots l.counter = l.cell (x + l.op.amount) ∧ l.Goes others front back (l.next ++ back, s) []
      ((if l.type.wrap (x + l.op.amount) = 0 then exit else l.head) ++ back, s') := by
  let stepped := s.count l.counter l.type (x + l.op.amount)
  refine ⟨stepped, Store.count_slots, ?_⟩
  have hrun : s.run others l.stepCode = some (stepped.push (l.cell (x + l.op.amount))) := by
    rw [stepCode, Store.run_append, Store.run_stepVar hs, Option.bind_some,
      Store.run_pushVar Store.count_slots]
    rfl
  have hstep : Straight [(Opcode.stepVar l.op (.int l.type)).named l.counter] :=
    .of_effect (e := {}) (by rw [Opcode.named, Opcode.stepVar_effect])
  have hstraight : Straight l.stepCode := hstep.append (.of_effect rfl)
  have hlen := l.length_next_lt back
  simp only [next, List.append_assoc, List.cons_append, List.length_append, List.length_map,
    List.length_cons] at hlen ⊢
  have hjump : l.Goes others front back
      (.instruction ((Opcode.jumpNonzero l.type.size).named l.frame.start) ::
        .label l.frame.leave false :: (exit ++ back), stepped.push (l.cell (x + l.op.amount))) []
      (if BitVec.ofInt l.type.size.bits (x + l.op.amount) = 0 then .label l.frame.leave false :: (exit ++ back)
        else l.head ++ back, stepped) :=
    .jumpNonzero (entriesBehind?_start hlabels) (by simp only [List.length_cons, List.length_append]; omega)
  have hzero : BitVec.ofInt l.type.size.bits (x + l.op.amount) = 0 ↔ l.type.wrap (x + l.op.amount) = 0 := by
    rw [← IntType.ofInt_wrap, IntType.ofInt_eq_zero (IntType.holds_wrap ..)]
  refine .after (.straight hstraight hrun (.inl ?_)) (.after hjump ?_)
  · simp only [List.length_cons, List.length_append]
    omega
  · by_cases hx : l.type.wrap (x + l.op.amount) = 0
    · rw [if_pos hx, if_pos (hzero.2 hx)]
      exact .label (by simp only [List.length_append]; omega)
    · rw [if_neg hx, if_neg (mt hzero.1 hx)]
      exact .refl _

/-- The rounds that are left up to the first one that the tests forbid, by induction on how many there are.
The counter has not been stepped to zero, or the loop would not be where it is. -/
theorem goes_rounds (h : l.IsSound) (hb : (l.bounds first last).IsSound) (hlast : l.limit.Holds last)
    (hlabels : (labelsOf (front ++ (l.text ++ back))).Nodup)
    (hkept : l.KeepsLast others front back last s) (hbody : l.FinishesRounds others front back s)
    (hstop : (l.bounds first last).StopsAt m) (hon : ∀ k < m, ¬ (l.bounds first last).StopsAt k)
    (left : Nat) (hk : k + left = m)
    (hcome : l.Goes others front back (l.text ++ back, s) cells (l.head ++ back, s₁))
    (hs : s₁.slots l.counter = l.cell ((l.bounds first last).value k))
    (hzero : 0 < k → l.type.wrap ((l.bounds first last).value k) ≠ 0) :
    ∃ s', l.Goes others front back (l.head ++ back, s₁)
      ((List.range' k left).map fun k => l.cell ((l.bounds first last).value k)) (exit ++ back, s') := by
  induction left generalizing k cells s₁ with
  | zero =>
    obtain rfl : k = m := hk
    have hpast : (l.bounds first last).ReadsPast ((l.bounds first last).value k) :=
      hstop.resolve_right fun ⟨hk₀, hz⟩ => hzero hk₀ hz
    obtain ⟨s', -, htest⟩ := goes_test first h hlast hb.common_last hlabels hkept hcome hs
    rw [if_pos hpast] at htest
    exact ⟨s', htest⟩
  | succ left ih =>
    have hround := hon k (by omega)
    obtain ⟨s₂, hs₂, htest⟩ := goes_test first h hlast hb.common_last hlabels hkept hcome hs
    rw [if_neg fun hpast => hround (.inl hpast)] at htest
    obtain ⟨s₃, hbodyRun, hs₃⟩ := hbody _ s₂ (hcome.trans htest)
    rw [hs₂] at hbodyRun hs₃
    obtain ⟨s₄, hs₄, hnext⟩ := goes_on others front back hlabels hs₃
    have hstepped : (l.bounds first last).value k + l.op.amount = (l.bounds first last).value (k + 1) :=
      Bounds.value_succ.symm
    rw [hstepped] at hs₄ hnext
    have hgone := htest.trans (hbodyRun.trans hnext)
    by_cases hx : l.type.wrap ((l.bounds first last).value (k + 1)) = 0
    · obtain rfl : left = 0 := by
        by_contra hleft
        exact hon (k + 1) (by omega) (.inr ⟨Nat.succ_pos k, hx⟩)
      rw [if_pos hx] at hgone
      exact ⟨s₄, hgone⟩
    · rw [if_neg hx] at hgone
      obtain ⟨s', hrest⟩ := ih (by omega) (hcome.trans hgone) hs₄ fun _ => hx
      exact ⟨s', hgone.trans hrest⟩

/-! ## What is lowered -/

/-- The code of the comparison in front of a round. -/
theorem testCode_ok {symbols : SymbolTable} {counter : Counter} {op : Increment} {last : Expr}
    {t u : IntType} {code : Code} (hslot : counter.IsSlot symbols t)
    (hlast : last.type? symbols = some (.int u))
    (h : (Expr.binary counter.place.read (.comparison op.pastLast) last).code symbols = .ok code) :
    ∃ counterCast lastCode lastCast,
      (DataType.int t).widening (.int (t.common u)) = .ok counterCast ∧ last.code symbols = .ok lastCode ∧
      (DataType.int u).widening (.int (t.common u)) = .ok lastCast ∧
      code = ([(Opcode.pushVar (.int t.size)).named counter.name] ++ (counterCast.map Opcode.plain).toList) ++
        (lastCode ++ ((lastCast.map Opcode.plain).toList ++
          [(Opcode.comparison op.pastLast (.int (t.common u))).plain])) := by
  simp only [Expr.code, Expr.operand] at h
  obtain ⟨a, b, opcode, lc, lw, rc, rw, ha, hb, hopcode, hlc, hlw, hrc, hrw, rfl⟩ :=
    binaryCode_ok (by simp) h
  rw [Expr.expr_operand] at ha hb
  rw [hslot.read_type?] at ha
  rw [hlast] at hb
  cases ha
  cases hb
  cases hopcode
  cases hslot.read_code.symm.trans hlc
  refine ⟨lw, rc, rw, hlw, hrc, hrw, ?_⟩
  simp only [List.append_assoc]
  rfl

theorem conditionType_ok {symbols : SymbolTable} {left right : Expr} {op : Comparison} {t : DataType}
    (h : (Expr.binary left (.comparison op) right).needType symbols = .ok t) : t = .ubyte := by
  rw [Expr.needType_ok_iff] at h
  simp only [Expr.type?, Option.bind_eq_bind, Option.bind_eq_some_iff] at h
  obtain ⟨a, -, b, -, hresult⟩ := h
  exact (Option.some.inj hresult).symm

/-- A jump to a label that lowering has made up itself. -/
theorem jump_appends {env : Environment} {op : Opcode} {label : String} {position : Position}
    {out out' : Output} {v : Unit} (hop : op ≠ .line)
    (h : env.jump op (.generated label) position out = .ok (v, out')) :
    Appends out [.instruction (op.named label)] out' := by
  simp only [Environment.jump, Environment.jumpInstruction, Writer.bind_ok_iff, Writer.lift_ok_iff] at h
  obtain ⟨_, mid, hmark, i, _, ⟨hi, rfl⟩, hemit⟩ := h
  cases hi
  exact (mark_appends hmark).append (emit_appends (by simpa [Opcode.named] using hop) hemit)

/-- An assignment to a counter in a slot. -/
theorem assignCode_ok {symbols : SymbolTable} {counter : Counter} {value : Expr} {t : IntType} {code : Code}
    (hslot : counter.IsSlot symbols t) (h : assignCode symbols counter.place value = .ok code) :
    ∃ c, (value.operand symbols).pushAs symbols (.int t) = .ok c ∧
      code = c ++ [(Opcode.popVar (.int t.size)).named counter.name] := by
  simp only [assignCode, Operand.assign, Lowered.bind_ok_iff, Lowered.pure_ok_iff,
    Place.needType_ok_iff] at h
  obtain ⟨t', ht', c, hc, c', hc', rfl⟩ := h
  cases hslot.type?.symm.trans ht'
  cases (hslot.write _).symm.trans hc'
  exact ⟨c, hc, rfl⟩

/-- A loop over a range with bounds that are not constant, once it is lowered. -/
theorem exists_isLowered {env : Environment} {first last step : Expr} {counter : Counter} {t u : IntType}
    {scope : String} {position : Position} {body : LoopBody} {part : LoopLabels → Part}
    (hb : ∀ labels, (body labels).Adds (part labels)) {out out' : Output} {v : Unit}
    (hslot : counter.IsSlot env.symbols t) (hlast : last.type? env.symbols = some (.int u))
    (h : variableLoop env first last step counter (.int t) scope position body out = .ok (v, out')) :
    ∃ l : VariableLoop, l.IsLowered env.symbols first last step counter body out out' ∧
      l.type = t ∧ l.limit = u := by
  simp only [variableLoop, Writer.bind_ok_iff, Writer.lift_ok_iff, emitLowered_ok_iff] at h
  obtain ⟨op, _, ⟨hop, rfl⟩, goOn, _, ⟨hgoOn, rfl⟩, _, _, ⟨init, hinit, hemitInit⟩, frame, _, hframe,
    _, _, hstart, _, _, hmark, type, _, ⟨htype, rfl⟩, _, _, ⟨test, htest, hemitTest⟩, away, _,
    ⟨haway, rfl⟩, _, _, hjump, _, _, hbody, _, _, hnext, _, _, ⟨stepCode, hstep, hemitStep⟩, _, _,
    ⟨readCode, hread, hemitRead⟩, _, _, hgo, hleave⟩ := h
  cases conditionType_ok htype
  cases haway
  cases hgoOn
  have hstraightTest := Action.code_straight (.evaluate _) _ htest
  obtain ⟨firstCode, hfirst, rfl⟩ := assignCode_ok hslot hinit
  obtain ⟨counterCast, lastCode, lastCast, hcounterCast, hlastCode, hlastCast, rfl⟩ :=
    testCode_ok hslot hlast htest
  cases (hslot.step op _).symm.trans hstep
  cases hslot.read_code.symm.trans hread
  have hstraightFirst := Action.code_straight (.give first (.int t)) _ hfirst
  obtain ⟨ps, -, hround⟩ := (hb frame.labels).writes hbody
  obtain ⟨_, ⟨rfl, -⟩, hexit⟩ := Writer.Adds.close.writes hleave
  let l : VariableLoop :=
    { op, type := t, limit := u, counter := counter.name, frame, first := firstCode, counterCast,
      last := lastCode, lastCast, body := entriesOf ps }
  have hpop : Straight [(Opcode.popVar (.int t.size)).named counter.name] := .of_effect rfl
  have hpush : Straight [(Opcode.pushVar (.int t.size)).named counter.name] := .of_effect rfl
  have hstepped : Straight [(Opcode.stepVar op (.int t)).named counter.name] :=
    .of_effect (e := {}) (by rw [Opcode.named, Opcode.stepVar_effect])
  have hinit := (emit_appends (hstraightFirst.append hpop).unmarked hemitInit).toWrites
  have hbefore := hinit.append ((freshFrame_writes hframe).append (label_appends hstart).toWrites)
  have htest := (mark_appends hmark).toWrites.append
    (emit_appends hstraightTest.unmarked hemitTest).toWrites
  have hjump : Appends _ [.instruction ((Opcode.jumpNonzero .byte).named frame.leave)] _ :=
    jump_appends (by simp) hjump
  have hhead := htest.append hjump.toWrites
  have hstepRead := (emit_appends hstepped.unmarked hemitStep).toWrites.append
    (emit_appends hpush.unmarked hemitRead).toWrites
  have hback := (emit_appends (Unmarked.jump rfl) hgo).toWrites
  have hafter := (label_appends hnext).toWrites.append (hstepRead.append (hback.append hexit))
  refine ⟨l, ⟨⟨hstraightFirst, hstraightTest, hcounterCast, hlastCast⟩, hop, hslot, rfl, hfirst, hlastCode,
    hlast, ?_, _, _, hbody, hround⟩, rfl, rfl⟩
  simpa [l, text, head, entry, next, exit, testCode, counterCode, compareCode, stepCode, common, entriesOf,
    Piece.entries, Piece.label, Piece.op] using hbefore.append (hhead.append (hround.append hafter))

end VariableLoop

/-- Rounds that are skipped come to their end. -/
theorem VariableLoop.finishesRounds_of_skip {W : Type} {others : Instruction → Store W → Option (Store W)}
    {l : VariableLoop} {front back : List Entry} {s : Store W}
    (hlabels : (labelsOf (front ++ (l.text ++ back))).Nodup)
    (hbody : l.body = [.instruction (Opcode.jump.named l.frame.next)]) :
    l.FinishesRounds others front back s := fun cells s₁ _ => by
  refine ⟨s₁, .enter rfl ?_ (.refl _), rfl⟩
  rw [entry, hbody]
  exact congrArg (Option.map (·, s₁)) (entriesBehind?_next hlabels)

/-- **A loop over a range with bounds that are not constant runs until one of its tests ends it.** Its
rounds are entered with the counter at the first value and at each further one up to the first that the
tests forbid, and behind the last round the loop comes to its break label. These are the values of the
range just when the tests tell where it ends. This holds for counters in slots, so not for those that are
memory-mapped, for bounds that are integers of the counter's type, and for each body whose rounds come to
their end and leave the counter and the last bound alone. -/
theorem variableLoop_counts {env : Environment} {ctx : Context} {s : Scope} {first last step : Expr}
    {counter : Counter} {t u : IntType} {scope : String} {position : Position} {out out' : Output} {v : Unit}
    (h : variableLoop env first last step counter (.int t) scope position
      (fun labels => s.lower env (ctx.inLoop labels)) out = .ok (v, out'))
    (hslot : counter.IsSlot env.symbols t) (hlast : last.type? env.symbols = some (.int u)) :
    ∃ l : VariableLoop,
      l.IsLowered env.symbols first last step counter (fun labels => s.lower env (ctx.inLoop labels))
        out out' ∧ l.type = t ∧ l.limit = u ∧
      ∀ start stop : Int, t.Holds start → t.Holds stop → u.Holds stop →
        ∃ m, (l.bounds start stop).StopsAt m ∧ (∀ k < m, ¬ (l.bounds start stop).StopsAt k) ∧
          (m = (l.bounds start stop).count ↔ (l.bounds start stop).Tells) ∧
          ∀ (W : Type) (others : Instruction → Store W → Option (Store W)) (front back : List Entry)
            (store : Store W), (labelsOf (front ++ (l.text ++ back))).Nodup →
            l.StartsAt others start store → l.KeepsLast others front back stop store →
            l.FinishesRounds others front back store →
            ∃ store', l.Goes others front back (l.text ++ back, store)
              ((List.range m).map fun k => l.cell ((l.bounds start stop).value k))
              (VariableLoop.exit ++ back, store') := by
  obtain ⟨l, hl, rfl, rfl⟩ := VariableLoop.exists_isLowered
    (fun labels => s.lower_adds env (ctx.inLoop labels)) hslot hlast h
  refine ⟨l, hl, rfl, rfl, fun start stop hstart hstop hlimit => ?_⟩
  have hbounds : (l.bounds start stop).IsSound := ⟨hstart, hstop, l.limit, hlimit, rfl⟩
  obtain ⟨m, hstops, hon, hall⟩ := Bounds.exists_rounds hbounds
  refine ⟨m, hstops, hon, hall, fun W others front back store hlabels hcomputed hkept hbody => ?_⟩
  obtain ⟨store₁, hentered, hfirst⟩ := VariableLoop.goes_start front back hl.toIsSound hcomputed
  have hvalue : store₁.slots l.counter = l.cell ((l.bounds start stop).value 0) := by
    rw [hfirst, Bounds.value_zero]
    rfl
  obtain ⟨store', hrounds⟩ := VariableLoop.goes_rounds hl.toIsSound hbounds hlimit hlabels hkept hbody hstops
    hon m (Nat.zero_add m) hentered hvalue (fun hk => absurd hk (Nat.lt_irrefl 0))
  rw [← List.range_eq_range'] at hrounds
  exact ⟨store', hentered.after hrounds⟩

/-- The rounds of a loop from two down to zero, the first value read from a variable. Zero is not among
them: the counter that has been stepped to it is taken for one that has wrapped around. -/
theorem countdown_count : ∃ (l : VariableLoop) (out' : Output),
    l.IsLowered sampleEnvironment.symbols (.var "main.c") (.number (.wrapped .ubyte 0))
      (.number (.wrapped .byte (-1))) (.var "main.b") skippingRounds sampleOutput out' ∧
    ∀ (W : Type) (others : Instruction → Store W → Option (Store W)) (store : Store W),
      store.slots "main.c" = l.cell 2 → ∃ store',
        l.Goes others [] [] (l.text ++ [], store) [l.cell 2, l.cell 1] (VariableLoop.exit ++ [], store') := by
  let first : Expr := .var "main.c"
  let last : Expr := .number (.wrapped .ubyte 0)
  let step : Expr := .number (.wrapped .byte (-1))
  have hlowered : (variableLoop sampleEnvironment first last step (.var "main.b") .ubyte "main" {}
      skippingRounds sampleOutput).toOption.isSome := by decide +kernel
  cases h : variableLoop sampleEnvironment first last step (.var "main.b") .ubyte "main" {} skippingRounds
      sampleOutput with
  | error e => simp [h, Except.toOption] at hlowered
  | ok result =>
    obtain ⟨u, out'⟩ := result
    have hslot : (Counter.var "main.b").IsSlot sampleEnvironment.symbols .ubyte := ⟨_, rfl, rfl, rfl⟩
    obtain ⟨l, hl, htype, hlimit, hcounts⟩ := variableLoop_counts h hslot (rfl : last.type? _ = some .ubyte)
    obtain ⟨m, hstops, hon, -, hruns⟩ := hcounts 2 0 (by decide) (by decide) (by decide)
    have hop : l.op = .down := Except.ok.inj hl.op.symm
    have hbounds : l.bounds 2 0 = ⟨.down, .ubyte, .ubyte, 2, 0⟩ := by
      simp only [VariableLoop.bounds, VariableLoop.common, hop, htype, hlimit, IntType.common_self]
    rw [hbounds] at hstops hon hruns
    obtain rfl : m = 2 := by
      have hm : m ≤ 2 := Nat.not_lt.1 fun hgt => hon 2 hgt (by decide)
      obtain rfl | rfl | rfl : m = 0 ∨ m = 1 ∨ m = 2 := by omega
      · exact absurd hstops (by decide)
      · exact absurd hstops (by decide)
      · rfl
    refine ⟨l, out', hl, fun W others store hstore => ?_⟩
    obtain ⟨start, stop, hbody, hwrites⟩ := hl.body
    have hlabels : (labelsOf ([] ++ (l.text ++ []))).Nodup := by simpa using hl.writes.distinct
    have hfirst : l.first = [(Opcode.pushVar (.int l.type.size)).named "main.c"] := by
      have hcode := hl.firstCode
      rw [htype] at hcode ⊢
      exact (Except.ok.inj hcode).symm
    have hlast : l.last = (Value.wrapped .ubyte 0).push := (Except.ok.inj hl.lastCode).symm
    have hstarts : l.StartsAt others 2 store := by
      refine ⟨store, ?_⟩
      rw [hfirst, Store.run_pushVar hstore]
      rfl
    have hkept : l.KeepsLast others [] [] 0 store := fun _ _ s₂ _ _ => by
      refine ⟨s₂, ?_, rfl, rfl⟩
      rw [hlast, Store.run_push, Value.cell_wrapped, hlimit]
    exact hruns W others [] [] store hlabels hstarts hkept
      (VariableLoop.finishesRounds_of_skip hlabels (skippingRounds_writes hbody hwrites))

end StackCode
