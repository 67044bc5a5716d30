/-
Which loops over constant ranges lower. A range that is not empty, has several values, is an
exact multiple of its step and has ends that the counter can hold passes all checks. One more
thing can go wrong behind the body: a large step is pushed by its size, and the type of the
counter may have no integer of this size. Only a type with a sign has ranges with such steps,
since there the ends can be further apart than its greatest integer.
-/
import StackCode.Proofs.Counting.Constant
import StackCode.Proofs.Names.Statement
import StackCode.Proofs.Sink.Operation

namespace StackCode

/-! ## Ranges -/

namespace ConstantRange

/-- The counter can run from the first value to the last one: there are several values, and the steps lead
exactly from the one to the other. -/
structure IsProper (r : ConstantRange) (t : IntType) : Prop where
  step : r.step ≠ 0
  ascends : 0 < r.step → r.first ≤ r.last
  descends : r.step < 0 → r.last ≤ r.first
  several : r.first ≠ r.last
  exact : r.step ∣ r.last - r.first
  first : t.Holds r.first
  last : t.Holds r.last

variable {r : ConstantRange} {t : IntType} {type : DataType} {counter : String} {code : Code}

theorem check_ok_iff : r.check type = .ok t ↔ type = .int t ∧ r.IsProper t := by
  simp only [check, Lowered.check_ok_iff, Lowered.bind_ok_iff, orInvalid_ok_iff, Lowered.pure_ok_iff,
    not_or, not_and, not_not, ne_eq]
  constructor
  · rintro ⟨⟨hstep, hup, hdown⟩, hne, hexact, t', ht, ⟨hfirst, hlast⟩, rfl⟩
    exact ⟨DataType.int?_eq_some ht, hstep, fun h => Int.not_lt.1 (hup h),
      fun h => Int.not_lt.1 (hdown h), hne, Int.dvd_of_tmod_eq_zero hexact, hfirst, hlast⟩
  · rintro ⟨rfl, h⟩
    exact ⟨⟨h.step, fun hs => Int.not_lt.2 (h.ascends hs), fun hs => Int.not_lt.2 (h.descends hs)⟩,
      h.several, Int.tmod_eq_zero_of_dvd h.exact, t, rfl, ⟨h.first, h.last⟩, rfl⟩

/-- A step is no longer than the way. -/
theorem IsProper.natAbs_step_le (h : r.IsProper t) :
    (r.step.natAbs : Int) ≤ t.hi - t.lo := by
  have hway : r.step.natAbs ≤ (r.last - r.first).natAbs := by
    refine Nat.le_of_dvd ?_ (Int.natAbs_dvd_natAbs.2 h.exact)
    have := h.several
    omega
  have hfirst := h.first
  have hlast := h.last
  unfold IntType.Holds at hfirst hlast
  omega

/-- Without a sign there is an integer for each step. -/
theorem IsProper.natAbs_step_le_hi (h : r.IsProper t) (ht : t.isSigned = false) :
    (r.step.natAbs : Int) ≤ t.hi := by
  have hlo : t.lo = 0 := by rw [IntType.lo, ht]; rfl
  have := h.natAbs_step_le
  omega

/-- The step is made, unless its size is no integer of the type. -/
theorem stepCode_eq_error (h : t.hi < r.step.natAbs) :
    r.stepCode t counter = .error (.value (.outOfRange r.step.natAbs (.int t))) := by
  have hlarge : ¬ r.step.natAbs ≤ maxUnrolled := by
    have : (maxUnrolled : Int) ≤ t.hi := by cases t <;> decide
    omega
  have hno : ¬ t.Holds r.step.natAbs := fun hholds => Int.not_lt.2 hholds.2 h
  rw [stepCode, if_neg hlarge, Value.ofInt, dif_neg hno]

theorem exists_stepCode (h : (r.step.natAbs : Int) ≤ t.hi) (counter : String) :
    ∃ code, r.stepCode t counter = .ok code := by
  have hlo : t.lo ≤ 0 := by cases t <;> decide
  have hholds : t.Holds r.step.natAbs := ⟨by omega, h⟩
  unfold stepCode
  split
  · exact ⟨_, rfl⟩
  · rw [Value.ofInt, dif_pos hholds]
    exact ⟨_, rfl⟩

end ConstantRange

/-! ## Steps that succeed -/

namespace Output

/-- The output with more entries in the open block. -/
def wrote (out : Output) (es : List Entry) : Output :=
  { out with sink := { out.sink with
      current := out.sink.current.map fun b => { b with recent := es.reverse ++ b.recent } } }

/-- The output with a label placed in the open block. -/
def placed (out : Output) (name : String) : Output :=
  { (out.wrote [.label name false]) with sink := { (out.wrote [.label name false]).sink with
      labels := name :: out.sink.labels } }

variable {out : Output}

theorem IsOpen.wrote (h : out.IsOpen) (es : List Entry) : (out.wrote es).IsOpen := by
  simpa [IsOpen, Output.wrote] using h

theorem IsOpen.placed (h : out.IsOpen) (name : String) : (out.placed name).IsOpen := by
  simpa [IsOpen, Output.placed, Output.wrote] using h

theorem wrote_wrote {es es' : List Entry} : (out.wrote es).wrote es' = out.wrote (es ++ es') := by
  simp [wrote, Function.comp_def]

end Output

/-- What comes behind a step that has succeeded. -/
theorem Writer.bind_of_ok {α β : Type} {x : Writer α} {f : α → Writer β} {a : α} {out mid : Output}
    (h : x out = .ok (a, mid)) : (x >>= f) out = f a mid := by
  change (x out >>= fun p => f p.1 p.2) = _
  rw [h]
  rfl

variable {out out' : Output} {name scope : String}

theorem perform_instruction (h : out.IsOpen) (i : Instruction) :
    perform (Sink.instruction i) out = .ok ((), out.wrote [.instruction i]) := by
  obtain ⟨b, hb⟩ := Option.isSome_iff_exists.1 h
  rw [perform_eq, Sink.instruction, Sink.write, Sink.modifyBlock_result hb]
  simp [Output.wrote, hb]

/-- Instructions can be written wherever a block is open. -/
theorem emit_eq_ok (h : out.IsOpen) (code : Code) :
    emit code out = .ok ((), out.wrote (code.map .instruction)) := by
  induction code generalizing out with
  | nil =>
    obtain ⟨b, hb⟩ := Option.isSome_iff_exists.1 h
    have hsame : out.wrote [] = out := by simp [Output.wrote]
    rw [List.map_nil, hsame]
    rfl
  | cons i code ih =>
    rw [emit_cons, Writer.bind_ok_iff]
    refine ⟨(), _, perform_instruction h i, ?_⟩
    rw [ih (h.wrote _), Output.wrote_wrote]
    rfl

/-- A label can be placed if it is new. -/
theorem placeLabel_ok_iff (h : out.IsOpen) :
    placeLabel name out = .ok ((), out') ↔ name ∉ out.sink.labels ∧ out' = out.placed name := by
  obtain ⟨b, hb⟩ := Option.isSome_iff_exists.1 h
  rw [placeLabel, perform_eq, Sink.label_result]
  by_cases hname : name ∈ out.sink.labels
  · simp [hname]
  · simp [hname, hb, Output.placed, Output.wrote, eq_comm]

theorem closeAt_ok_iff (h : out.IsOpen) (name : String) :
    (∃ out', closeAt name out = .ok ((), out')) ↔ name ∉ out.sink.labels := by
  simp only [closeAt, Writer.bind_ok_iff, placeLabel_ok_iff h]
  constructor
  · rintro ⟨_, _, _, ⟨hname, -⟩, -⟩
    exact hname
  · exact fun hname => ⟨_, (), _, ⟨hname, rfl⟩, emit_eq_ok (h.placed name) _⟩

/-! ## The loop -/

/-- The labels of a loop, made up behind so many others. -/
def LoopFrame.behind (scope : String) (n : Nat) : LoopFrame where
  start := labelName scope "loop" (n + 1)
  next := labelName scope "continue" (n + 2)
  leave := labelName scope "break" (n + 3)

theorem freshFrame_eq (scope : String) (out : Output) :
    freshFrame scope out =
      .ok (.behind scope out.generated, { out with generated := out.generated + 3 }) :=
  rfl

/-- The output in front of the body. -/
def ConstantRange.begun (r : ConstantRange) (t : IntType) (counter scope : String) (out : Output) :
    Output :=
  ({ out with generated := out.generated + 3 }.wrote
    ((r.initCode t counter).map .instruction)).placed (LoopFrame.behind scope out.generated).start

/-- What stands behind the body. -/
def ConstantRange.finish (r : ConstantRange) (t : IntType) (counter : String) (frame : LoopFrame) :
    Writer Unit := do
  placeLabel frame.next
  emitLowered (r.stepCode t counter)
  emit (r.testCode t counter frame.start)
  closeAt frame.leave

variable {r : ConstantRange} {t : DataType} {type : IntType} {counter : Counter} {body : LoopBody}
  {stop : Output} {frame : LoopFrame}

theorem LoopFrame.leave_ne_next (scope : String) (n : Nat) :
    (behind scope n).leave ≠ (behind scope n).next := fun h => by
  have := (labelName_inj (by decide) (by decide) h).2.2
  omega

/-- Behind a body there is nothing that can go wrong but the size of the step and the labels. -/
theorem ConstantRange.finish_ok_iff (hopen : stop.IsOpen) (hframe : frame.leave ≠ frame.next) :
    (∃ out', r.finish type counter.name frame stop = .ok ((), out')) ↔
      (r.step.natAbs : Int) ≤ type.hi ∧ frame.next ∉ stop.sink.labels ∧
        frame.leave ∉ stop.sink.labels := by
  have hplaced := hopen.placed frame.next
  simp only [finish, Writer.bind_ok_iff, placeLabel_ok_iff hopen, emitLowered_ok_iff]
  constructor
  · rintro ⟨out', _, _, ⟨hnext, rfl⟩, _, _, ⟨code, hcode, hstep⟩, _, _, htest, hleave⟩
    rw [emit_eq_ok hplaced] at hstep
    cases hstep
    rw [emit_eq_ok (hplaced.wrote _)] at htest
    cases htest
    have hclose := (closeAt_ok_iff ((hplaced.wrote _).wrote _) _).1 ⟨_, hleave⟩
    refine ⟨Int.not_lt.1 fun hlarge => ?_, hnext, fun hmem => hclose (List.mem_cons_of_mem _ hmem)⟩
    rw [stepCode_eq_error hlarge] at hcode
    cases hcode
  · rintro ⟨hsize, hnext, hleave⟩
    obtain ⟨code, hcode⟩ := exists_stepCode hsize counter.name
    have hnew : frame.leave ∉ (stop.placed frame.next).sink.labels := fun hmem =>
      (List.mem_cons.1 hmem).elim hframe hleave
    obtain ⟨out', hclose⟩ := (closeAt_ok_iff ((hplaced.wrote (code.map .instruction)).wrote
      ((r.testCode type counter.name frame.start).map .instruction)) frame.leave).2 hnew
    exact ⟨out', (), _, ⟨hnext, rfl⟩, (), _, ⟨code, hcode, emit_eq_ok hplaced _⟩, (), _,
      emit_eq_ok (hplaced.wrote _) _, hclose⟩

/-- A step that is too large for the type is found when the body has been written. -/
theorem ConstantRange.finish_eq_error (hopen : stop.IsOpen) (hnext : frame.next ∉ stop.sink.labels)
    (hlarge : type.hi < r.step.natAbs) :
    r.finish type counter.name frame stop =
      .error (.value (.outOfRange r.step.natAbs (.int type))) := by
  have hplace : placeLabel frame.next stop = .ok ((), stop.placed frame.next) :=
    (placeLabel_ok_iff hopen).2 ⟨hnext, rfl⟩
  rw [finish, Writer.bind_of_ok hplace, stepCode_eq_error hlarge]
  rfl

/-- The loop over a proper range starts with what is in front of the body. -/
theorem constantLoop_eq (hopen : out.IsOpen) (hr : r.IsProper type)
    (hstart : (LoopFrame.behind scope out.generated).start ∉ out.sink.labels) :
    constantLoop r counter (.int type) scope body out =
      (do body (LoopFrame.behind scope out.generated).labels
          r.finish type counter.name (.behind scope out.generated))
        (r.begun type counter.name scope out) := by
  have hopen' : Output.IsOpen { out with generated := out.generated + 3 } := hopen
  have hcheck : (liftM (r.check (.int type)) : Writer IntType) out = .ok (type, out) :=
    Writer.lift_ok_iff.2 ⟨ConstantRange.check_ok_iff.2 ⟨rfl, hr⟩, rfl⟩
  have hplace := (placeLabel_ok_iff (hopen'.wrote ((r.initCode type counter.name).map .instruction))).2
    ⟨hstart, rfl⟩
  rw [constantLoop, Writer.bind_of_ok hcheck, Writer.bind_of_ok (freshFrame_eq scope out),
    Writer.bind_of_ok (emit_eq_ok hopen' _), Writer.bind_of_ok hplace]
  rfl

theorem ConstantRange.isOpen_begun (hopen : out.IsOpen) (counter : String) :
    (r.begun type counter scope out).IsOpen := by
  have hopen' : Output.IsOpen { out with generated := out.generated + 3 } := hopen
  exact (hopen'.wrote _).placed _

/-- The body lowers where it stands, and the labels of the loop are new where they are placed. -/
structure LoopBody.Lowers (body : LoopBody) (r : ConstantRange) (t : IntType) (counter scope : String)
    (out stop : Output) : Prop where
  start : (LoopFrame.behind scope out.generated).start ∉ out.sink.labels
  body : body (LoopFrame.behind scope out.generated).labels (r.begun t counter scope out) = .ok ((), stop)
  next : (LoopFrame.behind scope out.generated).next ∉ stop.sink.labels
  leave : (LoopFrame.behind scope out.generated).leave ∉ stop.sink.labels

/-- The body leaves the block open. -/
def LoopBody.KeepsOpen (body : LoopBody) : Prop :=
  ∀ labels {out stop : Output}, out.IsOpen → body labels out = .ok ((), stop) → stop.IsOpen

/-- The loop fails at its first label if this is not new. -/
theorem start_new_of_ok {u : Unit} (hopen : out.IsOpen)
    (h : constantLoop r counter t scope body out = .ok (u, out')) :
    (∃ type, t = .int type ∧ r.IsProper type) ∧
      (LoopFrame.behind scope out.generated).start ∉ out.sink.labels := by
  simp only [constantLoop, Writer.bind_ok_iff, Writer.lift_ok_iff, freshFrame_eq] at h
  obtain ⟨type, _, ⟨hcheck, rfl⟩, frame, _, hframe, _, _, hinit, _, _, hstart, -⟩ := h
  cases hframe
  have hopen' : Output.IsOpen { out with generated := out.generated + 3 } := hopen
  rw [emit_eq_ok hopen'] at hinit
  cases hinit
  exact ⟨⟨type, ConstantRange.check_ok_iff.1 hcheck⟩,
    ((placeLabel_ok_iff (hopen'.wrote _)).1 hstart).1⟩

theorem constantLoop_ok_iff (hopen : out.IsOpen) (hbody : body.KeepsOpen) :
    (∃ out', constantLoop r counter t scope body out = .ok ((), out')) ↔
      ∃ type stop, t = .int type ∧ r.IsProper type ∧ (r.step.natAbs : Int) ≤ type.hi ∧
        body.Lowers r type counter.name scope out stop := by
  constructor
  · rintro ⟨out', h⟩
    obtain ⟨⟨type, rfl, hr⟩, hstart⟩ := start_new_of_ok hopen h
    rw [constantLoop_eq hopen hr hstart, Writer.bind_ok_iff] at h
    obtain ⟨_, stop, hb, hfinish⟩ := h
    obtain ⟨hsize, hnext, hleave⟩ := (ConstantRange.finish_ok_iff
      (hbody _ (ConstantRange.isOpen_begun hopen _) hb) (LoopFrame.leave_ne_next _ _)).1 ⟨out', hfinish⟩
    exact ⟨type, stop, rfl, hr, hsize, hstart, hb, hnext, hleave⟩
  · rintro ⟨type, stop, rfl, hr, hsize, hl⟩
    rw [constantLoop_eq hopen hr hl.start]
    obtain ⟨out', hfinish⟩ := (ConstantRange.finish_ok_iff
      (hbody _ (ConstantRange.isOpen_begun hopen _) hl.body) (LoopFrame.leave_ne_next _ _)).2
      ⟨hsize, hl.next, hl.leave⟩
    exact ⟨out', Writer.bind_ok_iff.2 ⟨(), stop, hl.body, hfinish⟩⟩

theorem Scope.lower_keepsOpen (env : Environment) (ctx : Context) (s : Scope) :
    LoopBody.KeepsOpen fun labels => s.lower env (ctx.inLoop labels) := fun labels out stop hopen h => by
  obtain ⟨_, houtcome⟩ := s.lower_defines env (ctx.inLoop labels) out hopen
  exact (houtcome.done h).2

/-- Names that fit are no names of labels that are made up next. -/
theorem Fits.not_mem_made {ds : List Definition} {suffix : String} {n : Nat} (h : Fits out ds)
    (hs : IsPurpose suffix) (hn : out.generated < n) :
    labelName scope suffix n ∉ labelNames ds ++ out.sink.labels := fun hmem =>
  Nat.not_le.2 hn (h.known _ hmem scope suffix n hs rfl)

/-- If the labels of the body are distinct and no made-up ones, then so are those of the loop. -/
theorem Scope.lowers_of_fits {env : Environment} {ctx : Context} {s : Scope} (hopen : out.IsOpen)
    (hfits : Fits out s.definitions)
    (h : s.lower env (ctx.inLoop (LoopFrame.behind scope out.generated).labels)
      (r.begun type counter.name scope out) = .ok ((), stop)) :
    LoopBody.Lowers (fun labels => s.lower env (ctx.inLoop labels)) r type counter.name scope out
      stop := by
  obtain ⟨made, houtcome⟩ := s.lower_defines env _ _ (ConstantRange.isOpen_begun hopen counter.name)
  obtain ⟨own, hown, hlabels⟩ := (houtcome.done h).1.labels
  have hnew : ∀ suffix n, IsPurpose suffix → n ∈ [out.generated + 2, out.generated + 3] →
      labelName scope suffix n ∉ stop.sink.labels := by
    intro suffix n hs hn hmem
    have hn : out.generated + 1 < n ∧ n ≤ out.generated + 3 := by
      simp only [List.mem_cons, List.not_mem_nil, or_false] at hn
      omega
    have hbegun : (r.begun type counter.name scope out).sink.labels =
        (LoopFrame.behind scope out.generated).start :: out.sink.labels := rfl
    rw [hlabels.mem_iff, hbegun, List.mem_append, List.mem_append, List.mem_cons] at hmem
    rcases hmem with (hbody | hmade) | hstart | hold
    · exact hfits.not_mem_made hs (by omega) (List.mem_append_left _ hbody)
    · exact houtcome.numbered.not_known (hown.subset hmade) ((known_labelName hs).mono hn.2)
    · have := (labelName_inj hs (by decide) hstart).2.2
      omega
    · exact hfits.not_mem_made hs (by omega) (List.mem_append_right _ hold)
  exact ⟨fun hmem => hfits.not_mem_made (by decide) (Nat.lt_succ_self _) (List.mem_append_right _ hmem),
    h, hnew _ _ (by decide) (by simp), hnew _ _ (by decide) (by simp)⟩

/-- **A loop over a constant range lowers just if the range is proper, the size of its step is an integer of
the counter's type, and the body lowers.** The sizes of all steps are, if the type has no sign; a larger one
is complained of behind the body. The labels of the loop must be new, too, as they are if those of the body
are distinct and no made-up ones. -/
theorem constantLoop_lowers_iff (env : Environment) (ctx : Context) (s : Scope) (r : ConstantRange)
    (counter : Counter) (t : DataType) (scope : String) {out : Output} (hopen : out.IsOpen) :
    let body : LoopBody := fun labels => s.lower env (ctx.inLoop labels)
    let frame := LoopFrame.behind scope out.generated
    ((∃ out', constantLoop r counter t scope body out = .ok ((), out')) ↔
      ∃ type stop, t = .int type ∧ r.IsProper type ∧ (r.step.natAbs : Int) ≤ type.hi ∧
        body.Lowers r type counter.name scope out stop) ∧
    (∀ type, r.IsProper type → type.isSigned = false → (r.step.natAbs : Int) ≤ type.hi) ∧
    (∀ type stop, t = .int type → r.IsProper type → type.hi < r.step.natAbs →
      body.Lowers r type counter.name scope out stop →
        constantLoop r counter t scope body out =
          .error (.value (.outOfRange r.step.natAbs (.int type)))) ∧
    (Fits out s.definitions → ∀ type stop, body.Lowers r type counter.name scope out stop ↔
      body frame.labels (r.begun type counter.name scope out) = .ok ((), stop)) := by
  intro body frame
  have hbody : body.KeepsOpen := Scope.lower_keepsOpen env ctx s
  refine ⟨constantLoop_ok_iff hopen hbody, fun type hr => hr.natAbs_step_le_hi, ?_, fun hfits type stop =>
    ⟨fun h => h.body, Scope.lowers_of_fits hopen hfits⟩⟩
  rintro type stop rfl hr hlarge hl
  rw [constantLoop_eq hopen hr hl.start, Writer.bind_of_ok hl.body]
  exact ConstantRange.finish_eq_error (hbody _ (ConstantRange.isOpen_begun hopen _) hl.body) hl.next hlarge

/-- From one end of the bytes to the other in one step. -/
def wideStep : ConstantRange where
  first := -100
  last := 100
  step := 200

/-- The range is proper, and its loop is refused for the size of its step. -/
theorem wideStep_refused :
    wideStep.IsProper .byte ∧
      constantLoop wideStep (.var "main.b") .byte "main" skippingRounds sampleOutput =
        .error (.value (.outOfRange 200 .byte)) := by
  have hproper : wideStep.IsProper .byte := by
    constructor <;> decide
  have hfits : Fits sampleOutput [] := ⟨.nil, nofun⟩
  obtain ⟨-, -, hrefused, hlowers⟩ := constantLoop_lowers_iff sampleEnvironment { scope := "main" }
    ⟨"", [.exit .next {}], {}⟩ wideStep (.var "main.b") .byte "main" (show sampleOutput.IsOpen from rfl)
  exact ⟨hproper, hrefused .byte _ rfl hproper (by decide) ((hlowers hfits .byte _).2 rfl)⟩

end StackCode
