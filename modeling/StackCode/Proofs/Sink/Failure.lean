/-
What an operation on a sink that fails leaves behind. The blocks stay as they are, and so
do the labels, with one exception: a label that is defined before any block is open fails,
but its name is noted as defined, and it cannot be defined any more.
-/
import StackCode.Proofs.Sink.Operation

namespace StackCode

/-! ## What fails -/

/-- No block has been opened by the sequence. -/
def SinkOp.NoneOpened (ops : List SinkOp) : Prop :=
  ∀ name address options, openBlock name address options ∉ ops

/-- The sequence defines a label of this name, or tries to. -/
def SinkOp.Labels (ops : List SinkOp) (l : String) : Prop :=
  ∃ isSubroutine, label l isSubroutine ∈ ops

/-- Behind the sequence the operation is to define this label for the first time, and there is no
block for it to stand in. -/
def SinkOp.Strands (before : List SinkOp) (op : SinkOp) (l : String) : Prop :=
  (∃ isSubroutine, op = label l isSubroutine) ∧ NoneOpened before ∧ ¬ Labels before l

namespace SinkOp

variable {op : SinkOp} {s s' : Sink} {e : SinkError}

/-- An operation that fails leaves the sink as it was, or notes a label without a block. -/
theorem step_error (h : op.step s = (.error e, s')) :
    s' = s ∨ ∃ l isSubroutine, op = label l isSubroutine ∧ s.current = none ∧ l ∉ s.labels ∧
      s' = { s with labels := l :: s.labels } := by
  rcases op.kinds with ⟨f, hf⟩ | ⟨_, _, _, rfl⟩ | ⟨l, isSubroutine, rfl⟩ | rfl
  · rw [step_edit hf] at h
    split at h <;> cases h
    exact .inl rfl
  · cases h
  · rw [step_label] at h
    split at h
    next => cases h; exact .inl rfl
    next hl =>
      split at h <;> cases h
      next hs => exact .inr ⟨l, isSubroutine, rfl, hs, hl, rfl⟩
  · rw [step_removeLatest] at h
    split at h
    next => cases h; exact .inl rfl
    next =>
      split at h <;> cases h
      exact .inl rfl

end SinkOp

/-! ## What is known as defined -/

namespace SinkOp

variable {op : SinkOp} {s : Sink} {l : String}

/-- No block is open as long as none has been opened. -/
theorem step_current :
    (op.step s).2.current = none ↔
      s.current = none ∧ ∀ name address options, op ≠ openBlock name address options := by
  rcases op.kinds with ⟨f, hf⟩ | ⟨_, _, _, rfl⟩ | ⟨_, _, rfl⟩ | rfl
  · have hop : ∀ name address options, op ≠ openBlock name address options := by
      rintro _ _ _ rfl
      cases hf
    rw [step_edit hf]
    cases hs : s.current <;> simp [hs, hop]
  · simp [step_openBlock]
  · rw [step_label]
    split
    · simp
    · cases hs : s.current <;> simp
  · rw [step_removeLatest]
    cases hs : s.current with
    | none => simp [hs]
    | some b => cases hb : Sink.takeLatest b.recent <;> simp [hs, hb]

/-- A label is known behind the operation that defines it, whether it succeeds or fails. -/
theorem mem_step_labels :
    l ∈ (op.step s).2.labels ↔ l ∈ s.labels ∨ ∃ isSubroutine, op = label l isSubroutine := by
  rcases op.kinds with ⟨f, hf⟩ | ⟨_, _, _, rfl⟩ | ⟨m, _, rfl⟩ | rfl
  · have hop : ∀ isSubroutine, op ≠ label l isSubroutine := by
      rintro _ rfl
      cases hf
    rw [step_edit hf]
    cases hs : s.current <;> simp [hop]
  · simp [step_openBlock]
  · rw [step_label]
    split
    next hm =>
      refine ⟨.inl, ?_⟩
      rintro (hl | ⟨_, hl⟩)
      · exact hl
      · cases hl; exact hm
    next => cases hs : s.current <;> simp [eq_comm, or_comm]
  · rw [step_removeLatest]
    cases hs : s.current with
    | none => simp
    | some b => cases hb : Sink.takeLatest b.recent <;> simp [hb]

end SinkOp

namespace Sink

variable {s : Sink} {l : String}

theorem after_current (ops : List SinkOp) :
    (s.after ops).current = none ↔ s.current = none ∧ SinkOp.NoneOpened ops := by
  induction ops generalizing s with
  | nil => simp [after, SinkOp.NoneOpened]
  | cons op ops ih =>
    rw [after, ih, SinkOp.step_current]
    simp only [SinkOp.NoneOpened, List.mem_cons, not_or, ne_eq]
    grind

theorem mem_after_labels (ops : List SinkOp) :
    l ∈ (s.after ops).labels ↔ l ∈ s.labels ∨ SinkOp.Labels ops l := by
  induction ops generalizing s with
  | nil => simp [after, SinkOp.Labels]
  | cons op ops ih =>
    rw [after, ih, SinkOp.mem_step_labels]
    simp only [SinkOp.Labels, List.mem_cons]
    grind

end Sink

/-! ## Sinks that know more labels -/

/-- The sinks are the same, but that the second one knows these labels, too. -/
structure Sink.Knows (extra : List String) (s s' : Sink) : Prop where
  same : s' = { s with labels := s'.labels }
  labels : ∀ l, l ∈ s'.labels ↔ l ∈ extra ∨ l ∈ s.labels

namespace Sink.Knows

variable {extra : List String} {s s' : Sink} {op : SinkOp}

/-- Only an operation that defines one of the labels can tell the sinks apart. -/
theorem step (h : Knows extra s s') (hop : ∀ l ∈ extra, ∀ isSubroutine, op ≠ .label l isSubroutine) :
    (op.step s').1 = (op.step s).1 ∧ Knows extra (op.step s).2 (op.step s').2 := by
  obtain ⟨ls, rfl⟩ : ∃ ls, s' = { s with labels := ls } := ⟨_, h.same⟩
  have hls : ∀ l, l ∈ ls ↔ l ∈ extra ∨ l ∈ s.labels := h.labels
  rcases s with ⟨_, _, closed, current, known⟩
  rcases op.kinds with ⟨f, hf⟩ | ⟨_, _, _, rfl⟩ | ⟨m, _, rfl⟩ | rfl
  · rw [SinkOp.step_edit hf, SinkOp.step_edit hf]
    cases current <;> exact ⟨rfl, rfl, hls⟩
  · exact ⟨rfl, rfl, hls⟩
  · have hm : m ∉ extra := fun hm => hop m hm _ rfl
    have hiff : m ∈ ls ↔ m ∈ known := by rw [hls, or_iff_right hm]
    have hcons : ∀ l, l ∈ m :: ls ↔ l ∈ extra ∨ l ∈ m :: known := fun l => by
      rw [List.mem_cons, List.mem_cons, hls, or_left_comm]
    rw [SinkOp.step_label, SinkOp.step_label]
    simp only [hiff]
    split
    · exact ⟨rfl, rfl, hls⟩
    · cases current <;> exact ⟨rfl, rfl, hcons⟩
  · rw [SinkOp.step_removeLatest, SinkOp.step_removeLatest]
    cases current with
    | none => exact ⟨rfl, rfl, hls⟩
    | some b =>
      dsimp only
      cases Sink.takeLatest b.recent <;> exact ⟨rfl, rfl, hls⟩

theorem run (h : Knows extra s s') (ops : List SinkOp)
    (hops : ∀ l ∈ extra, ¬ SinkOp.Labels ops l) :
    s'.answers ops = s.answers ops ∧ Knows extra (s.after ops) (s'.after ops) := by
  induction ops generalizing s s' with
  | nil => exact ⟨rfl, h⟩
  | cons op ops ih =>
    have hop : ∀ l ∈ extra, ∀ isSubroutine, op ≠ .label l isSubroutine := fun l hl b hop =>
      hops l hl ⟨b, hop ▸ List.mem_cons_self⟩
    obtain ⟨hanswer, hstep⟩ := h.step hop
    obtain ⟨hanswers, hrun⟩ := ih hstep fun l hl ⟨b, hb⟩ =>
      hops l hl ⟨b, List.mem_cons_of_mem _ hb⟩
    exact ⟨by rw [answers, answers, hanswer, hanswers], hrun⟩

end Sink.Knows

theorem Sink.answers_append (s : Sink) (ops ops' : List SinkOp) :
    s.answers (ops ++ ops') = s.answers ops ++ (s.after ops).answers ops' := by
  induction ops generalizing s with
  | nil => rfl
  | cons op ops ih => simp only [List.cons_append, answers, after, ih]

/-! ## The first time that a label is defined -/

namespace SinkOp

/-- The first time that the sequence defines the label, a block has been opened by it before. -/
def Lands (ops : List SinkOp) (l : String) : Prop :=
  ∃ before isSubroutine behind, ops = before ++ label l isSubroutine :: behind ∧
    ¬ Labels before l ∧ ¬ NoneOpened before

theorem exists_first {ops : List SinkOp} {l : String} (h : Labels ops l) :
    ∃ before isSubroutine behind, ops = before ++ label l isSubroutine :: behind ∧
      ¬ Labels before l := by
  induction ops with
  | nil => obtain ⟨_, h⟩ := h; cases h
  | cons op ops ih =>
    by_cases hop : ∃ isSubroutine, op = label l isSubroutine
    · obtain ⟨isSubroutine, rfl⟩ := hop
      exact ⟨[], isSubroutine, ops, rfl, fun ⟨_, h⟩ => nomatch h⟩
    · obtain ⟨b, hb⟩ := h
      rcases List.mem_cons.1 hb with rfl | hb
      · exact absurd ⟨b, rfl⟩ hop
      · obtain ⟨before, c, behind, rfl, hbefore⟩ := ih ⟨b, hb⟩
        refine ⟨op :: before, c, behind, rfl, fun ⟨d, hd⟩ => ?_⟩
        rcases List.mem_cons.1 hd with rfl | hd
        · exact hop ⟨d, rfl⟩
        · exact hbefore ⟨d, hd⟩

end SinkOp

namespace Sink.Knows

variable {s s' : Sink} {l : String} {before behind : List SinkOp} {isSubroutine : Bool}

/-- The sink that knows the label refuses it. -/
theorem label_known (h : Knows [l] s s') :
    (SinkOp.label l isSubroutine).step s' = (.error (.duplicateLabel l), s') := by
  rw [SinkOp.step_label, if_pos ((h.labels l).2 (.inl List.mem_cons_self))]

/-- Up to the first time that the label is defined the answers are the same. -/
theorem answers_first (h : Knows [l] s s') (hl : l ∉ s.labels) (hs : s.current = none)
    (hbefore : ¬ SinkOp.Labels before l) :
    ∃ same : List SinkAnswer,
      s'.answers (before ++ .label l isSubroutine :: behind) =
        same ++ .error (.duplicateLabel l) :: (s'.after before).answers behind ∧
      (SinkOp.NoneOpened before →
        s.answers (before ++ .label l isSubroutine :: behind) =
          same ++ .error .noBlock :: (s'.after before).answers behind) ∧
      (¬ SinkOp.NoneOpened before → ∃ rest,
        s.answers (before ++ .label l isSubroutine :: behind) = same ++ .ok none :: rest) := by
  obtain ⟨hsame, hmid⟩ := h.run before (by simpa using hbefore)
  have hnew : l ∉ (s.after before).labels := by
    rw [mem_after_labels]
    exact not_or.2 ⟨hl, hbefore⟩
  have hcurrent : (s.after before).current = none ↔ SinkOp.NoneOpened before :=
    (after_current before).trans (and_iff_right hs)
  refine ⟨s.answers before, ?_, fun hnone => ?_, fun hopened => ?_⟩
  · rw [answers_append, answers, hmid.label_known, hsame]
  · have hnoted : (SinkOp.label l isSubroutine).step (s.after before) =
        (.error .noBlock, { s.after before with labels := l :: (s.after before).labels }) := by
      rw [SinkOp.step_label, if_neg hnew]
      simp only [hcurrent.2 hnone]
    -- The sink that did not know the label has noted it by now.
    have hlike : Knows [] { s.after before with labels := l :: (s.after before).labels }
        (s'.after before) :=
      ⟨hmid.same, fun m => by rw [hmid.labels]; simp⟩
    rw [answers_append, answers, hnoted, (hlike.run behind nofun).1]
  · cases hopen : (s.after before).current with
    | none => exact absurd (hcurrent.1 hopen) hopened
    | some b =>
      rw [answers_append, answers, SinkOp.step_label, if_neg hnew, hopen]
      exact ⟨_, rfl⟩

theorem answers_eq_iff (h : Knows [l] s s') (hl : l ∉ s.labels) (hs : s.current = none)
    (ops : List SinkOp) :
    s'.answers ops = s.answers ops ↔ ¬ SinkOp.Labels ops l := by
  refine ⟨fun heq hlabels => ?_, fun hno => (h.run ops (by simpa using hno)).1⟩
  obtain ⟨before, b, behind, rfl, hbefore⟩ := SinkOp.exists_first hlabels
  obtain ⟨same, hanswers', hnone, hopened⟩ := h.answers_first hl hs hbefore
  rw [hanswers'] at heq
  by_cases hopen : SinkOp.NoneOpened before
  · rw [hnone hopen, List.append_cancel_left_eq] at heq
    cases heq
  · obtain ⟨rest, hrest⟩ := hopened hopen
    rw [hrest, List.append_cancel_left_eq] at heq
    cases heq

/-- Where the label has no block to stand in it fails in both sinks, and from there on both of them
know it. -/
theorem outcomes_eq_iff (h : Knows [l] s s') (hl : l ∉ s.labels) (hs : s.current = none)
    (ops : List SinkOp) :
    s'.outcomes ops = s.outcomes ops ↔ ¬ SinkOp.Lands ops l := by
  refine ⟨?_, fun hlands => ?_⟩
  · rintro heq ⟨before, b, behind, rfl, hbefore, hopen⟩
    obtain ⟨same, hanswers', -, hopened⟩ := h.answers_first hl hs hbefore
    obtain ⟨rest, hrest⟩ := hopened hopen
    rw [outcomes, outcomes, hanswers', hrest, List.map_append, List.map_append,
      List.append_cancel_left_eq] at heq
    cases heq
  · by_cases hlabels : SinkOp.Labels ops l
    · obtain ⟨before, b, behind, rfl, hbefore⟩ := SinkOp.exists_first hlabels
      obtain ⟨same, hanswers', hnone, -⟩ := h.answers_first hl hs hbefore
      have hopen : SinkOp.NoneOpened before := by
        by_contra hopen
        exact hlands ⟨before, b, behind, rfl, hbefore, hopen⟩
      rw [outcomes, outcomes, hanswers', hnone hopen, List.map_append, List.map_append]
      rfl
    · rw [outcomes, outcomes, (h.answers_eq_iff hl hs ops).2 hlabels]

end Sink.Knows

/-! ## Failing operations -/

/-- What a sequence of operations has written, with nothing in front of it. -/
def Sink.written (name : String) (loadAddress : Option UInt16) (ops : List SinkOp) : Sink :=
  Sink.after { name, loadAddress } ops

namespace SinkOp

variable {name : String} {loadAddress : Option UInt16} {before : List SinkOp} {op : SinkOp}

theorem strands_iff (name : String) (loadAddress : Option UInt16) {l : String} :
    op.Strands before l ↔ (∃ isSubroutine, op = .label l isSubroutine) ∧
      (Sink.written name loadAddress before).current = none ∧
      l ∉ (Sink.written name loadAddress before).labels := by
  rw [Strands, Sink.written, Sink.after_current, Sink.mem_after_labels]
  simp

/-- A label without a block to stand in is the one thing that a failing operation leaves behind. -/
theorem step_error_iff {e : SinkError} {s' : Sink}
    (h : op.step (Sink.written name loadAddress before) = (.error e, s')) :
    (s' = Sink.written name loadAddress before ∧ ∀ l, ¬ op.Strands before l) ∨
      ∃ l, (∀ m, op.Strands before m ↔ m = l) ∧
        s' = { Sink.written name loadAddress before with
          labels := l :: (Sink.written name loadAddress before).labels } := by
  rcases step_error h with rfl | ⟨l, isSubroutine, rfl, hs, hl, rfl⟩
  · refine .inl ⟨rfl, fun l hl => ?_⟩
    obtain ⟨⟨isSubroutine, rfl⟩, hs, hnew⟩ :=
      (strands_iff name loadAddress).1 hl
    rw [step_label, if_neg hnew] at h
    simp only [hs, Prod.mk.injEq] at h
    exact hnew (h.2 ▸ List.mem_cons_self)
  · refine .inr ⟨l, fun m => ⟨?_, ?_⟩, rfl⟩
    · rintro ⟨⟨_, hm⟩, -⟩
      cases hm
      rfl
    · rintro rfl
      exact (strands_iff name loadAddress).2 ⟨⟨isSubroutine, rfl⟩, hs, hl⟩

/-- **An operation that fails changes no block. It changes the sink just if it is the first one to
define some label, and no block has been opened: then the label is noted. Later operations answer as
if it had not been tried unless they define this label, and they succeed and fail alike unless the
first of them that defines it has a block to put it in.** -/
theorem failed_strands {e : SinkError} {s' : Sink}
    (h : op.step (Sink.written name loadAddress before) = (.error e, s')) :
    s'.program = (Sink.written name loadAddress before).program ∧
    (s' = Sink.written name loadAddress before ↔ ∀ l, ¬ op.Strands before l) ∧
    (∀ m, m ∈ s'.labels ↔
      op.Strands before m ∨ m ∈ (Sink.written name loadAddress before).labels) ∧
    ∀ later,
      (s'.answers later = (Sink.written name loadAddress before).answers later ↔
        ∀ l, op.Strands before l → ¬ Labels later l) ∧
      (s'.outcomes later = (Sink.written name loadAddress before).outcomes later ↔
        ∀ l, op.Strands before l → ¬ Lands later l) := by
  rcases step_error_iff h with ⟨rfl, hno⟩ | ⟨l, hl, rfl⟩
  · exact ⟨rfl, iff_of_true rfl hno, fun m => (or_iff_right (hno m)).symm, fun later =>
      ⟨iff_of_true rfl fun l hl => absurd hl (hno l), iff_of_true rfl fun l hl => absurd hl (hno l)⟩⟩
  · obtain ⟨-, hs, hnew⟩ := (strands_iff name loadAddress).1 ((hl l).2 rfl)
    have hknows : Sink.Knows [l] (Sink.written name loadAddress before)
        { Sink.written name loadAddress before with
          labels := l :: (Sink.written name loadAddress before).labels } :=
      ⟨rfl, fun m => by simp⟩
    refine ⟨rfl, iff_of_false (fun heq => ?_) (not_forall_not.2 ⟨l, (hl l).2 rfl⟩), fun m => ?_,
      fun later => ⟨?_, ?_⟩⟩
    · exact hnew (congrArg Sink.labels heq ▸ List.mem_cons_self)
    · rw [hl, List.mem_cons]
    · simpa [hl] using hknows.answers_eq_iff hnew hs later
    · simpa [hl] using hknows.outcomes_eq_iff hnew hs later

/-- A label is tried before the first block and again in it. -/
theorem earlyLabel_strands :
    (label "a" false).step (Sink.written "p" none []) =
        (.error .noBlock, { name := "p", labels := ["a"] }) ∧
      Sink.outcomes { name := "p", labels := ["a"] } [openBlock "b" none [], label "a" false] ≠
        Sink.outcomes { name := "p" } [openBlock "b" none [], label "a" false] := by
  have hfails : (label "a" false).step (Sink.written "p" none []) =
      (.error .noBlock, { name := "p", labels := ["a"] }) := by rfl
  refine ⟨hfails, fun heq => ?_⟩
  have hstrands : (label "a" false).Strands [] "a" := ⟨⟨false, rfl⟩, nofun, nofun⟩
  refine (((failed_strands hfails).2.2.2 [openBlock "b" none [], label "a" false]).2.1 heq) "a"
    hstrands ⟨[openBlock "b" none []], false, [], rfl, nofun, ?_⟩
  exact fun h => h "b" none [] List.mem_cons_self

end SinkOp
end StackCode
