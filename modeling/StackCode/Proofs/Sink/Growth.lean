/-
Operations that only write. They open no block and take nothing back, so what was there stays,
and what they write comes behind it in the open block. One thing can change: a line marker that
was last gives way to a newer one. The labels of the program are those that the sink knows, as
long as no label was defined without a block.
-/
import StackCode.Proofs.Lowering.Program
import StackCode.Proofs.Sink.Failure
import Mathlib.Logic.Relation

namespace StackCode

/-! ## What goes on -/

/-- The second stream starts with the first one, but that a marker which was last can have been replaced
by a newer one. -/
def GoesOn (es es' : List Entry) : Prop :=
  es <+: es' ∨ ∃ earlier old newer, es = earlier ++ [old] ∧ old.isLine ∧ newer.isLine ∧
    earlier ++ [newer] <+: es'

namespace GoesOn

variable {es es' es'' : List Entry}

theorem refl (es : List Entry) : GoesOn es es := .inl (List.prefix_refl es)

theorem of_prefix (h : es <+: es') (h' : GoesOn es' es'') : GoesOn es es'' := by
  rcases h' with h' | ⟨earlier, old, newer, rfl, hold, hnewer, h'⟩
  · exact .inl (h.trans h')
  · rcases List.prefix_concat_iff.1 h with rfl | h
    · exact .inr ⟨earlier, old, newer, rfl, hold, hnewer, h'⟩
    · exact .inl (h.trans ((List.prefix_append _ _).trans h'))

theorem trans (h : GoesOn es es') (h' : GoesOn es' es'') : GoesOn es es'' := by
  rcases h with h | ⟨earlier, old, newer, rfl, hold, hnewer, h⟩
  · exact of_prefix h h'
  · -- The newer marker may still be last, and give way to a third one.
    refine .inr ?_
    rcases of_prefix h h' with h | ⟨earlier', old', newer', heq, -, hnewer', h⟩
    · exact ⟨earlier, old, newer, rfl, hold, hnewer, h⟩
    · obtain ⟨rfl, -⟩ := List.append_inj' heq rfl
      exact ⟨earlier, old, newer', rfl, hold, hnewer', h⟩

/-- A marker comes behind what is there, or in place of a marker. -/
theorem mark {marker : Instruction} (hm : marker.isLine) (recent : List Entry) :
    GoesOn recent.reverse (Sink.mark marker recent).reverse := by
  cases recent with
  | nil => exact .inl (List.nil_prefix)
  | cons last rest =>
    rw [Sink.mark]
    split
    next hlast =>
      refine .inr ⟨rest.reverse, last, .instruction marker, List.reverse_cons, hlast, hm, ?_⟩
      exact List.reverse_cons ▸ List.prefix_refl _
    next => exact .inl (List.reverse_prefix.2 (List.suffix_cons _ _))

end GoesOn

/-- The second block is the first one with more written in it. -/
structure Block.Continues (b b' : Block) : Prop where
  name : b'.name = b.name
  address : b'.address = b.address
  options : b'.options = b.options
  vars : b.vars <+: b'.vars
  pointers : b.pointers <+: b'.pointers
  entries : GoesOn b.entries b'.entries

namespace Block.Continues

variable {b b' b'' : Block}

theorem refl (b : Block) : Continues b b :=
  ⟨rfl, rfl, rfl, List.prefix_refl _, List.prefix_refl _, .refl _⟩

theorem trans (h : Continues b b') (h' : Continues b' b'') : Continues b b'' where
  name := h'.name.trans h.name
  address := h'.address.trans h.address
  options := h'.options.trans h.options
  vars := h.vars.trans h'.vars
  pointers := h.pointers.trans h'.pointers
  entries := h.entries.trans h'.entries

end Block.Continues

/-- The second sink has the same blocks, but that more has been written in the last one. -/
structure Sink.Continues (s s' : Sink) : Prop where
  name : s'.name = s.name
  loadAddress : s'.loadAddress = s.loadAddress
  blocks : ∃ earlier b b', s.program.blocks = earlier ++ [b] ∧ s'.program.blocks = earlier ++ [b'] ∧
    b.Continues b'

namespace Sink.Continues

variable {s s' s'' : Sink}

theorem of_close {b b' : OpenBlock} (hb : s.current = some b) (h : b.close.Continues b'.close)
    (labels : List String) : s.Continues { s with labels, current := some b' } :=
  ⟨rfl, rfl, s.closed.reverse, b.close, b'.close, by simp [program, hb], rfl, h⟩

theorem refl {b : OpenBlock} (hb : s.current = some b) : s.Continues s :=
  ⟨rfl, rfl, s.closed.reverse, b.close, b.close, by simp [program, hb], by simp [program, hb], .refl _⟩

theorem trans (h : s.Continues s') (h' : s'.Continues s'') : s.Continues s'' := by
  obtain ⟨hname, haddress, earlier, b, b₁, hb, hb₁, hcont⟩ := h
  obtain ⟨hname', haddress', earlier', b₂, b', hb₂, hb', hcont'⟩ := h'
  obtain ⟨rfl, hlast⟩ := List.append_inj' (hb₁.symm.trans hb₂) rfl
  cases hlast
  exact ⟨hname'.trans hname, haddress'.trans haddress, earlier, b, b', hb, hb', hcont.trans hcont'⟩

end Sink.Continues

/-! ## Labels -/

/-- The second sink has more labels at the end of its program. They were not known before, and they are
known now. -/
def Sink.AddsLabels (s s' : Sink) : Prop :=
  ∃ new, s'.program.labels = s.program.labels ++ new ∧ s'.labels = new.reverse ++ s.labels ∧
    new.Nodup ∧ ∀ l ∈ new, l ∉ s.labels

/-- The labels of the program are distinct, and the sink knows them. -/
structure Sink.KnowsOwn (s : Sink) : Prop where
  distinct : s.program.labels.Nodup
  known : ∀ l ∈ s.program.labels, l ∈ s.labels

namespace Sink

variable {s s' s'' : Sink}

theorem program_labels (s : Sink) :
    s.program.labels =
      s.closed.reverse.flatMap (·.labels) ++ s.current.elim [] fun b => labelsOf b.recent.reverse := by
  rw [Program.labels, program, List.flatMap_append]
  cases s.current with
  | none => rfl
  | some b => simp [Block.labels, OpenBlock.close]

/-- A change of the open block that keeps its labels keeps those of the program. -/
theorem program_labels_edit {b b' : OpenBlock} (hb : s.current = some b)
    (h : labelsOf b'.recent.reverse = labelsOf b.recent.reverse) :
    { s with current := some b' }.program.labels = s.program.labels := by
  rw [program_labels, program_labels, hb]
  exact congrArg _ h

theorem program_labels_label {b : OpenBlock} (hb : s.current = some b) (l : String)
    (isSubroutine : Bool) :
    { s with
      labels := l :: s.labels
      current := some { b with recent := .label l isSubroutine :: b.recent } }.program.labels =
      s.program.labels ++ [l] := by
  simp [program_labels, hb, labelsOf, Entry.label?]

namespace AddsLabels

theorem refl (s : Sink) : s.AddsLabels s := ⟨[], (List.append_nil _).symm, rfl, .nil, nofun⟩

theorem trans (h : s.AddsLabels s') (h' : s'.AddsLabels s'') : s.AddsLabels s'' := by
  obtain ⟨new, hprogram, hlabels, hdistinct, hnew⟩ := h
  obtain ⟨new', hprogram', hlabels', hdistinct', hnew'⟩ := h'
  refine ⟨new ++ new', ?_, ?_, hdistinct.append hdistinct' fun l hl hl' => hnew' l hl' ?_,
    fun l hl hold => ?_⟩
  · rw [hprogram', hprogram, List.append_assoc]
  · rw [hlabels', hlabels, List.reverse_append, List.append_assoc]
  · rw [hlabels, List.mem_append, List.mem_reverse]
    exact .inl hl
  · rcases List.mem_append.1 hl with hl | hl
    · exact hnew l hl hold
    · exact hnew' l hl (hlabels ▸ List.mem_append_right _ hold)

theorem mem_iff (h : s.AddsLabels s') (hsame : ∀ l, l ∈ s.labels ↔ l ∈ s.program.labels) (l : String) :
    l ∈ s'.labels ↔ l ∈ s'.program.labels := by
  obtain ⟨new, hprogram, hlabels, -, -⟩ := h
  rw [hprogram, hlabels, List.mem_append, List.mem_append, List.mem_reverse, hsame, or_comm]

end AddsLabels

/-- More labels can be known than those of the program. -/
theorem KnowsOwn.of_same (h : s.KnowsOwn) (hprogram : s'.program.labels = s.program.labels)
    (hlabels : ∀ l ∈ s.labels, l ∈ s'.labels) : s'.KnowsOwn :=
  ⟨hprogram ▸ h.distinct, fun l hl => hlabels l (h.known l (hprogram ▸ hl))⟩

theorem AddsLabels.knowsOwn (h : s.AddsLabels s') (hknows : s.KnowsOwn) : s'.KnowsOwn := by
  obtain ⟨new, hprogram, hlabels, hdistinct, hnew⟩ := h
  refine ⟨?_, fun l hl => ?_⟩
  · rw [hprogram]
    exact hknows.distinct.append hdistinct fun l hl hl' => hnew l hl' (hknows.known l hl)
  · rw [hprogram, List.mem_append] at hl
    rw [hlabels, List.mem_append, List.mem_reverse]
    exact hl.symm.imp_right (hknows.known l)

end Sink

/-! ## Operations that write -/

namespace SinkOp

/-- The operation opens no block, and takes nothing back. -/
def IsWriting : SinkOp → Prop
  | openBlock .. | removeLatest => False
  | declare .. | pointer .. | instruction _ | label .. | line .. => True

variable {op : SinkOp} {s s' : Sink} {answer : Option Instruction} {f : OpenBlock → OpenBlock}

theorem edit_labels (hf : op.edit? = some f) (b : OpenBlock) :
    labelsOf (f b).recent.reverse = labelsOf b.recent.reverse := by
  cases op with
  | declare name datatype storage length => cases storage <;> cases hf <;> rfl
  | pointer => cases hf; rfl
  | instruction i =>
    cases hf
    simp [labelsOf, Entry.label?]
  | line number file =>
    cases hf
    have hm : (Sink.lineMarker number file).opcode = .line := rfl
    rw [← labelsOf_filter_isLine, ← labelsOf_filter_isLine b.recent.reverse, List.filter_reverse,
      List.filter_reverse, filter_mark hm]
  | openBlock | label | removeLatest => cases hf

/-- An operation that edits the open block writes in it. -/
theorem edit_continues (hf : op.edit? = some f) (b : OpenBlock) : b.close.Continues (f b).close := by
  cases op with
  | declare name datatype storage length =>
    cases storage with
    | plain => cases hf; exact { Block.Continues.refl b.close with vars := List.prefix_append _ _ }
    | memory =>
      cases hf
      exact { Block.Continues.refl b.close with pointers := List.prefix_append _ _ }
    | const => cases hf; exact .refl _
  | pointer =>
    cases hf
    exact { Block.Continues.refl b.close with pointers := List.prefix_append _ _ }
  | instruction i =>
    cases hf
    exact { Block.Continues.refl b.close with
      entries := .inl (List.reverse_prefix.2 (List.suffix_cons _ _)) }
  | line number file =>
    cases hf
    exact { Block.Continues.refl b.close with entries := .mark rfl b.recent }
  | openBlock | label | removeLatest => cases hf

/-- **An operation that writes leaves what was there, and defines labels that were not known.** -/
theorem step_continues (hop : op.IsWriting) (h : op.step s = (.ok answer, s')) :
    s.Continues s' ∧ s.AddsLabels s' := by
  rcases op.kinds with ⟨f, hf⟩ | ⟨_, _, _, rfl⟩ | ⟨l, isSubroutine, rfl⟩ | rfl
  · rw [step_edit hf] at h
    split at h <;> cases h
    next b hb =>
      refine ⟨.of_close hb (edit_continues hf b) s.labels, [], ?_, rfl, .nil, nofun⟩
      rw [Sink.program_labels_edit hb (edit_labels hf b), List.append_nil]
  · cases hop
  · rw [step_label] at h
    split at h
    next => cases h
    next hl =>
      split at h <;> cases h
      next b hb =>
        have hcont : b.close.Continues
            { b with recent := .label l isSubroutine :: b.recent : OpenBlock }.close :=
          { Block.Continues.refl b.close with
            entries := .inl (List.reverse_prefix.2 (List.suffix_cons _ _)) }
        exact ⟨.of_close hb hcont _, [l], Sink.program_labels_label hb l isSubroutine, rfl,
          List.nodup_singleton l, by simpa using hl⟩
  · cases hop

/-- Labels stay distinct and known whatever is done, and whether it succeeds or fails. -/
theorem step_knowsOwn (h : s.KnowsOwn) : (op.step s).2.KnowsOwn := by
  rcases op.kinds with ⟨f, hf⟩ | ⟨_, _, _, rfl⟩ | ⟨l, isSubroutine, rfl⟩ | rfl
  · rw [step_edit hf]
    cases hb : s.current with
    | none => exact h
    | some b => exact h.of_same (Sink.program_labels_edit hb (edit_labels hf b)) fun _ hl => hl
  · rw [step_openBlock]
    refine h.of_same ?_ fun _ hl => hl
    cases hb : s.current <;>
      simp [Sink.program_labels, hb, Block.labels, OpenBlock.close, labelsOf]
  · rw [step_label]
    split
    next => exact h
    next hl =>
      cases hb : s.current with
      | none =>
        refine h.of_same ?_ fun _ => List.mem_cons_of_mem _
        rw [Sink.program_labels, Sink.program_labels, hb]
      | some b =>
        exact Sink.AddsLabels.knowsOwn ⟨[l], Sink.program_labels_label hb l isSubroutine, rfl,
          List.nodup_singleton l, by simpa using hl⟩ h
  · rw [step_removeLatest]
    cases hb : s.current with
    | none => exact h
    | some b =>
      cases htake : Sink.takeLatest b.recent with
      | none => simpa only [htake] using h
      | some taken =>
        obtain ⟨i, left⟩ := taken
        simp only [htake]
        refine h.of_same (Sink.program_labels_edit hb ?_) fun _ hl => hl
        rw [← labelsOf_filter_isLine, ← labelsOf_filter_isLine b.recent.reverse, List.filter_reverse,
          List.filter_reverse, filter_takeLatest htake]
        simp [labelsOf, Entry.label?]

end SinkOp

/-- An operation that writes leads from the first sink to the second one. -/
def Sink.Grows (s s' : Sink) : Prop :=
  ∃ op : SinkOp, op.IsWriting ∧ ∃ answer, op.step s = (.ok answer, s')

/-- Operations that write do, one after the other. -/
abbrev Sink.GrowsTo : Sink → Sink → Prop := Relation.ReflTransGen Sink.Grows

namespace Sink

variable {s s' : Sink}

theorem GrowsTo.continues (h : s.GrowsTo s') (hopen : s.current.isSome) : s.Continues s' := by
  obtain ⟨b, hb⟩ := Option.isSome_iff_exists.1 hopen
  induction h with
  | refl => exact .refl hb
  | tail _ hstep ih =>
    obtain ⟨op, hop, answer, hstep⟩ := hstep
    exact ih.trans (SinkOp.step_continues hop hstep).1

theorem GrowsTo.addsLabels (h : s.GrowsTo s') : s.AddsLabels s' := by
  induction h with
  | refl => exact .refl s
  | tail _ hstep ih =>
    obtain ⟨op, hop, answer, hstep⟩ := hstep
    exact ih.trans (SinkOp.step_continues hop hstep).2

theorem after_knowsOwn (h : s.KnowsOwn) (ops : List SinkOp) : (s.after ops).KnowsOwn := by
  induction ops generalizing s with
  | nil => exact h
  | cons op ops ih => exact ih (SinkOp.step_knowsOwn h)

/-- In what has been written from the start no label stands twice. -/
theorem written_knowsOwn (name : String) (loadAddress : Option UInt16) (ops : List SinkOp) :
    (written name loadAddress ops).KnowsOwn := by
  have hstart : ({ name, loadAddress } : Sink).KnowsOwn := ⟨List.nodup_nil, nofun⟩
  exact after_knowsOwn hstart ops

end Sink
end StackCode
