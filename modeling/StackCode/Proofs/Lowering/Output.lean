/-
What lowering adds to its output. Seen from the outside each step appends entries to
the open block and defines their labels, which were not defined before; line markers
are looked past. `Writes` says this of a whole run of steps.
-/
import StackCode.Lowering.Output
import StackCode.Lowering.Environment
import StackCode.Proofs.Lowered
import Mathlib.Data.List.Nodup

namespace StackCode

/-! ## Steps that write -/

namespace Writer

variable {α β : Type} {out out' : Output}

theorem bind_ok_iff {x : Writer α} {f : α → Writer β} {b : β} :
    (x >>= f) out = .ok (b, out') ↔ ∃ a mid, x out = .ok (a, mid) ∧ f a mid = .ok (b, out') := by
  change (x out >>= fun p => f p.1 p.2) = _ ↔ _
  simp only [Lowered.bind_ok_iff, Prod.exists]

theorem pure_ok_iff {a b : α} :
    (pure a : Writer α) out = .ok (b, out') ↔ a = b ∧ out = out' := by
  change (Except.ok (a, out) : Lowered (α × Output)) = _ ↔ _
  rw [Except.ok.injEq, Prod.mk.injEq]

theorem lift_ok_iff {x : Lowered α} {b : α} :
    (liftM x : Writer α) out = .ok (b, out') ↔ x = .ok b ∧ out = out' := by
  change (x >>= fun a => pure (a, out)) = _ ↔ _
  simp [Lowered.bind_ok_iff, pure, Except.pure]

theorem throw_ok_iff {e : LowerError} {b : α} :
    (throw e : Writer α) out = .ok (b, out') ↔ False := by
  simp [throw, throwThe, MonadExceptOf.throw, StateT.lift, bind, Except.bind]

end Writer

/-- What an operation on a sink comes to. -/
def SinkM.result {α : Type} (op : SinkM α) (s : Sink) : Except SinkError α × Sink := op.run s

namespace SinkM

variable {α β : Type} {s s' : Sink}

theorem result_bind {x : SinkM α} {f : α → SinkM β} :
    (x >>= f).result s =
      match x.result s with
      | (.ok a, mid) => (f a).result mid
      | (.error e, mid) => (.error e, mid) := by
  simp only [result, bind, ExceptT.bind, ExceptT.mk, ExceptT.run, StateT.bind, ExceptT.bindCont]
  rcases x s with ⟨_ | _, mid⟩ <;> rfl

theorem bind_ok_iff {x : SinkM α} {f : α → SinkM β} {b : β} :
    (x >>= f).result s = (.ok b, s') ↔
      ∃ a mid, x.result s = (.ok a, mid) ∧ (f a).result mid = (.ok b, s') := by
  rw [result_bind]
  rcases x.result s with ⟨_ | _, mid⟩ <;> simp

theorem modify_ok_iff {f : Sink → Sink} {u : PUnit} :
    (modify f : SinkM PUnit).result s = (.ok u, s') ↔ f s = s' := by
  change ((.ok PUnit.unit, f s) : Except SinkError PUnit × Sink) = _ ↔ _
  simp

theorem pure_ok_iff {a b : α} : (pure a : SinkM α).result s = (.ok b, s') ↔ a = b ∧ s = s' := by
  change ((.ok a, s) : Except SinkError α × Sink) = _ ↔ _
  simp

theorem result_get : (get : SinkM Sink).result s = (.ok s, s) := rfl

theorem result_modify {f : Sink → Sink} :
    (modify f : SinkM PUnit).result s = (.ok PUnit.unit, f s) :=
  rfl

end SinkM

theorem perform_eq {α : Type} (op : SinkM α) (out : Output) :
    perform op out =
      match op.result out.sink with
      | (.ok a, sink) => .ok (a, { out with sink })
      | (.error e, _) => .error (.sink e) :=
  rfl

theorem perform_ok_iff {α : Type} {op : SinkM α} {out out' : Output} {a : α} :
    perform op out = .ok (a, out') ↔
      ∃ sink, op.result out.sink = (.ok a, sink) ∧ { out with sink } = out' := by
  rw [perform_eq]
  rcases op.result out.sink with ⟨_ | _, sink⟩ <;> simp

/-- An operation that is made of two is performed as two steps. -/
theorem perform_bind {α β : Type} (x : SinkM α) (f : α → SinkM β) :
    perform (x >>= f) = perform x >>= fun a => perform (f a) := by
  funext out
  change _ = (perform x out >>= fun r => perform (f r.1) r.2)
  rw [perform_eq, perform_eq, SinkM.result_bind]
  rcases x.result out.sink with ⟨_ | _, mid⟩ <;> rfl

theorem emit_cons (i : Instruction) (code : List Instruction) :
    emit (i :: code) = perform (Sink.instruction i) >>= fun _ => emit code :=
  perform_bind _ _

/-! ## The open block -/

/-- A block is open. -/
def Output.IsOpen (out : Output) : Prop := out.sink.current.isSome

namespace Sink

variable {s : Sink} {f : OpenBlock → OpenBlock}

theorem modifyBlock_result {b : OpenBlock} (hb : s.current = some b) :
    (modifyBlock f).result s = (.ok (), { s with current := some (f b) }) := by
  rw [modifyBlock, SinkM.result_bind, SinkM.result_get]
  simp only [hb]
  rfl

theorem modifyBlock_result_none (hs : s.current = none) :
    (modifyBlock f).result s = (.error .noBlock, s) := by
  rw [modifyBlock, SinkM.result_bind, SinkM.result_get]
  simp only [hs]
  rfl

theorem label_result (s : Sink) (name : String) (isSubroutine : Bool) :
    (label name isSubroutine).result s =
      if name ∈ s.labels then (.error (.duplicateLabel name), s)
      else match s.current with
        | none => (.error .noBlock, { s with labels := name :: s.labels })
        | some b => (.ok (), { s with
            labels := name :: s.labels
            current := some { b with recent := .label name isSubroutine :: b.recent } }) := by
  rw [label, SinkM.result_bind, SinkM.result_get]
  by_cases hname : name ∈ s.labels
  · simp only [if_pos hname]
    rfl
  · simp only [if_neg hname]
    rw [SinkM.result_bind, SinkM.result_modify]
    cases hs : s.current with
    | none => dsimp only; rw [write, modifyBlock_result_none rfl]
    | some b => dsimp only; rw [write, modifyBlock_result rfl]

theorem removeLatest_result (s : Sink) :
    removeLatest.result s =
      match s.current with
      | none => (.error .noBlock, s)
      | some b =>
        match takeLatest b.recent with
        | none => (.error (.nothingToRemove b.name), s)
        | some (i, left) => (.ok i, { s with current := some { b with recent := left } }) := by
  rw [removeLatest, SinkM.result_bind, SinkM.result_get]
  cases hs : s.current with
  | none => simp only [hs]; rfl
  | some b => cases hb : takeLatest b.recent <;> simp only [hs, hb] <;> rfl

end Sink

theorem modifyBlock_ok {f : OpenBlock → OpenBlock} {out out' : Output} {u : Unit}
    (h : perform (Sink.modifyBlock f) out = .ok (u, out')) :
    ∃ b, out.sink.current = some b ∧
      out' = { out with sink := { out.sink with current := some (f b) } } := by
  rw [perform_eq] at h
  cases hb : out.sink.current with
  | none => rw [Sink.modifyBlock_result_none hb] at h; cases h
  | some b => rw [Sink.modifyBlock_result hb] at h; cases h; exact ⟨b, rfl, rfl⟩

theorem modifyBlock_blocks {f : OpenBlock → OpenBlock} {out out' : Output} {u : Unit}
    (h : perform (Sink.modifyBlock f) out = .ok (u, out')) :
    ∃ b, out.sink.program.blocks = out.sink.closed.reverse ++ [b.close] ∧
      out'.sink.program.blocks = out.sink.closed.reverse ++ [(f b).close] := by
  obtain ⟨b, hb, rfl⟩ := modifyBlock_ok h
  exact ⟨b, by simp [Sink.program, hb], rfl⟩

theorem label_ok {name : String} {isSubroutine : Bool} {out out' : Output} {u : Unit}
    (h : perform (Sink.label name isSubroutine) out = .ok (u, out')) :
    ∃ b, out.sink.current = some b ∧ name ∉ out.sink.labels ∧
      out' = { out with sink := { out.sink with
        labels := name :: out.sink.labels
        current := some { b with recent := .label name isSubroutine :: b.recent } } } := by
  rw [perform_eq, Sink.label_result] at h
  by_cases hname : name ∈ out.sink.labels
  · rw [if_pos hname] at h
    cases h
  · rw [if_neg hname] at h
    cases hb : out.sink.current with
    | none => rw [hb] at h; cases h
    | some b => rw [hb] at h; cases h; exact ⟨b, rfl, hname, rfl⟩

theorem removeLatest_taken {i : Instruction} {out out' : Output}
    (h : perform Sink.removeLatest out = .ok (i, out')) :
    ∃ b left, out.sink.current = some b ∧ Sink.takeLatest b.recent = some (i, left) ∧
      out' = { out with sink := { out.sink with current := some { b with recent := left } } } := by
  rw [perform_eq, Sink.removeLatest_result] at h
  cases hb : out.sink.current with
  | none => rw [hb] at h; cases h
  | some b =>
    cases htake : Sink.takeLatest b.recent with
    | none => simp only [hb, htake] at h; cases h
    | some taken =>
      simp only [hb, htake] at h
      cases h
      exact ⟨b, _, rfl, htake, rfl⟩

theorem OpenBlock.mem_instructions_close {b : OpenBlock} {i : Instruction} :
    i ∈ b.close.instructions ↔ .instruction i ∈ b.recent := by
  rw [Block.instructions, List.mem_filterMap]
  constructor
  · rintro ⟨e, he, hi⟩
    cases e <;> cases hi
    exact List.mem_reverse.1 he
  · exact fun hi => ⟨_, List.mem_reverse.2 hi, rfl⟩

/-- The entries of the open block, line markers left out. -/
def Sink.code (s : Sink) : List Entry :=
  match s.current with
  | some b => b.recent.reverse.filter (!·.isLine)
  | none => []

/-- The label that an entry defines. -/
def Entry.label? : Entry → Option String
  | .label name _ => some name
  | .instruction _ => none

def labelsOf (es : List Entry) : List String := es.filterMap (·.label?)

theorem labelsOf_append {es es' : List Entry} :
    labelsOf (es ++ es') = labelsOf es ++ labelsOf es' :=
  List.filterMap_append

/-- The entries have been written behind those that were there, and their labels are new. -/
structure Writes (out : Output) (es : List Entry) (out' : Output) : Prop where
  code : out'.sink.code = out.sink.code ++ es
  labels : out'.sink.labels = (labelsOf es).reverse ++ out.sink.labels
  distinct : (labelsOf es).Nodup
  new : ∀ l ∈ labelsOf es, l ∉ out.sink.labels
  closed : out'.sink.closed = out.sink.closed
  opened : out'.sink.current.isSome = out.sink.current.isSome

namespace Writes

variable {out mid out' : Output} {es es' : List Entry}

theorem refl (out : Output) : Writes out [] out :=
  ⟨by simp, rfl, .nil, nofun, rfl, rfl⟩

theorem append (h : Writes out es mid) (h' : Writes mid es' out') : Writes out (es ++ es') out' where
  code := by rw [h'.code, h.code, List.append_assoc]
  labels := by rw [h'.labels, h.labels, labelsOf_append, List.reverse_append, List.append_assoc]
  distinct := by
    refine labelsOf_append ▸ h.distinct.append h'.distinct fun l hl hl' => h'.new l hl' ?_
    rw [h.labels, List.mem_append, List.mem_reverse]
    exact .inl hl
  new l hl hold := by
    rcases List.mem_append.1 (labelsOf_append ▸ hl) with hl | hl
    · exact h.new l hl hold
    · exact h'.new l hl (h.labels ▸ List.mem_append_right _ hold)
  closed := h'.closed.trans h.closed
  opened := h'.opened.trans h.opened

end Writes

/-- The entries have been written, and no label has been generated meanwhile. -/
structure Appends (out : Output) (es : List Entry) (out' : Output) : Prop
    extends Writes out es out' where
  generated : out'.generated = out.generated

namespace Appends

variable {out mid out' : Output} {es es' : List Entry}

theorem refl (out : Output) : Appends out [] out := ⟨.refl out, rfl⟩

theorem append (h : Appends out es mid) (h' : Appends mid es' out') :
    Appends out (es ++ es') out' :=
  ⟨h.toWrites.append h'.toWrites, h'.generated.trans h.generated⟩

end Appends

/-! ## Operations on the sink -/

/-- A change of the open block that adds entries, none of them a label. -/
theorem modifyBlock_appends {f : OpenBlock → OpenBlock} {es : List Entry} {out out' : Output}
    {u : Unit} (hes : labelsOf es = [])
    (hf : ∀ b : OpenBlock, (f b).recent.reverse.filter (!·.isLine) =
      b.recent.reverse.filter (!·.isLine) ++ es)
    (h : perform (Sink.modifyBlock f) out = .ok (u, out')) : Appends out es out' := by
  obtain ⟨b, hb, rfl⟩ := modifyBlock_ok h
  refine ⟨⟨?_, ?_, hes ▸ .nil, fun l hl => ?_, rfl, ?_⟩, rfl⟩
  · simp only [Sink.code, hb, hf]
  · simp [hes]
  · simp [hes] at hl
  · simp [hb]

theorem declare_appends {name : String} {t : DataType} {storage : Storage} {length : Option UInt16}
    {out out' : Output} {u : Unit}
    (h : perform (Sink.declare name t storage length) out = .ok (u, out')) : Appends out [] out' := by
  unfold Sink.declare at h
  split at h <;> refine modifyBlock_appends rfl (fun b => ?_) h <;> exact (List.append_nil _).symm

theorem pointer_appends {name : String} {address : UInt16} {t : DataType} {out out' : Output}
    {u : Unit} (h : perform (Sink.pointer name address t) out = .ok (u, out')) :
    Appends out [] out' := by
  refine modifyBlock_appends rfl (fun b => ?_) h
  exact (List.append_nil _).symm

theorem write_appends {i : Instruction} {out out' : Output} {u : Unit} (hi : i.opcode ≠ .line)
    (h : perform (Sink.instruction i) out = .ok (u, out')) :
    Appends out [.instruction i] out' := by
  refine modifyBlock_appends rfl (fun b => ?_) h
  rw [List.reverse_cons, List.filter_append]
  simp [Entry.isLine, Instruction.isLine, hi]

/-- Two line markers in a row become one, so a marker is no entry that counts. -/
theorem filter_mark {marker : Instruction} (hm : marker.opcode = .line) (recent : List Entry) :
    (Sink.mark marker recent).filter (!·.isLine) = recent.filter (!·.isLine) := by
  have hmarker : (Entry.instruction marker).isLine = true := by
    simp [Entry.isLine, Instruction.isLine, hm]
  unfold Sink.mark
  split
  · split
    next last rest hlast => simp [hmarker, hlast]
    next last rest hlast => simp [hmarker]
  · simp [hmarker]

theorem mark_appends {env : Environment} {p : Position} {out out' : Output} {u : Unit}
    (h : env.mark p out = .ok (u, out')) : Appends out [] out' := by
  unfold Environment.mark at h
  split at h
  · refine modifyBlock_appends rfl (fun b => ?_) h
    rw [List.append_nil, List.filter_reverse, List.filter_reverse, filter_mark rfl]
  · rw [Writer.pure_ok_iff] at h
    obtain ⟨-, rfl⟩ := h
    exact .refl out

/-! ## Steps -/

theorem emit_appends {code : List Instruction} {out out' : Output} {u : Unit}
    (hc : ∀ i ∈ code, i.opcode ≠ .line) (h : emit code out = .ok (u, out')) :
    Appends out (code.map .instruction) out' := by
  induction code generalizing out with
  | nil =>
    simp only [emit, List.forM, perform_ok_iff, SinkM.pure_ok_iff] at h
    obtain ⟨sink, ⟨-, rfl⟩, rfl⟩ := h
    exact .refl out
  | cons i code ih =>
    simp only [emit, List.forM, perform_ok_iff, SinkM.bind_ok_iff] at h
    obtain ⟨sink, ⟨v, mid, hi, hrest⟩, rfl⟩ := h
    have hfirst : perform (Sink.instruction i) out = .ok (v, { out with sink := mid }) :=
      perform_ok_iff.2 ⟨mid, hi, rfl⟩
    have hthen : emit code { out with sink := mid } = .ok (u, { out with sink }) :=
      perform_ok_iff.2 ⟨sink, hrest, rfl⟩
    exact (write_appends (hc i List.mem_cons_self) hfirst).append
      (ih (fun j hj => hc j (List.mem_cons_of_mem _ hj)) hthen)

theorem emitLowered_ok_iff {code : Lowered (List Instruction)} {out out' : Output} {u : Unit} :
    emitLowered code out = .ok (u, out') ↔ ∃ c, code = .ok c ∧ emit c out = .ok (u, out') := by
  simp only [emitLowered, Writer.bind_ok_iff, Writer.lift_ok_iff]
  exact ⟨fun ⟨c, _, ⟨hc, hmid⟩, h⟩ => ⟨c, hc, hmid ▸ h⟩, fun ⟨c, hc, h⟩ => ⟨c, out, ⟨hc, rfl⟩, h⟩⟩

theorem label_appends {name : String} {isSubroutine : Bool} {out out' : Output} {u : Unit}
    (h : perform (Sink.label name isSubroutine) out = .ok (u, out')) :
    Appends out [.label name isSubroutine] out' := by
  obtain ⟨b, hb, hnew, rfl⟩ := label_ok h
  refine ⟨⟨?_, rfl, List.nodup_singleton name, ?_, rfl, ?_⟩, rfl⟩
  · simp only [Sink.code, hb, List.reverse_cons, List.filter_append]
    rfl
  · simpa [labelsOf, Entry.label?] using hnew
  · simp [hb]

/-- Looking past line markers, the instruction that is taken back is the last entry. -/
theorem filter_takeLatest {i : Instruction} : ∀ {recent left : List Entry},
    Sink.takeLatest recent = some (i, left) →
      recent.filter (!·.isLine) = .instruction i :: left.filter (!·.isLine)
  | [], _, h => by cases h
  | .label .. :: _, _, h => by cases h
  | .instruction j :: rest, left, h => by
    unfold Sink.takeLatest at h
    split at h
    next hj =>
      obtain ⟨⟨taken, left'⟩, hrest, hleft⟩ := Option.map_eq_some_iff.1 h
      cases hleft
      simp only [List.filter_cons, Entry.isLine, hj, Bool.not_true, Bool.false_eq_true, if_false]
      exact filter_takeLatest hrest
    next hj =>
      cases h
      simp only [List.filter_cons, Entry.isLine, hj, Bool.not_false, if_true]

/-- The latest instruction is taken back, which defines no label. -/
theorem removeLatest_ok {i : Instruction} {out out' : Output}
    (h : perform Sink.removeLatest out = .ok (i, out')) :
    out.sink.code = out'.sink.code ++ [.instruction i] ∧ out'.sink.labels = out.sink.labels ∧
      out'.sink.closed = out.sink.closed ∧
      out'.sink.current.isSome = out.sink.current.isSome ∧ out'.generated = out.generated := by
  obtain ⟨b, left, hb, htake, rfl⟩ := removeLatest_taken h
  refine ⟨?_, rfl, rfl, by simp [hb], rfl⟩
  simp only [Sink.code, hb, List.filter_reverse, filter_takeLatest htake, List.reverse_cons]

/-- An instruction that is taken back at once has never been there. -/
theorem emit_removeLatest {i j : Instruction} {out mid out' : Output} {u : Unit} (hi : i.opcode ≠ .line)
    (hemit : emit [i] out = .ok (u, mid)) (hremove : perform Sink.removeLatest mid = .ok (j, out')) :
    j = i ∧ out' = out := by
  have hwrite : perform (Sink.instruction i) out = .ok ((), mid) := by
    simp only [emit, List.forM, perform_ok_iff, SinkM.bind_ok_iff, SinkM.pure_ok_iff] at hemit ⊢
    obtain ⟨sink, ⟨_, _, hi, -, rfl⟩, rfl⟩ := hemit
    exact ⟨_, hi, rfl⟩
  obtain ⟨b, hb, rfl⟩ := modifyBlock_ok hwrite
  obtain ⟨_, left, hb', htake, rfl⟩ := removeLatest_taken hremove
  cases hb'
  simp only [Sink.takeLatest, Instruction.isLine, hi, decide_false, Bool.false_eq_true, if_false] at htake
  cases htake
  obtain ⟨⟨name, address, closed, current, labels⟩, generated⟩ := out
  cases hb
  exact ⟨rfl, rfl⟩

/-- Of what has been written, the last entry is taken back. -/
theorem Writes.removeLatest {es : List Entry} {i j : Instruction} {out mid out' : Output}
    (hw : Writes out (es ++ [.instruction i]) mid)
    (h : perform Sink.removeLatest mid = .ok (j, out')) : Writes out es out' := by
  obtain ⟨hcode, hlabels, hclosed, hopened, -⟩ := removeLatest_ok h
  have hlast : out.sink.code ++ es ++ [.instruction i] = out'.sink.code ++ [.instruction j] := by
    rw [← hcode, hw.code, List.append_assoc]
  have hsame : labelsOf (es ++ [.instruction i]) = labelsOf es := by
    simp [labelsOf, Entry.label?]
  exact ⟨(List.append_inj' hlast rfl).1.symm, by rw [hlabels, hw.labels, hsame],
    hsame ▸ hw.distinct, hsame ▸ hw.new, hclosed.trans hw.closed, hopened.trans hw.opened⟩

theorem freshLabel_ok {scope suffix name : String} {out out' : Output}
    (h : freshLabel scope suffix out = .ok (name, out')) :
    name = labelName scope suffix (out.generated + 1) ∧ Writes out [] out' ∧
      out'.generated = out.generated + 1 := by
  cases h
  exact ⟨rfl, ⟨(List.append_nil _).symm, rfl, .nil, nofun, rfl, rfl⟩, rfl⟩

end StackCode
