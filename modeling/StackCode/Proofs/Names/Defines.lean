/-
What steps define under names from the source, and that they use the sink as they
should.

A step is told apart by what it defines and by the state of the output before and
behind it, mostly that a block is open. Names that are made up for labels count like
those of the source as long as they are to be placed, so that the label of a name is
known to be new where it is placed: it is not in the sink, nothing else that is still to
be written has that name, and no number is used again.
-/
import StackCode.Proofs.Lowering.Fault
import StackCode.Proofs.Names.Definition
import StackCode.Proofs.Names.Trace

namespace StackCode

/-! ## The definitions of an output -/

def Sink.pointers (s : Sink) : List MemoryPointer := s.program.blocks.flatMap (·.pointers)

def Sink.definitions (s : Sink) : List Definition :=
  s.labels.map .label ++ s.pointers.map .pointer

def labelNames (ds : List Definition) : List String := ds.filterMap (·.label?)

theorem labelNames_append {ds ds' : List Definition} :
    labelNames (ds ++ ds') = labelNames ds ++ labelNames ds' :=
  List.filterMap_append

theorem labelNames_map_label {names : List String} : labelNames (names.map .label) = names := by
  simp [labelNames, List.filterMap_map, Definition.label?]

theorem labelNames_map_pointer {ps : List MemoryPointer} : labelNames (ps.map .pointer) = [] := by
  simp [labelNames, List.filterMap_map, Definition.label?]

theorem Sink.labelNames_definitions (s : Sink) : labelNames s.definitions = s.labels := by
  rw [definitions, labelNames_append, labelNames_map_label, labelNames_map_pointer, List.append_nil]

/-- These definitions can still be made: no label would be there twice, and none has a name that is
still to be made up. -/
structure Fits (out : Output) (ds : List Definition) : Prop where
  distinct : (labelNames ds ++ out.sink.labels).Nodup
  known : ∀ l ∈ labelNames ds ++ out.sink.labels, Known out.generated l

/-- One output comes behind another one, with these definitions and some labels of names that were
made up meanwhile. -/
structure Behind (out : Output) (ds : List Definition) (made : List String) (out' : Output) : Prop where
  generated : out'.generated = out.generated + made.length
  definitions : ∃ own : List String, own.Sublist made ∧
    out'.sink.definitions.Perm (ds ++ own.map .label ++ out.sink.definitions)

namespace Behind

variable {out mid out' : Output} {ds ds' : List Definition} {made made' : List String}

theorem refl (out : Output) : Behind out [] [] out := ⟨rfl, [], .refl _, .refl _⟩

theorem append (h : Behind out ds made mid) (h' : Behind mid ds' made' out') :
    Behind out (ds ++ ds') (made ++ made') out' := by
  obtain ⟨own, hown, hperm⟩ := h.definitions
  obtain ⟨own', hown', hperm'⟩ := h'.definitions
  refine ⟨by rw [h'.generated, h.generated, List.length_append, Nat.add_assoc], own ++ own',
    hown.append hown', ?_⟩
  calc out'.sink.definitions
    _ |>.Perm (ds' ++ own'.map .label ++ mid.sink.definitions) := hperm'
    _ |>.Perm (ds' ++ own'.map .label ++ (ds ++ own.map .label ++ out.sink.definitions)) :=
      hperm.append_left _
    _ |>.Perm (ds ++ ds' ++ (own ++ own').map .label ++ out.sink.definitions) := by
      simp only [List.map_append, List.perm_iff_count, List.count_append]
      omega

theorem labels (h : Behind out ds made out') : ∃ own : List String, own.Sublist made ∧
    out'.sink.labels.Perm (labelNames ds ++ own ++ out.sink.labels) := by
  obtain ⟨own, hown, hperm⟩ := h.definitions
  have hlabels := hperm.filterMap (·.label?)
  refine ⟨own, hown, ?_⟩
  rw [← Sink.labelNames_definitions, ← Sink.labelNames_definitions]
  simpa [labelNames, List.filterMap_append, List.filterMap_map, Function.comp_def,
    Definition.label?] using hlabels

end Behind

namespace Fits

variable {out mid : Output} {ds ds' : List Definition} {made : List String} {name : String}

theorem perm (h : Fits out ds) (hp : ds.Perm ds') : Fits out ds' := by
  have hnames : (labelNames ds ++ out.sink.labels).Perm (labelNames ds' ++ out.sink.labels) :=
    (hp.filterMap _).append_right _
  exact ⟨hnames.nodup_iff.1 h.distinct, fun l hl => h.known l (hnames.mem_iff.2 hl)⟩

/-- What is defined first fits by itself. -/
theorem left (h : Fits out (ds ++ ds')) : Fits out ds := by
  have hsub : (labelNames ds ++ out.sink.labels).Sublist
      (labelNames (ds ++ ds') ++ out.sink.labels) := by
    rw [labelNames_append]
    exact (List.sublist_append_left _ _).append_right _
  exact ⟨hsub.nodup h.distinct, fun l hl => h.known l (hsub.subset hl)⟩

/-- When the first definitions have been made, the others still fit. -/
theorem right (h : Fits out (ds ++ ds')) (hnum : Numbered out.generated made)
    (hb : Behind out ds made mid) : Fits mid ds' := by
  obtain ⟨own, hown, hperm⟩ := hb.labels
  have hnames : (labelNames ds' ++ mid.sink.labels).Perm
      (own ++ (labelNames (ds ++ ds') ++ out.sink.labels)) := by
    refine (hperm.append_left _).trans ?_
    rw [labelNames_append]
    simp only [List.perm_iff_count, List.count_append]
    omega
  constructor
  · rw [hnames.nodup_iff, List.nodup_append']
    exact ⟨hown.nodup hnum.nodup, h.distinct, fun l hl hl' =>
      hnum.not_known (hown.subset hl) (h.known l hl')⟩
  · intro l hl
    rw [hb.generated]
    rcases List.mem_append.1 (hnames.mem_iff.1 hl) with hl | hl
    · exact hnum.known (hown.subset hl)
    · exact (h.known l hl).mono (Nat.le_add_right _ _)

/-- The label of a name that has just been made up fits. -/
theorem fresh {scope suffix : String} (h : Fits out ds) (hs : IsPurpose suffix) :
    Fits { out with generated := out.generated + 1 }
      (.label (labelName scope suffix (out.generated + 1)) :: ds) := by
  refine ⟨List.nodup_cons.2 ⟨fun hl => not_known_succ hs (h.known _ hl), h.distinct⟩, fun l hl => ?_⟩
  rcases List.mem_cons.1 hl with rfl | hl
  · exact known_labelName hs
  · exact (h.known l hl).mono (Nat.le_succ _)

theorem raise (h : Fits out ds) : Fits { out with generated := out.generated + 1 } ds :=
  ⟨h.distinct, fun l hl => (h.known l hl).mono (Nat.le_succ _)⟩

theorem not_mem (h : Fits out [.label name]) : name ∉ out.sink.labels :=
  (List.nodup_cons.1 h.distinct).1

end Fits

/-! ## Steps -/

/-- The latest entry of the open block is this instruction. -/
def Output.EndsIn (i : Instruction) (out : Output) : Prop :=
  ∃ b rest, out.sink.current = some b ∧ b.recent = .instruction i :: rest

theorem Output.EndsIn.isOpen {i : Instruction} {out : Output} (h : out.EndsIn i) : out.IsOpen := by
  obtain ⟨b, rest, hb, -⟩ := h
  simp [IsOpen, hb]

/-- How steps go from one output: the names that they make up, and what they define if they come to
their end. If they fail, the sink is not to blame, as long as what they define fits. -/
structure Writer.Outcome {α : Type} (w : Writer α) (ds : List Definition) (post : Output → Prop)
    (out : Output) (made : List String) : Prop where
  makes : w.Makes out made
  numbered : Numbered out.generated made
  sinkFree : Fits out ds → Lowered.SinkFree (w out)
  done : ∀ {a out'}, w out = .ok (a, out') → Behind out ds made out' ∧ post out'

/-- From outputs with the first property, the steps make these definitions and lead to outputs with the
second one. -/
def Writer.Leads {α : Type} (pre : Output → Prop) (w : Writer α) (ds : List Definition)
    (post : Output → Prop) : Prop :=
  ∀ out, pre out → ∃ made, w.Outcome ds post out made

/-- The steps make these definitions in the open block. -/
abbrev Writer.Defines {α : Type} (w : Writer α) (ds : List Definition) : Prop :=
  w.Leads Output.IsOpen ds Output.IsOpen

namespace Writer.Leads

variable {α β : Type} {pre mid post : Output → Prop} {w : Writer α} {f : α → Writer β}
  {ds ds' : List Definition}

theorem bind (hw : w.Leads pre ds mid) (hf : ∀ a, (f a).Leads mid ds' post) :
    (w >>= f).Leads pre (ds ++ ds') post := by
  intro out hpre
  obtain ⟨made, hmakes, hnum, hfree, hdone⟩ := hw out hpre
  cases hrun : w out with
  | error e =>
    have hall : (w >>= f) out = .error e := by
      change (w out >>= fun p => f p.1 p.2) = _
      rw [hrun]
      rfl
    refine ⟨made, .bind_error hmakes hrun, hnum, fun hfit g hg => ?_, fun h => ?_⟩
    · rw [hall, Except.error.injEq] at hg
      exact hfree hfit.left g (hg ▸ hrun)
    · rw [hall] at h
      cases h
  | ok p =>
    obtain ⟨a, out₁⟩ := p
    have hall : (w >>= f) out = f a out₁ := by
      change (w out >>= fun p => f p.1 p.2) = _
      rw [hrun]
      rfl
    obtain ⟨hbehind, hmid⟩ := hdone hrun
    obtain ⟨made', hmakes', hnum', hfree', hdone'⟩ := hf a out₁ hmid
    refine ⟨made ++ made', .bind_ok hmakes hrun hmakes', hnum.append (hbehind.generated ▸ hnum'),
      fun hfit => hall ▸ hfree' (hfit.right hnum hbehind), fun h => ?_⟩
    obtain ⟨hbehind', hpost⟩ := hdone' (hall ▸ h)
    exact ⟨hbehind.append hbehind', hpost⟩

theorem perm (hw : w.Leads pre ds post) (hp : ds.Perm ds') : w.Leads pre ds' post := by
  intro out hpre
  obtain ⟨made, hmakes, hnum, hfree, hdone⟩ := hw out hpre
  refine ⟨made, hmakes, hnum, fun hfit => hfree (hfit.perm hp.symm), fun h => ?_⟩
  obtain ⟨⟨hcount, own, hown, hdefs⟩, hpost⟩ := hdone h
  exact ⟨⟨hcount, own, hown, hdefs.trans ((hp.append_right _).append_right _)⟩, hpost⟩

theorem weaken {post' : Output → Prop} (hw : w.Leads pre ds post) (h : ∀ out, post out → post' out) :
    w.Leads pre ds post' := by
  intro out hpre
  obtain ⟨made, hmakes, hnum, hfree, hdone⟩ := hw out hpre
  exact ⟨made, hmakes, hnum, hfree, fun hrun => (hdone hrun).imp_right (h _)⟩

theorem strengthen {pre' : Output → Prop} (hw : w.Leads pre ds post)
    (h : ∀ out, pre' out → pre out) : w.Leads pre' ds post := fun out hpre => hw out (h out hpre)

/-- Behind a step that defines nothing. -/
theorem after (hw : w.Leads pre [] mid) (hf : ∀ a, (f a).Leads mid ds post) :
    (w >>= f).Leads pre ds post :=
  hw.bind hf

/-- What was made without the sink. -/
theorem lifted {x : Lowered α} (hx : x.SinkFree) : (liftM x : Writer α).Leads pre [] pre := by
  intro out hpre
  refine ⟨[], .lift x out, .nil _, fun _ => ?_, fun h => ?_⟩
  · exact hx.bind fun _ => .ok _
  · obtain ⟨-, rfl⟩ := Writer.lift_ok_iff.1 h
    exact ⟨.refl out, hpre⟩

theorem lift {x : Lowered α} (hx : x.SinkFree) (hf : ∀ a, (f a).Leads pre ds post) :
    (liftM x >>= f).Leads pre ds post :=
  (lifted hx).after hf

theorem pure (a : α) : (Pure.pure a : Writer α).Leads pre [] pre := lifted (.ok a)

/-- A step that gives up. -/
theorem throw {e : LowerError} (he : ∀ f, e ≠ .sink f) :
    (MonadExcept.throw e : Writer α).Leads pre ds post := fun out _ =>
  ⟨[], .lift (.error e) out, .nil _, fun _ => Lowered.SinkFree.error he,
    fun h => (Writer.throw_ok_iff.1 h).elim⟩

/-- A step that gives up never comes to what is behind it. -/
theorem throw_bind {e : LowerError} (he : ∀ f, e ≠ .sink f) :
    ((MonadExcept.throw e : Writer α) >>= f).Leads pre ds post := fun out _ =>
  ⟨[], .bind_error (.lift (.error e) out) rfl, .nil _, fun _ => Lowered.SinkFree.error he, fun h => by
    obtain ⟨a, mid, h, -⟩ := Writer.bind_ok_iff.1 h
    exact (Writer.throw_ok_iff.1 h).elim⟩

/-- An operation on the sink makes up no names. -/
theorem performs {op : SinkM α}
    (hok : ∀ {out a sink}, pre out → op.result out.sink = (.ok a, sink) →
      sink.definitions.Perm (ds ++ out.sink.definitions) ∧ post { out with sink })
    (herror : ∀ {out e sink}, pre out → op.result out.sink = (.error e, sink) → ¬ Fits out ds) :
    (perform op).Leads pre ds post := by
  intro out hpre
  refine ⟨[], .perform op out, .nil _, fun hfit => ?_, fun h => ?_⟩
  · rw [perform_eq]
    split
    next a sink _ => exact .ok _
    next e sink h => exact (herror hpre h hfit).elim
  · obtain ⟨sink, hop, rfl⟩ := perform_ok_iff.1 h
    obtain ⟨hperm, hpost⟩ := hok hpre hop
    exact ⟨⟨rfl, [], .refl _, by simpa using hperm⟩, hpost⟩

/-! ## Made-up names -/

/-- A name for a label that is placed in what follows. -/
theorem fresh {scope suffix : String} {f : String → Writer β} (hs : IsPurpose suffix)
    (hf : ∀ name, (f name).Defines (.label name :: ds)) :
    (freshLabel scope suffix >>= f).Defines ds := by
  intro out hopen
  obtain ⟨made, hmakes, hnum, hfree, hdone⟩ :=
    hf (labelName scope suffix (out.generated + 1)) { out with generated := out.generated + 1 } hopen
  refine ⟨_, .bind_ok (.fresh rfl) rfl hmakes, .cons hs hnum,
    fun hfit => hfree (hfit.fresh hs), fun h => ?_⟩
  obtain ⟨⟨hcount, own, hown, hdefs⟩, hpost⟩ := hdone h
  refine ⟨⟨?_, labelName scope suffix (out.generated + 1) :: own, hown.cons_cons _,
    hdefs.trans ?_⟩, hpost⟩
  · simp only [hcount, List.length_append, List.length_singleton]
    omega
  · simp only [List.map_cons, List.cons_append, List.append_assoc]
    exact List.perm_middle.symm

/-- A name for which no label is placed. -/
theorem unplaced {scope suffix : String} {f : String → Writer β} (hs : IsPurpose suffix)
    (hf : ∀ name, (f name).Defines ds) : (freshLabel scope suffix >>= f).Defines ds := by
  intro out hopen
  obtain ⟨made, hmakes, hnum, hfree, hdone⟩ :=
    hf (labelName scope suffix (out.generated + 1)) { out with generated := out.generated + 1 } hopen
  refine ⟨_, .bind_ok (.fresh rfl) rfl hmakes, .cons hs hnum,
    fun hfit => hfree hfit.raise, fun h => ?_⟩
  obtain ⟨⟨hcount, own, hown, hdefs⟩, hpost⟩ := hdone h
  refine ⟨⟨?_, own, hown.cons _, hdefs⟩, hpost⟩
  simp only [hcount, List.length_append, List.length_singleton]
  omega

/-! ## Lists of steps -/

theorem forM {γ : Type} {f : γ → Writer Unit} {g : γ → List Definition} {xs : List γ}
    (h : ∀ x ∈ xs, (f x).Leads pre (g x) pre) : (xs.forM f).Leads pre (xs.flatMap g) pre := by
  induction xs with
  | nil => exact pure ()
  | cons x xs ih =>
    rw [List.flatMap_cons]
    exact (h x List.mem_cons_self).bind fun _ => ih fun y hy => h y (List.mem_cons_of_mem _ hy)

end Writer.Leads

/-! ## Operations on the sink -/

namespace Sink

variable {s : Sink}

/-- The operation succeeds in an open block, where it changes no definition. -/
def IsQuiet (op : SinkM Unit) : Prop :=
  ∀ s : Sink, s.current.isSome →
    ∃ s', op.result s = (.ok (), s') ∧ s'.current.isSome ∧ s'.definitions = s.definitions

theorem pointers_eq (s : Sink) : s.pointers =
    s.closed.reverse.flatMap (·.pointers) ++ (s.current.map (·.pointers)).getD [] := by
  cases h : s.current <;> simp [pointers, program, h, OpenBlock.close]

theorem isQuiet_modifyBlock {f : OpenBlock → OpenBlock} (hf : ∀ b, (f b).pointers = b.pointers) :
    IsQuiet (modifyBlock f) := by
  intro s hs
  obtain ⟨b, hb⟩ := Option.isSome_iff_exists.1 hs
  refine ⟨_, modifyBlock_result hb, rfl, ?_⟩
  simp [definitions, pointers_eq, hb, hf]

theorem isQuiet_instruction (i : Instruction) : IsQuiet (instruction i) :=
  isQuiet_modifyBlock fun _ => rfl

theorem isQuiet_forM {f : Instruction → SinkM Unit} (hf : ∀ i, IsQuiet (f i)) (code : Code) :
    IsQuiet (code.forM f) := by
  induction code with
  | nil => exact fun s hs => ⟨s, rfl, hs, rfl⟩
  | cons i code ih =>
    intro s hs
    obtain ⟨s₁, hfirst, hopen, hdefs⟩ := hf i s hs
    obtain ⟨s₂, hrest, hopen', hdefs'⟩ := ih s₁ hopen
    refine ⟨s₂, ?_, hopen', hdefs'.trans hdefs⟩
    change (f i >>= fun _ => code.forM f).result s = _
    rw [SinkM.result_bind, hfirst]
    exact hrest

end Sink

namespace Writer.Leads

theorem quiet {op : SinkM Unit} (hop : Sink.IsQuiet op) : (perform op).Defines [] := by
  refine .performs (fun {out a sink} hopen h => ?_) fun {out e sink} hopen h => ?_
  all_goals obtain ⟨s, hrun, hopen', hdefs⟩ := hop out.sink hopen
  · cases hrun.symm.trans h
    exact ⟨.of_eq hdefs, hopen'⟩
  · cases hrun.symm.trans h

theorem mark {env : Environment} {position : Position} : (env.mark position).Defines [] := by
  unfold Environment.mark
  split
  · exact quiet (Sink.isQuiet_modifyBlock fun _ => rfl)
  · exact .pure ()

theorem emit (code : Code) : (emit code).Defines [] :=
  quiet (Sink.isQuiet_forM Sink.isQuiet_instruction code)

theorem emitLowered {x : Lowered Code} (hx : x.SinkFree) : (emitLowered x).Defines [] :=
  .lift hx fun code => emit code

/-- One instruction is the latest one when it has been written. -/
theorem emit_endsIn (i : Instruction) :
    (StackCode.emit [i]).Leads Output.IsOpen [] (Output.EndsIn i) := by
  refine .performs (fun {out a sink} hopen h => ?_) fun {out e sink} hopen h => ?_
  all_goals
    obtain ⟨b, hb⟩ := Option.isSome_iff_exists.1 hopen
    have hrun : (([i] : Code).forM Sink.instruction).result out.sink =
        (.ok (), { out.sink with current := some { b with recent := .instruction i :: b.recent } }) := by
      change (Sink.instruction i >>= fun _ => Pure.pure ()).result out.sink = _
      rw [SinkM.result_bind, Sink.instruction, Sink.write, Sink.modifyBlock_result hb]
      rfl
  · cases hrun.symm.trans h
    refine ⟨.of_eq ?_, _, _, rfl, rfl⟩
    simp [Sink.definitions, Sink.pointers_eq, hb]
  · cases hrun.symm.trans h

theorem label (name : String) (isSubroutine : Bool) :
    (perform (Sink.label name isSubroutine)).Defines [.label name] := by
  have hresult : ∀ {out : Output}, out.IsOpen →
      (Sink.label name isSubroutine).result out.sink =
          (.error (.duplicateLabel name), out.sink) ∧ name ∈ out.sink.labels ∨
        ∃ s, (Sink.label name isSubroutine).result out.sink = (.ok (), s) ∧ s.current.isSome ∧
          s.definitions = .label name :: out.sink.definitions := by
    intro out hopen
    obtain ⟨b, hb⟩ := Option.isSome_iff_exists.1 hopen
    by_cases hname : name ∈ out.sink.labels
    · refine .inl ⟨?_, hname⟩
      rw [Sink.label_result, if_pos hname]
    · refine .inr ⟨{ out.sink with
        labels := name :: out.sink.labels
        current := some { b with recent := .label name isSubroutine :: b.recent } }, ?_, rfl, ?_⟩
      · simp only [Sink.label_result, if_neg hname, hb]
      · simp [Sink.definitions, Sink.pointers_eq, hb]
  refine .performs (fun {out a sink} hopen h => ?_) fun {out e sink} hopen h hfit => ?_
  all_goals obtain ⟨hrun, hname⟩ | ⟨s, hrun, hopen', hdefs⟩ := hresult hopen
  · cases hrun.symm.trans h
  · cases hrun.symm.trans h
    exact ⟨.of_eq hdefs, hopen'⟩
  · exact hfit.not_mem hname
  · cases hrun.symm.trans h

theorem place (name : String) : (placeLabel name).Defines [.label name] := label name false

theorem close (name : String) : (closeAt name).Defines [.label name] :=
  (place name).bind fun _ => emit _

theorem pointer (name : String) (address : UInt16) (t : DataType) :
    (perform (Sink.pointer name address t)).Defines [.pointer ⟨name, address, t⟩] := by
  refine .performs (fun {out a sink} hopen h => ?_) fun {out e sink} hopen h => ?_
  all_goals
    obtain ⟨b, hb⟩ := Option.isSome_iff_exists.1 hopen
    rw [Sink.pointer, Sink.modifyBlock_result hb] at h
  · cases h
    refine ⟨?_, rfl⟩
    simp only [Sink.definitions, Sink.pointers_eq, hb, Option.map_some, Option.getD_some]
    rw [← List.append_assoc, List.map_append, ← List.append_assoc]
    exact List.perm_append_comm
  · cases h

/-- The instruction that was written last can be taken back. -/
theorem removeLatest {i : Instruction} (hi : i.opcode ≠ .line) :
    (perform Sink.removeLatest).Leads (Output.EndsIn i) [] Output.IsOpen := by
  have hresult : ∀ {out : Output}, out.EndsIn i →
      ∃ s, Sink.removeLatest.result out.sink = (.ok i, s) ∧ s.current.isSome ∧
        s.definitions = out.sink.definitions := by
    rintro out ⟨b, rest, hb, hrest⟩
    have htake : Sink.takeLatest b.recent = some (i, rest) := by
      rw [hrest, Sink.takeLatest, if_neg (by simpa [Instruction.isLine] using hi)]
    refine ⟨{ out.sink with current := some { b with recent := rest } }, ?_, rfl, ?_⟩
    · simp only [Sink.removeLatest_result, hb, htake]
    · simp [Sink.definitions, Sink.pointers_eq, hb]
  refine .performs (fun {out a sink} hends h => ?_) fun {out e sink} hends h => ?_
  all_goals obtain ⟨s, hrun, hopen, hdefs⟩ := hresult hends
  · cases hrun.symm.trans h
    exact ⟨.of_eq hdefs, hopen⟩
  · cases hrun.symm.trans h

theorem openBlock (name : String) (address : Option UInt16) (options : List String) :
    (perform (Sink.openBlock name address options)).Leads (fun _ => True) [] Output.IsOpen := by
  refine .performs (fun {out a sink} _ h => ?_) fun {out e sink} _ h => ?_
  · cases h
    refine ⟨.of_eq ?_, rfl⟩
    cases hb : out.sink.current <;>
      simp [Sink.definitions, Sink.pointers_eq, hb, OpenBlock.close]
  · cases h

end Writer.Leads
end StackCode
