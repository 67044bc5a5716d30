/-
The stack in loops. All of their labels stand where the stack is what it was before the
loop: the code of a loop itself leaves nothing behind, and the body is asked to do the
same.
-/
import StackCode.Proofs.Stack.Constructs

namespace StackCode

variable {env : Environment} {ctx : Context} {symbols : SymbolTable} {results : List Slot}
  {known : LabelStacks} {stack : List Slot} {c : Prop} {scope : String}

/-- What a `break` and a `continue` jump to stands where the stack is this one. -/
def LoopLabels.StandAt (labels : LoopLabels) (known : LabelStacks) (stack : List Slot) : Prop :=
  ∀ kind, (labels.target kind, stack) ∈ known ∧ IsGenerated (labels.target kind)

theorem LoopLabels.StandAt.mono {labels : LoopLabels} {known' : LabelStacks}
    (h : labels.StandAt known stack) (hsub : known ⊆ known') : labels.StandAt known' stack :=
  fun kind => ⟨hsub (h kind).1, (h kind).2⟩

/-- With the labels of its loop around it, the body is level just if the condition holds. -/
def BodyLevels (symbols : SymbolTable) (results stack : List Slot) (body : LoopLabels → Part)
    (c : Prop) : Prop :=
  ∀ (known : LabelStacks) (labels : LoopLabels), labels.StandAt known stack →
    (body labels).Levels symbols results known [] stack stack c

/-- The labels of a loop, each with the stack around the loop. -/
def LoopFrame.labelStacks (f : LoopFrame) (stack : List Slot) : LabelStacks :=
  [(f.start, stack), (f.next, stack), (f.leave, stack)]

theorem frame_levels {f : LoopFrame → Part}
    (h : ∀ frame : LoopFrame, frame.labels.StandAt (frame.labelStacks stack ++ known) stack →
      ∃ placed, (f frame).Levels symbols results (frame.labelStacks stack ++ known) placed stack
        stack c ∧
        frame.labelStacks stack ⊆ placed) :
    (Part.frame scope f).Levels symbols results known [] stack stack c :=
  .fresh fun start _ => .fresh fun next hnext => .fresh fun leave hleave => by
    obtain ⟨placed, hlevels, hplaced⟩ := h ⟨start, next, leave⟩ fun kind => by
      cases kind
      · exact ⟨by simp [LoopFrame.labelStacks, LoopFrame.labels, LoopLabels.target], hleave⟩
      · exact ⟨by simp [LoopFrame.labelStacks, LoopFrame.labels, LoopLabels.target], hnext⟩
    exact hlevels.close _ hplaced

theorem LoopFrame.mem_start (f : LoopFrame) : (f.start, stack) ∈ f.labelStacks stack ++ known := by
  simp [labelStacks]

theorem LoopFrame.mem_leave (f : LoopFrame) : (f.leave, stack) ∈ f.labelStacks stack ++ known := by
  simp [labelStacks]

/-! ## Conditions -/

theorem whileLoop_levels {condition : Expr} {body : LoopLabels → Part} (hn : env.symbols.WellNamed)
    (hw : condition.WellCalled env.symbols) (hb : BodyLevels env.symbols results stack body c) :
    (Part.whileLoop env condition scope body).Levels env.symbols results known [] stack stack c :=
  .fresh fun start _ => .fresh fun leave hleave => .fresh fun next hnext => .given fun t htype =>
    .given fun goOn hgo => by
      have hstand : LoopLabels.StandAt { leave, next }
          (LoopFrame.labelStacks ⟨start, next, leave⟩ stack ++ known) stack := fun kind => by
        cases kind
        · exact ⟨by simp [LoopFrame.labelStacks, LoopLabels.target], hleave⟩
        · exact ⟨by simp [LoopFrame.labelStacks, LoopLabels.target], hnext⟩
      refine .close (LoopFrame.labelStacks ⟨start, next, leave⟩ stack) (.cons (.op .jump (.inl ?_)) <|
        .cons .place <| .snoc (hb _ _ hstand) <| .cons .place <|
        .cons (.evaluate hn hw (Expr.needType_ok_iff.1 htype)) <|
        .cons (.op (.jumpNonzeroFor hgo) (.inl ?_)) .closing) ?_ <;> simp [LoopFrame.labelStacks]

theorem repeatLoop_levels {condition : Expr} {body : LoopLabels → Part} (hn : env.symbols.WellNamed)
    (hw : condition.WellCalled env.symbols) (hb : BodyLevels env.symbols results stack body c) :
    (Part.repeatLoop env condition scope body).Levels env.symbols results known [] stack stack c :=
  frame_levels fun f hstand => ⟨_, .given fun t htype => .given fun goOn hgo =>
    .cons .place <| .snoc (hb _ _ hstand) <| .cons .place <|
      .cons (.evaluate hn hw (Expr.needType_ok_iff.1 htype)) <|
      .cons (.op (.jumpZeroFor hgo) (.inl f.mem_start)) .closing,
    by simp [LoopFrame.labelStacks]⟩

/-! ## Ranges -/

theorem ConstantRange.initCode_runs {r : ConstantRange} {t : IntType} {counter : String} :
    Runs symbols (r.initCode t counter) [] [] :=
  (Runs.push _).append (.of_pop rfl)

theorem ConstantRange.stepCode_runs {r : ConstantRange} {t : IntType} {counter : String} {code : Code}
    (h : r.stepCode t counter = .ok code) : Runs symbols code [] [] := by
  unfold stepCode at h
  split at h
  · cases h
    refine .of_stills fun i hi => ?_
    rw [List.eq_of_mem_replicate hi]
    exact Opcode.stepVar_effect ..
  · split at h <;> cases h
    next amount hamount =>
      have hpush : Runs symbols amount.push [] [.sized (.int t.size)] := by
        have h : Runs symbols amount.push [] _ := .push amount
        rwa [Value.type_of_ofInt hamount] at h
      have hop : Runs symbols [(if 0 < r.step then Opcode.add (.int t) else .sub (.int t)).plain]
          [.sized (.int t.size), .sized (.int t.size)] [.sized (.int t.size)] := by
        split <;> exact .of_merge rfl
      exact ((Runs.of_push rfl).append (hpush.onto [_])).append (hop.append (.of_pop rfl))

/-- A loop goes back to its start on a test of its counter. -/
theorem ConstantRange.testCode_levels {r : ConstantRange} {t : IntType} {counter start : String}
    (hstart : (start, stack) ∈ known) :
    (Part.ops (r.testCode t counter start)).Levels symbols results known [] stack stack True := by
  unfold testCode
  split
  · exact .op .branch (.inl hstart)
  · have hcompare : Runs symbols _ [] [] :=
      (Runs.of_push (i := (Opcode.pushVar (.int t.size)).named counter) rfl).append
        (.of_pop (i := (Opcode.compare t).given (.wrapped t (r.last + r.step))) rfl)
    exact .ops_op ((Straight.of_effect rfl).append (.of_effect rfl)) hcompare .branch (.inl hstart)

theorem constantLoop_levels {r : ConstantRange} {counter : Counter} {t : DataType}
    {body : LoopLabels → Part} (hb : BodyLevels symbols results stack body c) :
    (Part.constantLoop r counter t scope body).Levels symbols results known [] stack stack c :=
  .given fun t _ => frame_levels fun f hstand => ⟨_,
    .cons (.ops ConstantRange.initCode_straight ConstantRange.initCode_runs stack) <| .cons .place <|
      .snoc (hb _ _ hstand) <| .cons .place <|
      .cons (.given fun code hc =>
        .ops (ConstantRange.stepCode_straight code hc) (ConstantRange.stepCode_runs hc) stack) <|
      .cons (ConstantRange.testCode_levels f.mem_start) .closing,
    by simp [LoopFrame.labelStacks]⟩

/-- The counter of a loop is a place of its type. -/
theorem Counter.find_ok {register : Option Register} {variableName : Option String}
    {counter : Counter} {t : DataType}
    (h : Counter.find symbols register variableName = .ok (counter, t)) :
    counter.place.read.type? symbols = some t ∧ counter.place.read.WellCalled symbols := by
  refine ⟨Counter.type?_read_of_find h, fun _ _ hm => ?_⟩
  obtain ⟨r, -, rfl, -⟩ | ⟨name, info, -, -, rfl, -⟩ := Counter.find_cases h <;>
    simp [place, Place.read, Expr.withInner] at hm

/-- A loop whose bounds are evaluated when it runs. It is left on a condition, and its counter is
looked at before it starts again. -/
theorem variableLoop_levels {first last step : Expr} {counter : Counter} {t : DataType}
    {body : LoopLabels → Part} (hn : env.symbols.WellNamed)
    (ht : counter.place.read.type? env.symbols = some t)
    (hp : counter.place.read.WellCalled env.symbols) (hfirst : first.WellCalled env.symbols)
    (hlast : last.WellCalled env.symbols) (hb : BodyLevels env.symbols results stack body c) :
    (Part.variableLoop env first last step counter t scope body).Levels env.symbols results known []
      stack stack c :=
  .given fun op _ => .given fun goOn hgo => by
    have hpast : (Expr.binary counter.place.read (.comparison op.pastLast) last).WellCalled
        env.symbols := fun target args hm => by
      simp only [Expr.withInner, List.mem_cons, reduceCtorEq, List.mem_append, false_or] at hm
      exact hm.elim (hp target args) (hlast target args)
    refine .cons (.act_still hn (a := .assign counter.place first) ⟨hp, hfirst⟩ rfl) <|
      frame_levels fun f hstand => ⟨_, .cons .place <| .given fun u hu =>
        .cons (.evaluate hn hpast (Expr.needType_ok_iff.1 hu)) <| .given fun leave hleave =>
        .cons (jump_levels (.jumpNonzeroFor hleave) fun l hl => ?_) <| .snoc (hb _ _ hstand) <|
        .cons .place <| .cons (.act_still hn (a := .step counter.place op) hp rfl) <|
        .cons (.evaluate hn hp ht) <| .cons (.op (.jumpNonzeroFor hgo) (.inl f.mem_start)) .closing,
      by simp [LoopFrame.labelStacks]⟩
    obtain hl | hl := hl <;> cases hl
    exact .inl f.mem_leave

/-! ## Elements -/

theorem ElementRange.initCode_runs {r : ElementRange} {index : String} :
    Runs symbols (r.initCode index) [] [] :=
  (Runs.push _).append (.of_pop rfl)

theorem ElementRange.fetchCode_runs {r : ElementRange} {index : String} {counter : Counter}
    {t : DataType} {code : Code} (hn : symbols.WellNamed) (hr : r.type.element? = some r.element)
    (ht : counter.place.read.type? symbols = some t) (hp : counter.place.read.WellCalled symbols)
    (h : r.fetchCode symbols index counter t = .ok code) : Runs symbols code [] [] := by
  simp only [fetchCode, Lowered.bind_ok_iff, Lowered.pure_ok_iff] at h
  obtain ⟨read, hread, op, hop, store, hstore, rfl⟩ := h
  obtain ⟨e, he, heff⟩ := Opcode.readIndexedFor_effect hread
  obtain rfl : r.element = e := Option.some.inj (hr.symm.trans he)
  have hfetch : Runs symbols _ [] [.sized r.element.size] :=
    (Runs.of_push (i := (Opcode.pushVar (.int r.indexType.size)).named index) rfl).append
      (.of_any (i := read.named r.name) heff)
  have hplace : counter.place.type? symbols = some t := by
    rw [← ht]
    exact Place.type?_of_ofExpr? (Place.ofExpr?_read _)
  exact (hfetch.append (.widening hop)).append (Place.write_runs hplace (Place.inner_runs hn hp) hstore)

theorem ElementRange.stepCode_levels {r : ElementRange} {index start : String}
    (hstart : (start, stack) ∈ known) :
    (Part.ops (r.stepCode index start)).Levels symbols results known [] stack stack True := by
  have hstep : Runs symbols _ [] [] :=
    (Runs.of_still (i := (Opcode.stepVar .up (.int r.indexType)).named index) rfl).append <|
      (Runs.of_push (i := (Opcode.pushVar (.int r.indexType.size)).named index) rfl).append
        (.of_pop (i := (Opcode.compare r.indexType).given (.wrapped r.indexType r.length.toNat)) rfl)
  exact .ops_op ((Straight.of_effect rfl).append ((Straight.of_effect rfl).append (.of_effect rfl)))
    hstep .branch (.inl hstart)

theorem elementLoop_levels {array : String} {counter : Counter} {t : DataType}
    {body : LoopLabels → Part} (hn : symbols.WellNamed)
    (ht : counter.place.read.type? symbols = some t) (hp : counter.place.read.WellCalled symbols)
    (hb : BodyLevels symbols results stack body c) :
    (Part.elementLoop symbols array counter t scope body).Levels symbols results known [] stack stack c :=
  .given fun r hr => .fresh fun index _ => frame_levels fun f hstand => ⟨_,
    .cons (.ops ElementRange.initCode_straight ElementRange.initCode_runs stack) <| .cons .place <|
      .cons (.given fun code hc => .ops (ElementRange.fetchCode_straight code hc)
        (ElementRange.fetchCode_runs hn (ElementRange.find_ok hr).1 ht hp hc) stack) <|
      .snoc (hb _ _ hstand) <| .cons .place <|
      .cons (ElementRange.stepCode_levels f.mem_start) .closing,
    by simp [LoopFrame.labelStacks]⟩

theorem forLoop_levels {register : Option Register} {variableName : Option String} {iterable : Expr}
    {body : LoopLabels → Part} (hn : env.symbols.WellNamed) (hw : iterable.WellCalled env.symbols)
    (hb : BodyLevels env.symbols results stack body c) :
    (Part.forLoop env register variableName iterable scope body).Levels env.symbols results known []
      stack stack c :=
  .given fun found hfind => by
    obtain ⟨counter, t⟩ := found
    obtain ⟨ht, hp⟩ := Counter.find_ok hfind
    cases iterable with
    | range first last step =>
      have hfirst : first.WellCalled env.symbols :=
        hw.of_subset fun x hx => by simp [Expr.withInner, hx]
      have hlast : last.WellCalled env.symbols :=
        hw.of_subset fun x hx => by simp [Expr.withInner, hx]
      cases h : ConstantRange.ofExprs? env.symbols first last step with
      | some r => simpa only [h] using constantLoop_levels hb
      | none => simpa only [h] using variableLoop_levels hn ht hp hfirst hlast hb
    | var name => exact elementLoop_levels hn ht hp hb
    | _ => exact ⟨fun h => h.elim⟩

end StackCode
