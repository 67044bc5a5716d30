/-
Statements are lowered in the same way whatever the numbers of made-up names are. Their
own labels are among those of the block.
-/
import StackCode.Proofs.Order.Uniform

namespace StackCode

/-! ## Contexts -/

structure LabelsForm where
  leave : NameForm
  next : NameForm

def LabelsForm.numbered (n : Nat) (l : LabelsForm) : LoopLabels where
  leave := l.leave.numbered n
  next := l.next.numbered n

/-- What holds at a statement, apart from the numbers in the labels of the loop around it. -/
structure ContextForm where
  scope : String
  loop : Option LabelsForm := none
  returnTypes : List DataType := []

def ContextForm.numbered (n : Nat) (ctx : ContextForm) : Context where
  scope := ctx.scope
  loop := ctx.loop.map (·.numbered n)
  returnTypes := ctx.returnTypes

theorem ContextForm.scope_numbered (n : Nat) (ctx : ContextForm) :
    (ctx.numbered n).scope = ctx.scope := rfl

structure FrameForm where
  start : NameForm
  next : NameForm
  leave : NameForm

def FrameForm.numbered (n : Nat) (f : FrameForm) : LoopFrame where
  start := f.start.numbered n
  next := f.next.numbered n
  leave := f.leave.numbered n

def FrameForm.labels (f : FrameForm) : LabelsForm where
  leave := f.leave
  next := f.next

/-- The labels of a loop can be placed. -/
structure FrameForm.Valid (own : OwnNames) (f : FrameForm) : Prop where
  start : f.start.Valid own
  next : f.next.Valid own
  leave : f.leave.Valid own

variable {env : Environment} {ctx : ContextForm} {own : OwnNames}

theorem Uniform.frame {scope : String} {f : Nat → LoopFrame → Writer Unit}
    (hf : ∀ frame : FrameForm, frame.Valid own → Uniform own fun n => f n (frame.numbered n)) :
    Uniform own fun n => freshFrame scope >>= f n := by
  simp only [freshFrame, bind_assoc, pure_bind]
  exact .fresh (by decide) fun start hstart => .fresh (by decide) fun next hnext =>
    fresh (by decide) fun leave hleave => hf ⟨start, next, leave⟩ ⟨hstart, hnext, hleave⟩

/-! ## Choices -/

theorem jump_uniform (op : Opcode) (target : JumpTarget) (position : Position) :
    Uniform own fun _ => env.jump op target position :=
  (Uniform.mark env position).bind fun _ => .lift fun _ _ => .emit_const _

theorem jump_made_uniform (op : Opcode) (x : NameForm) (position : Position) :
    Uniform own fun n => env.jump op (.generated (x.numbered n)) position :=
  (Uniform.mark env position).bind fun _ => .emit (hasForm_named op x)

theorem alternatives_uniform {away : Opcode} {elseLabel endLabel : NameForm} {elseIdle : Bool}
    {thenWriter elseWriter : Nat → Writer Unit} (helse : elseLabel.Valid own)
    (hend : endLabel.Valid own) (ht : Uniform own thenWriter) (he : Uniform own elseWriter) :
    Uniform own fun n => alternatives away (elseLabel.numbered n) (endLabel.numbered n) elseIdle
      (thenWriter n) (elseWriter n) := by
  unfold alternatives
  split
  · exact (Uniform.emit (hasForm_named _ _)).bind fun _ => ht.bind fun _ => .close hend
  · exact (Uniform.emit (hasForm_named _ _)).bind fun _ => ht.bind fun _ =>
      (Uniform.emit (hasForm_named _ _)).bind fun _ => (Uniform.place helse).bind fun _ =>
      he.bind fun _ => .close hend

theorem conditional_uniform {condition : Expr} {thenScope elseScope : Scope} {position : Position}
    {thenWriter elseWriter : Nat → Writer Unit} (ht : Uniform own thenWriter)
    (he : Uniform own elseWriter) :
    Uniform own fun n => conditional env (ctx.numbered n) condition thenScope elseScope position
      (thenWriter n) (elseWriter n) := by
  refine (Uniform.mark env position).bind fun _ => .lift fun type _ =>
    (Uniform.emitLowered _).bind fun _ => ?_
  cases thenScope.onlyJump? with
  | some jump => exact .lift fun op _ => (jump_uniform _ _ _).bind fun _ => he
  | none =>
    refine .lift fun away _ => .fresh (by decide) fun endLabel hend => ?_
    cases elseScope.isIdle with
    | true =>
      simp only [if_true, pure_bind]
      exact alternatives_uniform hend hend ht he
    | false => exact .fresh (by decide) fun elseLabel helse => alternatives_uniform helse hend ht he

/-- Parts that are not written need not be uniform. -/
theorem flagBranch_uniform {test : FlagTest} {thenScope elseScope : Scope} {position : Position}
    {thenWriter elseWriter : Nat → Writer Unit}
    (ht : branchJumps? thenScope elseScope = none → Uniform own thenWriter)
    (he : branchJumps? thenScope elseScope = none → Uniform own elseWriter) :
    Uniform own fun n => flagBranch env (ctx.numbered n) test thenScope elseScope position
      (thenWriter n) (elseWriter n) := by
  unfold flagBranch
  split
  · exact .pure
  · refine (Uniform.mark env position).bind fun _ => ?_
    cases hjumps : branchJumps? thenScope elseScope with
    | some jumps =>
      obtain ⟨⟨target, p⟩, _ | ⟨target', p'⟩⟩ := jumps
      · exact (jump_uniform _ _ _).bind fun _ => .pure
      · exact (jump_uniform _ _ _).bind fun _ => jump_uniform _ _ _
    | none =>
      exact .fresh (by decide) fun elseLabel helse => .fresh (by decide) fun endLabel hend =>
        alternatives_uniform helse hend (ht hjumps) (he hjumps)

/-! ## Many parts -/

/-- A choice, with the steps of its part for each count of made-up names. -/
structure ChoiceForm where
  values : Option (List Expr)
  part : Nat → Writer Unit

def ChoiceForm.numbered (n : Nat) (c : ChoiceForm) : ChoicePart := ⟨c.values, c.part n⟩

/-- A part that is left for later, with its label. -/
structure PartForm where
  label : NameForm
  part : Nat → Writer Unit

def PartForm.numbered (n : Nat) (p : PartForm) : String × Writer Unit := (p.label.numbered n, p.part n)

structure PartForm.IsUniform (own : OwnNames) (p : PartForm) : Prop where
  label : p.label.Valid own
  part : Uniform own p.part

theorem choiceTests_hasForm {t : IntType} {label : NameForm} {values : List Value} :
    HasForm fun n => choiceTests t (label.numbered n) values := by
  induction values with
  | nil => exact hasForm_const []
  | cons v values ih =>
    exact ((hasForm_const [_, _]).append (hasForm_named (.branch .zero) label)).append ih

theorem choiceHeads_uniform {t : IntType} {choices : List ChoiceForm}
    (hc : ∀ c ∈ choices, Uniform own c.part) : ∀ {rest : Nat → List (String × Writer Unit) → Writer Unit},
      (∀ parts : List PartForm, (∀ p ∈ parts, p.IsUniform own) →
        Uniform own fun n => rest n (parts.map (·.numbered n))) →
      Uniform own fun n =>
        choiceHeads env (ctx.numbered n) t (choices.map (·.numbered n)) >>= rest n := by
  induction choices with
  | nil =>
    intro rest hrest
    exact hrest [] nofun
  | cons c choices ih =>
    intro rest hrest
    obtain ⟨hpart, hchoices⟩ := List.forall_mem_cons.1 hc
    obtain ⟨values, part⟩ := c
    simp only [List.map_cons, ChoiceForm.numbered]
    cases values with
    | none =>
      simp only [choiceHeads, bind_assoc]
      exact hpart.bind fun _ => ih hchoices hrest
    | some values =>
      simp only [choiceHeads, bind_assoc]
      refine .lift fun vs _ => ?_
      cases vs with
      | nil => exact .throw_bind
      | cons v vs =>
        simp only [bind_assoc, pure_bind]
        exact .fresh (.choice _) fun label hlabel => (Uniform.emit choiceTests_hasForm).bind fun _ =>
          ih hchoices fun parts hparts =>
            hrest (⟨label, part⟩ :: parts) (List.forall_mem_cons.2 ⟨⟨hlabel, hpart⟩, hparts⟩)

theorem choiceBodies_uniform {endLabel : NameForm} {parts : List PartForm}
    (hparts : ∀ p ∈ parts, p.IsUniform own) :
    Uniform own (fun n => (parts.map (·.numbered n)).forM fun (label, part) => do
      placeLabel label
      part
      emit [Opcode.jump.named (endLabel.numbered n)]) := by
  induction parts with
  | nil => exact .pure
  | cons p parts ih =>
    obtain ⟨hp, hrest⟩ := List.forall_mem_cons.1 hparts
    have hfirst := (Uniform.place hp.label).bind fun _ => hp.part.bind fun _ =>
      .emit (hasForm_named .jump endLabel)
    exact hfirst.bind fun _ => ih hrest

theorem choose_uniform {condition : Expr} {choices : List ChoiceForm} {position : Position}
    (hc : ∀ c ∈ choices, Uniform own c.part) :
    Uniform own fun n => choose env (ctx.numbered n) condition (choices.map (·.numbered n)) position := by
  refine (Uniform.mark env position).bind fun _ => .lift fun type _ => .lift fun t _ =>
    (Uniform.emitLowered _).bind fun _ => ?_
  simp only [List.isEmpty_map]
  split
  · exact .emit_const _
  · refine .fresh (by decide) fun endLabel hend => choiceHeads_uniform hc fun parts hparts => ?_
    exact (Uniform.emit (hasForm_named _ _)).bind fun _ =>
      (choiceBodies_uniform hparts).bind fun _ => .removeLatest <|
      (Uniform.place hend).bind fun _ => .emit_const _

/-! ## Loops -/

variable {body : Nat → LoopBody}

theorem testCode_hasForm {r : ConstantRange} {t : IntType} {counter : String} {start : NameForm} :
    HasForm fun n => r.testCode t counter (start.numbered n) := by
  unfold ConstantRange.testCode
  split
  · exact hasForm_named _ _
  · exact (hasForm_const [_, _]).append (hasForm_named _ _)

theorem constantLoop_uniform {r : ConstantRange} {counter : Counter} {t : DataType} {scope : String}
    (hb : ∀ labels : LabelsForm, Uniform own fun n => body n (labels.numbered n)) :
    Uniform own fun n => constantLoop r counter t scope (body n) :=
  .lift fun _ _ => .frame fun frame hframe => (Uniform.emit_const _).bind fun _ =>
    (Uniform.place hframe.start).bind fun _ => (hb frame.labels).bind fun _ =>
    (Uniform.place hframe.next).bind fun _ => (Uniform.emitLowered _).bind fun _ =>
    (Uniform.emit testCode_hasForm).bind fun _ => .close hframe.leave

theorem variableLoop_uniform {first last step : Expr} {counter : Counter} {t : DataType} {scope : String}
    {position : Position} (hb : ∀ labels : LabelsForm, Uniform own fun n => body n (labels.numbered n)) :
    Uniform own fun n => variableLoop env first last step counter t scope position (body n) :=
  .lift fun _ _ => .lift fun goOn _ => (Uniform.emitLowered _).bind fun _ =>
    .frame fun frame hframe => (Uniform.place hframe.start).bind fun _ =>
    (Uniform.mark env position).bind fun _ => .lift fun _ _ =>
    (Uniform.emitLowered _).bind fun _ => .lift fun leave _ =>
    (jump_made_uniform leave frame.leave position).bind fun _ => (hb frame.labels).bind fun _ =>
    (Uniform.place hframe.next).bind fun _ => (Uniform.emitLowered _).bind fun _ =>
    (Uniform.emitLowered _).bind fun _ => (Uniform.emit (hasForm_named goOn frame.start)).bind fun _ =>
    .close hframe.leave

theorem fetch_uniform {symbols : SymbolTable} {r : ElementRange} {index : NameForm} {counter : Counter}
    {t : DataType} :
    Uniform own fun n => emitLowered (r.fetchCode symbols (index.numbered n) counter t) := by
  have hcode : ∀ n, emitLowered (r.fetchCode symbols (index.numbered n) counter t) = (do
      let read ← liftM (Opcode.readIndexedFor r.type)
      let widening ← liftM ((DataType.num r.element).widening t)
      let store ← liftM (counter.place.write symbols (counter.place.inner symbols))
      emit ([(Opcode.pushVar (.int r.indexType.size)).named (index.numbered n), read.named r.name] ++
        (widening.map Opcode.plain).toList ++ store)) := by
    intro n
    simp only [emitLowered, ElementRange.fetchCode, liftM_bind, bind_assoc, liftM_pure, pure_bind]
  simp only [hcode]
  exact .lift fun read _ => .lift fun widening _ => .lift fun store _ => .emit <|
    (((hasForm_named _ _).append (hasForm_const [_])).append (hasForm_const _)).append (hasForm_const _)

theorem elementLoop_uniform {symbols : SymbolTable} {array : String} {counter : Counter} {t : DataType}
    {scope : String} (hb : ∀ labels : LabelsForm, Uniform own fun n => body n (labels.numbered n)) :
    Uniform own fun n => elementLoop symbols array counter t scope (body n) := by
  have hinit (r : ElementRange) (index : NameForm) : HasForm fun n => r.initCode (index.numbered n) :=
    (hasForm_const _).append (hasForm_named _ _)
  have hstep (r : ElementRange) (index start : NameForm) :
      HasForm fun n => r.stepCode (index.numbered n) (start.numbered n) :=
    (hasForm_named _ _).append <| (hasForm_named _ _).append <| (hasForm_const [_]).append <|
      hasForm_named _ _
  unfold elementLoop
  split
  · exact .throw_bind
  · exact .lift fun r _ => .fresh (by decide) fun index _ => (Uniform.declare _ _ _).bind fun _ =>
      .frame fun frame hframe => (Uniform.emit (hinit r index)).bind fun _ =>
      (Uniform.place hframe.start).bind fun _ => fetch_uniform.bind fun _ =>
      (hb frame.labels).bind fun _ => (Uniform.place hframe.next).bind fun _ =>
      (Uniform.emit (hstep r index frame.start)).bind fun _ => .close hframe.leave

theorem forLoop_uniform {register : Option Register} {variableName : Option String} {iterable : Expr}
    {scope : String} {position : Position}
    (hb : ∀ labels : LabelsForm, Uniform own fun n => body n (labels.numbered n)) :
    Uniform own fun n => forLoop env register variableName iterable scope position (body n) := by
  refine (Uniform.mark env position).bind fun _ => .lift fun (counter, t) _ => ?_
  cases iterable with
  | range first last step =>
    cases h : ConstantRange.ofExprs? env.symbols first last step with
    | some r => simpa only [h] using constantLoop_uniform hb
    | none => simpa only [h] using variableLoop_uniform hb
  | var name => exact elementLoop_uniform hb
  | _ => exact .throw

theorem whileLoop_uniform {condition : Expr} {scope : String} {position : Position}
    (hb : ∀ labels : LabelsForm, Uniform own fun n => body n (labels.numbered n)) :
    Uniform own fun n => whileLoop env condition scope position (body n) :=
  .fresh (by decide) fun start hstart => .fresh (by decide) fun leave hleave =>
    .fresh (by decide) fun next hnext => (Uniform.mark env position).bind fun _ =>
    .lift fun type _ => .lift fun goOn _ => (Uniform.emit (hasForm_named .jump next)).bind fun _ =>
    (Uniform.place hstart).bind fun _ => (hb ⟨leave, next⟩).bind fun _ =>
    (Uniform.place hnext).bind fun _ => (Uniform.emitLowered _).bind fun _ =>
    (Uniform.emit (hasForm_named goOn start)).bind fun _ => .close hleave

theorem repeatLoop_uniform {condition : Expr} {scope : String} {position : Position}
    (hb : ∀ labels : LabelsForm, Uniform own fun n => body n (labels.numbered n)) :
    Uniform own fun n => repeatLoop env condition scope position (body n) :=
  .frame fun frame hframe => (Uniform.mark env position).bind fun _ => .lift fun _ _ =>
    .lift fun goOn _ => (Uniform.place hframe.start).bind fun _ => (hb frame.labels).bind fun _ =>
    (Uniform.place hframe.next).bind fun _ => (Uniform.emitLowered _).bind fun _ =>
    (Uniform.emit (hasForm_named goOn frame.start)).bind fun _ => .close hframe.leave

/-! ## Other statements -/

theorem assign_uniform {p : Place} {value : Expr} {position : Position} :
    Uniform own fun _ => env.assign p value position := by
  refine (Uniform.mark env position).bind fun _ => ?_
  cases value <;> exact .emitLowered _

theorem exit_uniform {kind : LoopExit} {position : Position} :
    Uniform own fun n => env.exit (ctx.numbered n) kind position := by
  obtain ⟨scope, _ | labels, returnTypes⟩ := ctx
  · exact .throw
  · refine (Uniform.mark env position).bind fun _ => ?_
    cases kind with
    | leave => exact .emit (hasForm_named .jump labels.leave)
    | next => exact .emit (hasForm_named .jump labels.next)

theorem ret_uniform {values : List Expr} {position : Position} :
    Uniform own fun n => env.ret (ctx.numbered n) values position := by
  by_cases hlength : values.length = ctx.returnTypes.length
  · simp only [Environment.ret, ContextForm.numbered, hlength, ne_eq, not_true_eq_false, if_false]
    exact (Uniform.forM fun _ _ => .emitLowered _).bind fun _ =>
      (Uniform.mark env position).bind fun _ => .emit_const _
  · simp only [Environment.ret, ContextForm.numbered, hlength, ne_eq, not_false_eq_true, if_true]
    exact .throw_bind

theorem assembly_uniform {text : String} {label : Option String} {position : Position} :
    Uniform own fun _ => env.assembly text label position :=
  (Uniform.mark env position).bind fun _ => .emit_const _

theorem directive_uniform {name : String} {args : List DirectiveArg} {position : Position} :
    Uniform own fun _ => env.directive name args position := by
  unfold Environment.directive
  split
  · refine .lift fun file _ => .lift fun scope _ => ?_
    split
    · exact .throw
    · exact assembly_uniform
  · exact .lift fun _ _ => .lift fun _ _ => .lift fun _ _ =>
      (Uniform.mark env position).bind fun _ => .emit_const _
  · exact (Uniform.mark env position).bind fun _ => .emit_const _
  · exact .pure

theorem subroutineDefinition_uniform {s : Signature} {body : List Statement} {position : Position}
    {writer : Nat → Writer Unit} (hs : labelNames [s.definition] ⊆ own.names)
    (hb : Uniform own writer) :
    Uniform own fun n => subroutineDefinition env s body position (writer n) := by
  unfold subroutineDefinition
  unfold Signature.definition at hs
  cases haddress : s.address? with
  | some address =>
    simp only
    split
    · exact .throw_bind
    · exact .pointer _ _ _
  | none =>
    have hname : (NameForm.own s.name).Valid own := hs (by simp [haddress, labelNames, Definition.label?])
    refine (Uniform.label hname true).bind fun _ => (Uniform.emit_const _).bind fun _ =>
      (Uniform.mark env position).bind fun _ => ?_
    cases soleAssembly? body with
    | some sole => exact assembly_uniform.bind fun _ => .emit_const _
    | none => exact hb.bind fun _ => .emit_const _

/-! ## Statements -/

mutual

/-- **Lowering a statement does the same whatever the numbers are.** -/
theorem Statement.lower_uniform (env : Environment) : ∀ (ctx : ContextForm) (s : Statement),
    labelNames s.definitions ⊆ own.names → Uniform own fun n => s.lower env (ctx.numbered n)
  | _, .varDecl _, _ | _, .nop, _ => .pure
  | _, .label name position, h =>
    (Uniform.mark env position).bind fun _ =>
      .place (x := .own name) (h List.mem_cons_self)
  | _, .assign _ _ _, _ => assign_uniform
  | _, .step _ _ position, _ | _, .call _ _ position, _ =>
    (Uniform.mark env position).bind fun _ => .emitLowered _
  | _, .jump _ _, _ => jump_uniform _ _ _
  | ctx, .cond _ thenPart elsePart _, h => by
    rw [Statement.definitions, labelNames_append, List.append_subset] at h
    exact conditional_uniform (thenPart.lower_uniform env ctx h.1) (elsePart.lower_uniform env ctx h.2)
  | ctx, .branch _ thenPart elsePart _, h => by
    have hparts (hjumps : branchJumps? thenPart elsePart = none) :
        labelNames thenPart.definitions ⊆ own.names ∧ labelNames elsePart.definitions ⊆ own.names := by
      simpa [Statement.definitions, hjumps, labelNames_append, List.append_subset] using h
    exact flagBranch_uniform (fun hjumps => thenPart.lower_uniform env ctx (hparts hjumps).1)
      fun hjumps => elsePart.lower_uniform env ctx (hparts hjumps).2
  | _, .exit _ _, _ => exit_uniform
  | ctx, .forEach _ _ _ body _, h => by
    simp only [Statement.lower, ContextForm.scope_numbered]
    split
    · exact .pure
    · exact forLoop_uniform fun labels =>
        body.lower_uniform env { ctx with loop := some labels } h
  | ctx, .whileLoop _ body _, h => by
    simp only [Statement.lower]
    exact whileLoop_uniform fun labels => body.lower_uniform env { ctx with loop := some labels } h
  | ctx, .repeatLoop body _ _, h => by
    simp only [Statement.lower]
    exact repeatLoop_uniform fun labels => body.lower_uniform env { ctx with loop := some labels } h
  | ctx, .scope s, h => s.lower_uniform env ctx h
  | _, .ret _ _, _ => ret_uniform
  | _, .returnFromIrq position, _ => (Uniform.mark env position).bind fun _ => .emit_const _
  | _, .directive _ _ _, _ => by
    simp only [Statement.lower]
    exact directive_uniform
  | _, .subroutine s body _, h => by
    rw [Statement.definitions, ← List.singleton_append, labelNames_append, List.append_subset] at h
    exact subroutineDefinition_uniform h.1
      (Statement.lowerAll_uniform env { scope := s.name, returnTypes := s.returnTypes } body h.2)
  | _, .assembly _ _, _ => assembly_uniform
  | ctx, .choose _ choices _, h => by
    rw [Statement.definitions] at h
    obtain ⟨forms, hforms, huniform⟩ := Choice.lower_uniform env ctx choices h
    simp only [Statement.lower, hforms]
    exact choose_uniform huniform

theorem Scope.lower_uniform (env : Environment) : ∀ (ctx : ContextForm) (s : Scope),
    labelNames s.definitions ⊆ own.names → Uniform own fun n => s.lower env (ctx.numbered n)
  | ctx, ⟨name, statements, position⟩, h =>
    Statement.lowerAll_uniform env
      { ctx with scope := Scope.nameIn ⟨name, statements, position⟩ ctx.scope } statements h

theorem Choice.lower_uniform (env : Environment) (ctx : ContextForm) : ∀ choices : List Choice,
    labelNames (Choice.definitions choices) ⊆ own.names → ∃ forms : List ChoiceForm,
      (∀ n, Choice.parts env (ctx.numbered n) choices = forms.map (·.numbered n)) ∧
      ∀ c ∈ forms, Uniform own c.part
  | [], _ => ⟨[], fun _ => rfl, nofun⟩
  | ⟨values, body⟩ :: rest, h => by
    rw [Choice.definitions, labelNames_append, List.append_subset] at h
    obtain ⟨forms, hforms, huniform⟩ := Choice.lower_uniform env ctx rest h.2
    refine ⟨⟨values, fun n => body.lower env (ctx.numbered n)⟩ :: forms, fun n => ?_,
      List.forall_mem_cons.2 ⟨body.lower_uniform env ctx h.1, huniform⟩⟩
    rw [Choice.parts, hforms]
    rfl

theorem Statement.lowerAll_uniform (env : Environment) : ∀ (ctx : ContextForm) (ss : List Statement),
    labelNames (Statement.allDefinitions ss) ⊆ own.names →
      Uniform own fun n => Statement.lowerAll env (ctx.numbered n) ss
  | _, [], _ => .pure
  | ctx, s :: rest, h => by
    rw [Statement.allDefinitions, labelNames_append, List.append_subset] at h
    exact (s.lower_uniform env ctx h.1).bind fun _ => Statement.lowerAll_uniform env ctx rest h.2

end

end StackCode
