/-
What the code of each statement defines under names from the source. The labels of
loops and choices are made up on the way and placed behind.
-/
import StackCode.Proofs.Names.Defines

namespace StackCode

open Writer

variable {env : Environment} {ctx : Context}

/-- The labels of a loop, all of which are placed. -/
theorem Writer.Leads.frame {scope : String} {f : LoopFrame → Writer Unit} {ds : List Definition}
    (hf : ∀ frame : LoopFrame,
      (f frame).Defines (.label frame.start :: ds ++ [.label frame.next, .label frame.leave])) :
    (freshFrame scope >>= f).Defines ds := by
  simp only [freshFrame, bind_assoc, pure_bind]
  refine .fresh (by decide) fun start => .fresh (by decide) fun next => .fresh (by decide) fun leave =>
    (hf ⟨start, next, leave⟩).perm ?_
  simp only [List.perm_iff_count, List.count_append, List.count_cons, List.count_nil]
  omega

/-! ## Choices -/

theorem jump_defines {op : Opcode} {target : JumpTarget} {position : Position} :
    (env.jump op target position).Defines [] :=
  Leads.mark.after fun _ => .lift jumpInstruction_sinkFree fun _ => .emit _

theorem alternatives_defines {away : Opcode} {elseLabel endLabel : String} {elseIdle : Bool}
    {thenWriter elseWriter : Writer Unit} {ds ds' : List Definition} (ht : thenWriter.Defines ds)
    (he : elseWriter.Defines ds') :
    (alternatives away elseLabel endLabel elseIdle thenWriter elseWriter).Defines
      (if elseIdle then .label endLabel :: ds
        else .label elseLabel :: .label endLabel :: (ds ++ ds')) := by
  unfold alternatives
  split
  · refine ((Leads.emit _).after fun _ => ht.bind fun _ => Leads.close endLabel).perm ?_
    exact List.perm_append_singleton _ _
  · refine ((Leads.emit _).after fun _ => ht.bind fun _ => (Leads.emit _).after fun _ =>
      (Leads.place elseLabel).bind fun _ => he.bind fun _ => Leads.close endLabel).perm ?_
    simp only [List.perm_iff_count, List.count_append, List.count_cons, List.count_nil]
    omega

theorem conditional_defines {condition : Expr} {thenScope elseScope : Scope} {position : Position}
    {thenWriter elseWriter : Writer Unit} (ht : thenWriter.Defines thenScope.definitions)
    (he : elseWriter.Defines elseScope.definitions) :
    (conditional env ctx condition thenScope elseScope position thenWriter elseWriter).Defines
      (thenScope.definitions ++ elseScope.definitions) := by
  refine Leads.mark.after fun _ => .lift Expr.needType_faultless.sinkFree fun type =>
    (Leads.emitLowered condition.code_faultless.sinkFree).after fun _ => ?_
  cases hjump : thenScope.onlyJump? with
  | some jump =>
    rw [Scope.definitions_of_onlyJump hjump]
    exact .lift orInvalid_faultless.sinkFree fun _ => jump_defines.after fun _ => he
  | none =>
    refine .lift orInvalid_faultless.sinkFree fun away => .fresh (by decide) fun endLabel => ?_
    cases hidle : elseScope.isIdle with
    | true =>
      rw [Scope.definitions_of_isIdle hidle, List.append_nil]
      exact (Leads.pure endLabel).after fun _ => alternatives_defines ht he
    | false => exact .fresh (by decide) fun _ => alternatives_defines ht he

/-- A choice on a status flag makes up a label for its second part also when that is idle. -/
theorem flagBranch_defines {test : FlagTest} {thenScope elseScope : Scope} {position : Position}
    {thenWriter elseWriter : Writer Unit} (ht : thenWriter.Defines thenScope.definitions)
    (he : elseWriter.Defines elseScope.definitions) :
    (flagBranch env ctx test thenScope elseScope position thenWriter elseWriter).Defines
      (if (branchJumps? thenScope elseScope).isSome then []
        else thenScope.definitions ++ elseScope.definitions) := by
  unfold flagBranch
  split
  next hidle =>
    rw [Bool.and_eq_true] at hidle
    rw [Scope.definitions_of_isIdle hidle.1, Scope.definitions_of_isIdle hidle.2, List.append_nil,
      ite_self]
    exact .pure ()
  next =>
    refine Leads.mark.after fun _ => ?_
    cases branchJumps? thenScope elseScope with
    | some jumps =>
      obtain ⟨⟨target, p⟩, _ | ⟨target', p'⟩⟩ := jumps
      · exact jump_defines.after fun _ => .pure ()
      · exact jump_defines.after fun _ => jump_defines
    | none =>
      cases hidle : elseScope.isIdle with
      | true =>
        rw [Scope.definitions_of_isIdle hidle] at *
        rw [List.append_nil]
        exact .unplaced (by decide) fun _ => .fresh (by decide) fun _ => alternatives_defines ht he
      | false =>
        refine .fresh (by decide) fun _ => .fresh (by decide) fun _ =>
          (alternatives_defines ht he).perm ?_
        exact List.Perm.swap _ _ _

/-! ## Many parts -/

/-- The choices as they are handed to the lowering define what the choices of the tree do. -/
def ChoicesDefine (choices : List ChoicePart) (defined : List (List Definition)) : Prop :=
  List.Forall₂ (fun c ds => c.part.Defines ds) choices defined

/-- The parts that are left for later, with what they define. -/
def PartsDefine (parts : List (String × Writer Unit)) (defined : List (List Definition)) : Prop :=
  List.Forall₂ (fun p ds => p.2.Defines ds) parts defined

/-- What follows the tests of all choices places their labels and writes their parts. -/
theorem choiceHeads_defines {α : Type} {t : IntType} {choices : List ChoicePart}
    {defined : List (List Definition)} (hc : ChoicesDefine choices defined) :
    ∀ {ds : List Definition} {rest : List (String × Writer Unit) → Writer α},
      (∀ parts left, PartsDefine parts left →
        (rest parts).Defines (parts.map (.label ·.1) ++ left.flatten ++ ds)) →
      (choiceHeads env ctx t choices >>= rest).Defines (defined.flatten ++ ds) := by
  induction hc with
  | nil =>
    intro ds rest hrest
    simpa [choiceHeads] using hrest [] [] .nil
  | @cons choice own choices defined hpart _ ih =>
    intro ds rest hrest
    obtain ⟨values, part⟩ := choice
    cases values with
    | none =>
      rw [choiceHeads, bind_assoc, List.flatten_cons, List.append_assoc]
      exact hpart.bind fun _ => ih hrest
    | some values =>
      rw [choiceHeads, bind_assoc]
      refine .lift choiceValues_faultless.sinkFree fun vs => ?_
      cases vs with
      | nil => exact .throw_bind (by simp)
      | cons v vs =>
        simp only [bind_assoc, pure_bind]
        refine .fresh (.choice _) fun label => (Leads.emit _).after fun _ => ?_
        have hlater : ∀ parts left, PartsDefine parts left → (rest ((label, part) :: parts)).Defines
            (parts.map (.label ·.1) ++ left.flatten ++ .label label :: (own ++ ds)) := by
          intro parts left hleft
          refine (hrest _ _ (.cons hpart hleft)).perm ?_
          simp only [List.map_cons, List.flatten_cons, List.perm_iff_count, List.count_append,
            List.count_cons]
          omega
        refine (ih hlater).perm ?_
        simp only [List.flatten_cons, List.perm_iff_count, List.count_append, List.count_cons]
        omega

/-- Each part ends in a jump to the end. If there is none, such a jump stands there already. -/
theorem choiceBodies_leads {endLabel : String} {parts : List (String × Writer Unit)}
    {left : List (List Definition)} (hparts : PartsDefine parts left) :
    Leads (Output.EndsIn (Opcode.jump.named endLabel))
      (parts.forM fun (label, part) => do
        placeLabel label
        part
        emit [Opcode.jump.named endLabel])
      (parts.map (.label ·.1) ++ left.flatten) (Output.EndsIn (Opcode.jump.named endLabel)) := by
  induction hparts with
  | nil => exact .pure ()
  | @cons p own parts left hpart _ ih =>
    obtain ⟨label, part⟩ := p
    have hplaced := (Leads.place label).strengthen
      fun _ => Output.EndsIn.isOpen (i := Opcode.jump.named endLabel)
    refine ((hplaced.bind fun _ => hpart.bind fun _ => Leads.emit_endsIn _).bind fun _ => ih).perm ?_
    simp only [List.map_cons, List.flatten_cons, List.perm_iff_count, List.count_append,
      List.count_cons, List.count_nil]
    omega

theorem choose_defines {condition : Expr} {choices : List ChoicePart} {position : Position}
    {defined : List (List Definition)} (hc : ChoicesDefine choices defined) :
    (choose env ctx condition choices position).Defines defined.flatten := by
  refine Leads.mark.after fun _ => .lift Expr.needType_faultless.sinkFree fun type =>
    .lift orInvalid_faultless.sinkFree fun t =>
    (Leads.emitLowered condition.code_faultless.sinkFree).after fun _ => ?_
  split
  next hempty =>
    cases hc with
    | nil => exact .emit _
    | cons => cases hempty
  next =>
    refine .fresh (by decide) fun endLabel => ?_
    refine .perm (choiceHeads_defines hc fun parts left hparts => ?_)
      (List.perm_append_singleton (Definition.label endLabel) _)
    refine (Leads.emit_endsIn _).after fun _ => (choiceBodies_leads hparts).bind fun _ =>
      (Leads.removeLatest (by simp [Opcode.named])).after fun _ => ?_
    exact (Leads.place endLabel).bind fun _ => .emit _

/-! ## Loops -/

theorem constantLoop_defines {r : ConstantRange} {counter : Counter} {t : DataType} {scope : String}
    {body : LoopBody} {ds : List Definition} (hb : ∀ labels, (body labels).Defines ds) :
    (constantLoop r counter t scope body).Defines ds :=
  .lift r.check_faultless.sinkFree fun _ => .frame fun _ => (Leads.emit _).after fun _ =>
    (Leads.place _).bind fun _ => (hb _).bind fun _ => (Leads.place _).bind fun _ =>
    (Leads.emitLowered r.stepCode_faultless.sinkFree).after fun _ => (Leads.emit _).after fun _ =>
    Leads.close _

theorem variableLoop_defines {first last step : Expr} {counter : Counter} {t : DataType} {scope : String}
    {position : Position} {body : LoopBody} {ds : List Definition}
    (hb : ∀ labels, (body labels).Defines ds) :
    (variableLoop env first last step counter t scope position body).Defines ds :=
  .lift variableStep_faultless.sinkFree fun _ => .lift orInvalid_faultless.sinkFree fun _ =>
    (Leads.emitLowered assignCode_faultless.sinkFree).after fun _ => .frame fun _ =>
    (Leads.place _).bind fun _ => Leads.mark.after fun _ =>
    .lift Expr.needType_faultless.sinkFree fun _ =>
    (Leads.emitLowered (Expr.code_faultless _).sinkFree).after fun _ =>
    .lift orInvalid_faultless.sinkFree fun _ =>
    jump_defines.after fun _ => (hb _).bind fun _ => (Leads.place _).bind fun _ =>
    (Leads.emitLowered (Place.step_faultless (Place.inner_faultless _)).sinkFree).after fun _ =>
    (Leads.emitLowered (Expr.code_faultless _).sinkFree).after fun _ => (Leads.emit _).after fun _ =>
    Leads.close _

theorem declare_defines {name : String} {t : DataType} {length : Option UInt16} :
    (perform (Sink.declare name t .plain length)).Defines [] :=
  .quiet (Sink.isQuiet_modifyBlock fun _ => rfl)

/-- The made-up name of the index is the name of a variable. -/
theorem elementLoop_defines {symbols : SymbolTable} {array : String} {counter : Counter} {t : DataType}
    {scope : String} {body : LoopBody} {ds : List Definition} (hb : ∀ labels, (body labels).Defines ds) :
    (elementLoop symbols array counter t scope body).Defines ds := by
  unfold elementLoop
  split
  · exact .throw_bind (by simp)
  · exact .lift ElementRange.find_faultless.sinkFree fun r => .unplaced (by decide) fun index =>
      declare_defines.after fun _ => .frame fun _ => (Leads.emit _).after fun _ =>
      (Leads.place _).bind fun _ => (Leads.emitLowered r.fetchCode_faultless.sinkFree).after fun _ =>
      (hb _).bind fun _ => (Leads.place _).bind fun _ => (Leads.emit _).after fun _ =>
      Leads.close _

theorem forLoop_defines {register : Option Register} {variableName : Option String} {iterable : Expr}
    {scope : String} {position : Position} {body : LoopBody} {ds : List Definition}
    (hb : ∀ labels, (body labels).Defines ds) :
    (forLoop env register variableName iterable scope position body).Defines ds := by
  refine Leads.mark.after fun _ => .lift Counter.find_faultless.sinkFree fun (counter, t) => ?_
  cases iterable with
  | range first last step =>
    cases h : ConstantRange.ofExprs? env.symbols first last step with
    | some r => simpa only [h] using constantLoop_defines hb
    | none => simpa only [h] using variableLoop_defines hb
  | var name => exact elementLoop_defines hb
  | _ => exact .throw (by simp)

theorem whileLoop_defines {condition : Expr} {scope : String} {position : Position} {body : LoopBody}
    {ds : List Definition} (hb : ∀ labels, (body labels).Defines ds) :
    (whileLoop env condition scope position body).Defines ds := by
  refine .fresh (by decide) fun start => .fresh (by decide) fun leave =>
    .fresh (by decide) fun next => ?_
  have hperm : (Definition.label start :: (ds ++ [.label next, .label leave])).Perm
      (.label next :: .label leave :: .label start :: ds) := by
    simp only [List.perm_iff_count, List.count_append, List.count_cons, List.count_nil]
    omega
  refine .perm ?_ hperm
  exact Leads.mark.after fun _ => .lift Expr.needType_faultless.sinkFree fun _ =>
    .lift orInvalid_faultless.sinkFree fun _ => (Leads.emit _).after fun _ =>
    (Leads.place start).bind fun _ => (hb _).bind fun _ => (Leads.place next).bind fun _ =>
    (Leads.emitLowered condition.code_faultless.sinkFree).after fun _ => (Leads.emit _).after fun _ =>
    Leads.close leave

theorem repeatLoop_defines {condition : Expr} {scope : String} {position : Position} {body : LoopBody}
    {ds : List Definition} (hb : ∀ labels, (body labels).Defines ds) :
    (repeatLoop env condition scope position body).Defines ds :=
  .frame fun _ => Leads.mark.after fun _ => .lift Expr.needType_faultless.sinkFree fun _ =>
    .lift orInvalid_faultless.sinkFree fun _ => (Leads.place _).bind fun _ => (hb _).bind fun _ =>
    (Leads.place _).bind fun _ => (Leads.emitLowered condition.code_faultless.sinkFree).after fun _ =>
    (Leads.emit _).after fun _ => Leads.close _

/-! ## Other statements -/

theorem assign_defines {p : Place} {value : Expr} {position : Position} :
    (env.assign p value position).Defines [] := by
  refine Leads.mark.after fun _ => ?_
  cases value with
  | structLiteral values => exact .emitLowered structAssignCode_faultless.sinkFree
  | _ => exact .emitLowered assignCode_faultless.sinkFree

theorem exit_defines {kind : LoopExit} {position : Position} :
    (env.exit ctx kind position).Defines [] := by
  unfold Environment.exit
  split
  · exact .throw (by simp)
  · exact Leads.mark.after fun _ => .emit _

theorem gives_defines {values : List (Expr × DataType)} :
    (values.forM fun (value, t) =>
      emitLowered ((value.operand env.symbols).pushAs env.symbols t)).Defines [] := by
  induction values with
  | nil => exact .pure ()
  | cons value values ih =>
    have hvalue : (value.1.operand env.symbols).Faultless := Expr.operand_faultless _
    exact (Leads.emitLowered (Operand.pushAs_faultless hvalue).sinkFree).after fun _ => ih

theorem ret_defines {values : List Expr} {position : Position} :
    (env.ret ctx values position).Defines [] := by
  unfold Environment.ret
  split
  · exact .throw_bind (by simp)
  · exact gives_defines.after fun _ => Leads.mark.after fun _ => .emit _

theorem assembly_defines {text : String} {label : Option String} {position : Position} :
    (env.assembly text label position).Defines [] :=
  Leads.mark.after fun _ => .emit _

theorem directive_defines {name : String} {args : List DirectiveArg} {position : Position} :
    (env.directive name args position).Defines [] := by
  unfold Environment.directive
  split
  · refine .lift fileArgument_faultless.sinkFree fun file =>
      .lift includeScope_faultless.sinkFree fun scope => ?_
    split
    · exact .throw (by simp)
    · exact assembly_defines
  · exact .lift fileArgument_faultless.sinkFree fun _ => .lift wordArgument_faultless.sinkFree fun _ =>
      .lift wordArgument_faultless.sinkFree fun _ => Leads.mark.after fun _ => .emit _
  · exact Leads.mark.after fun _ => .emit _
  · exact .pure ()

theorem subroutineDefinition_defines {s : Signature} {body : List Statement} {position : Position}
    {writer : Writer Unit} (hb : writer.Defines (Statement.allDefinitions body)) :
    (subroutineDefinition env s body position writer).Defines
      (s.definition :: Statement.allDefinitions body) := by
  unfold subroutineDefinition Signature.definition
  cases s.address? with
  | some address =>
    by_cases hidle : body.all (·.isNop)
    · simp only [hidle, Bool.not_true, Bool.false_eq_true, if_false]
      rw [Statement.allDefinitions_of_nops hidle]
      exact .pointer _ _ _
    · simp only [hidle, Bool.not_false, if_true]
      exact .throw_bind (by simp)
  | none =>
    refine (Leads.label s.name true).bind fun _ => (Leads.emit _).after fun _ =>
      Leads.mark.after fun _ => ?_
    cases hsole : soleAssembly? body with
    | some sole =>
      rw [Statement.allDefinitions_of_soleAssembly hsole]
      exact assembly_defines.after fun _ => .emit _
    | none =>
      rw [← List.append_nil (Statement.allDefinitions body)]
      exact hb.bind fun _ => .emit _

/-! ## Statements -/

/-- What the choices of a tree define, each by itself. -/
def Choice.eachDefinitions (cs : List Choice) : List (List Definition) :=
  cs.map (·.body.definitions)

theorem Choice.flatten_eachDefinitions (cs : List Choice) :
    (eachDefinitions cs).flatten = definitions cs := by
  induction cs with
  | nil => rfl
  | cons c cs ih =>
    obtain ⟨values, body⟩ := c
    exact congrArg (body.definitions ++ ·) ih

mutual

/-- **Lowering a statement defines what the statement says**, and makes no wrong use of the sink. -/
theorem Statement.lower_defines (env : Environment) : ∀ (ctx : Context) (s : Statement),
    (s.lower env ctx).Defines s.definitions
  | _, .varDecl _ | _, .nop => .pure ()
  | _, .label _ _ => Leads.mark.after fun _ => .place _
  | _, .assign _ _ _ => assign_defines
  | _, .step p _ _ => Leads.mark.after fun _ =>
    .emitLowered (Place.step_faultless p.inner_faultless).sinkFree
  | _, .jump _ _ => jump_defines
  | _, .call _ _ _ => Leads.mark.after fun _ => .emitLowered callStatementCode_faultless.sinkFree
  | ctx, .cond _ thenPart elsePart _ =>
    conditional_defines (thenPart.lower_defines env ctx) (elsePart.lower_defines env ctx)
  | ctx, .branch _ thenPart elsePart _ =>
    flagBranch_defines (thenPart.lower_defines env ctx) (elsePart.lower_defines env ctx)
  | _, .exit _ _ => exit_defines
  | ctx, .forEach _ _ _ body _ => by
    unfold Statement.lower Statement.definitions
    split
    next hidle =>
      rw [Scope.definitions_of_isIdle hidle]
      exact .pure ()
    next => exact forLoop_defines fun labels => body.lower_defines env (ctx.inLoop labels)
  | ctx, .whileLoop _ body _ => by
    rw [Statement.lower, Statement.definitions]
    exact whileLoop_defines fun labels => body.lower_defines env (ctx.inLoop labels)
  | ctx, .repeatLoop body _ _ => by
    rw [Statement.lower, Statement.definitions]
    exact repeatLoop_defines fun labels => body.lower_defines env (ctx.inLoop labels)
  | ctx, .scope s => s.lower_defines env ctx
  | _, .ret _ _ => ret_defines
  | _, .returnFromIrq _ => Leads.mark.after fun _ => .emit _
  | _, .directive _ _ _ => by
    rw [Statement.lower, Statement.definitions]
    · exact directive_defines
    all_goals nofun
  | _, .subroutine s body _ =>
    subroutineDefinition_defines
      (Statement.lowerAll_defines env { scope := s.name, returnTypes := s.returnTypes } body)
  | _, .assembly _ _ => assembly_defines
  | ctx, .choose _ choices _ => by
    rw [Statement.lower, Statement.definitions, ← Choice.flatten_eachDefinitions]
    exact choose_defines (Choice.lower_defines env ctx choices)

theorem Scope.lower_defines (env : Environment) : ∀ (ctx : Context) (s : Scope),
    (s.lower env ctx).Defines s.definitions
  | ctx, ⟨name, statements, position⟩ =>
    Statement.lowerAll_defines env (ctx.inside ⟨name, statements, position⟩) statements

theorem Choice.lower_defines (env : Environment) (ctx : Context) : ∀ choices : List Choice,
    ChoicesDefine (Choice.parts env ctx choices) (Choice.eachDefinitions choices)
  | [] => .nil
  | ⟨_, body⟩ :: rest => .cons (body.lower_defines env ctx) (Choice.lower_defines env ctx rest)

theorem Statement.lowerAll_defines (env : Environment) : ∀ (ctx : Context) (ss : List Statement),
    (Statement.lowerAll env ctx ss).Defines (Statement.allDefinitions ss)
  | _, [] => .pure ()
  | ctx, s :: rest =>
    (s.lower_defines env ctx).bind fun _ => Statement.lowerAll_defines env ctx rest

end
end StackCode
