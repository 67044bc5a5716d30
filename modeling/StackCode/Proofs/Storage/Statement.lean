/-
What the code of each statement accesses. Of the names without a home there are only the
variables that live elsewhere and are stepped nevertheless: by a step of their own, or
as the counter of a loop over a range.
-/
import StackCode.Proofs.Storage.Touches

namespace StackCode

open Writer

/-! ## Strays -/

mutual

/-- The variables that a statement accesses as if they lived in a block. A choice on a status flag that
is written as its jumps accesses nothing. -/
def Statement.strays (symbols : SymbolTable) : Statement → List String
  | .step p _ _ => p.strays symbols
  | .cond _ thenPart elsePart _ => thenPart.strays symbols ++ elsePart.strays symbols
  | .branch _ thenPart elsePart _ =>
    if (branchJumps? thenPart elsePart).isSome then []
    else thenPart.strays symbols ++ elsePart.strays symbols
  | .forEach register variableName iterable body _ =>
    if body.isIdle then []
    else rangeStrays symbols register variableName iterable ++ body.strays symbols
  | .whileLoop _ body _ | .repeatLoop body _ _ => body.strays symbols
  | .scope s => s.strays symbols
  | .subroutine _ body _ => Statement.allStrays symbols body
  | .choose _ choices _ => Choice.strays symbols choices
  | _ => []

def Scope.strays (symbols : SymbolTable) : Scope → List String
  | ⟨_, statements, _⟩ => Statement.allStrays symbols statements

def Choice.strays (symbols : SymbolTable) : List Choice → List String
  | [] => []
  | ⟨_, body⟩ :: rest => body.strays symbols ++ Choice.strays symbols rest

def Statement.allStrays (symbols : SymbolTable) : List Statement → List String
  | [] => []
  | s :: rest => s.strays symbols ++ Statement.allStrays symbols rest

end

variable {symbols : SymbolTable}

theorem Statement.allStrays_eq_nil {ss : List Statement} (h : ∀ s ∈ ss, s.strays symbols = []) :
    allStrays symbols ss = [] := by
  induction ss with
  | nil => rfl
  | cons s ss ih =>
    rw [allStrays, h s List.mem_cons_self, List.nil_append]
    exact ih fun x hx => h x (List.mem_cons_of_mem _ hx)

theorem Statement.allStrays_of_nops {ss : List Statement} (h : ss.all (·.isNop)) :
    allStrays symbols ss = [] :=
  allStrays_eq_nil fun _ hs => by rw [eq_nop_of_all h hs]; rfl

theorem Scope.strays_of_isIdle : ∀ {s : Scope}, s.isIdle → s.strays symbols = []
  | ⟨_, _, _⟩, h => Statement.allStrays_of_nops h

theorem Scope.strays_of_onlyJump {s : Scope} {jump : JumpTarget × Position}
    (h : s.onlyJump? = some jump) : s.strays symbols = [] := by
  have hs : s.statements = [.jump jump.1 jump.2] := onlyJump?_ok h
  obtain ⟨name, statements, position⟩ := s
  subst hs
  rfl

/-- A subroutine that is all assembly steps nothing. -/
theorem Statement.allStrays_of_soleAssembly {body : List Statement} {sole : String × Position}
    (h : soleAssembly? body = some sole) : allStrays symbols body = [] := by
  refine allStrays_eq_nil fun s hs => ?_
  obtain ⟨d, rfl⟩ | rfl | ⟨text, position, rfl⟩ := soleAssembly?_ok h hs <;> rfl

/-! ## Choices -/

variable {env : Environment} {ctx : Context} {names names' : List String}

theorem Opcode.isAccess_of_isJump {op : Opcode} (h : op.isJump) : op.isAccess = false := by
  cases op <;> first | rfl | cases h

theorem accessesOf_jump {op : Opcode} {label : String} (h : op.isJump) :
    accessesOf [op.named label] = [] := by
  simp [accessesOf, Opcode.isAccess_of_isJump h]

theorem jump_accesses {op : Opcode} {target : JumpTarget} {position : Position} (hop : op.isJump) :
    (env.jump op target position).Accesses symbols [] := by
  refine Touches.mark.after fun _ => .lift fun i hi => .emit_still ?_
  have haccess : i.accessed? = none := by
    cases target <;> simp only [Environment.jumpInstruction] at hi
    case address => split at hi <;> cases hi; exact op.accessed?_addressed _
    case named =>
      split at hi <;> cases hi
      all_goals rw [Opcode.accessed?_named, Opcode.isAccess_of_isJump hop]; rfl
    case generated =>
      cases hi
      rw [Opcode.accessed?_named, Opcode.isAccess_of_isJump hop]
      rfl
  simp [accessesOf, haccess]

theorem alternatives_accesses {away : Opcode} {elseLabel endLabel : String} {elseIdle : Bool}
    {thenWriter elseWriter : Writer Unit} (haway : away.isJump) (ht : thenWriter.Accesses symbols names)
    (he : elseWriter.Accesses symbols names') (hidle : elseIdle → names' = []) :
    (alternatives away elseLabel endLabel elseIdle thenWriter elseWriter).Accesses symbols
      (names ++ names') := by
  unfold alternatives
  split
  next h =>
    rw [hidle h, List.append_nil]
    exact (Touches.emit_still (accessesOf_jump haway)).after fun _ => ht.before fun _ => .close
  next =>
    exact (Touches.emit_still (accessesOf_jump haway)).after fun _ => ht.bind fun _ =>
      (Touches.emit_still rfl).after fun _ => Touches.place.after fun _ => he.before fun _ => .close

theorem conditional_accesses {condition : Expr} {thenScope elseScope : Scope} {position : Position}
    {thenWriter elseWriter : Writer Unit}
    (ht : thenWriter.Accesses env.symbols (thenScope.strays env.symbols))
    (he : elseWriter.Accesses env.symbols (elseScope.strays env.symbols)) :
    (conditional env ctx condition thenScope elseScope position thenWriter elseWriter).Accesses
      env.symbols (thenScope.strays env.symbols ++ elseScope.strays env.symbols) := by
  have hcode := condition.code_all env.symbols.admits_houses
  refine Touches.mark.after fun _ => .lift fun type _ => (Touches.emit_housed hcode).after fun _ => ?_
  cases hjump : thenScope.onlyJump? with
  | some jump =>
    rw [Scope.strays_of_onlyJump hjump]
    exact .lift fun op hop =>
      (jump_accesses (Opcode.jumpNonzeroFor_isJump hop)).after fun _ => he
  | none =>
    refine .lift fun away haway => .fresh fun endLabel => ?_
    have haway := Opcode.jumpZeroFor_isJump haway
    cases hidle : elseScope.isIdle with
    | true =>
      exact (Touches.pure endLabel).after fun _ =>
        alternatives_accesses haway ht he fun _ => Scope.strays_of_isIdle hidle
    | false => exact .fresh fun _ => alternatives_accesses haway ht he nofun

theorem flagBranch_accesses {test : FlagTest} {thenScope elseScope : Scope} {position : Position}
    {thenWriter elseWriter : Writer Unit}
    (ht : thenWriter.Accesses env.symbols (thenScope.strays env.symbols))
    (he : elseWriter.Accesses env.symbols (elseScope.strays env.symbols)) :
    (flagBranch env ctx test thenScope elseScope position thenWriter elseWriter).Accesses env.symbols
      (if (branchJumps? thenScope elseScope).isSome then []
        else thenScope.strays env.symbols ++ elseScope.strays env.symbols) := by
  unfold flagBranch
  by_cases hidle : (thenScope.isIdle && elseScope.isIdle) = true
  · rw [if_pos hidle]
    rw [Bool.and_eq_true] at hidle
    rw [Scope.strays_of_isIdle hidle.1, Scope.strays_of_isIdle hidle.2, List.append_nil, ite_self]
    exact .pure ()
  · rw [if_neg hidle]
    refine Touches.mark.after fun _ => ?_
    cases branchJumps? thenScope elseScope with
    | some jumps =>
      obtain ⟨⟨target, p⟩, _ | ⟨target', p'⟩⟩ := jumps
      · exact (jump_accesses rfl).after fun _ => .pure ()
      · exact (jump_accesses rfl).after fun _ => jump_accesses rfl
    | none =>
      exact .fresh fun _ => .fresh fun _ =>
        alternatives_accesses rfl ht he fun hidle => Scope.strays_of_isIdle hidle

/-! ## Many parts -/

/-- What the choices that are handed to the lowering access. -/
def ChoicesAccess (symbols : SymbolTable) (choices : List ChoicePart) (names : List (List String)) :
    Prop :=
  List.Forall₂ (fun c own => c.part.Accesses symbols own) choices names

/-- What the parts that are left for later access. -/
def PartsAccess (symbols : SymbolTable) (parts : List (String × Writer Unit))
    (names : List (List String)) : Prop :=
  List.Forall₂ (fun p own => p.2.Accesses symbols own) parts names

theorem accessesOf_choiceTests {t : IntType} {label : String} {values : List Value} :
    accessesOf (choiceTests t label values) = [] := by
  simp [accessesOf, choiceTests, List.filterMap_flatMap, Opcode.isAccess]

/-- Some parts are written among the tests, and the other ones behind them. -/
theorem choiceHeads_accesses {α : Type} {t : IntType} {choices : List ChoicePart}
    {touched : List (List String)} (hc : ChoicesAccess symbols choices touched) :
    ∀ {names : List String} {rest : List (String × Writer Unit) → Writer α},
      (∀ parts left, PartsAccess symbols parts left → (rest parts).Accesses symbols
        (left.flatten ++ names)) →
      (choiceHeads env ctx t choices >>= rest).Accesses symbols (touched.flatten ++ names) := by
  induction hc with
  | nil =>
    intro names rest hrest
    simpa [choiceHeads] using hrest [] [] .nil
  | @cons choice own choices touched hpart _ ih =>
    intro names rest hrest
    obtain ⟨values, part⟩ := choice
    cases values with
    | none =>
      rw [choiceHeads, bind_assoc, List.flatten_cons, List.append_assoc]
      exact hpart.bind fun _ => ih hrest
    | some values =>
      rw [choiceHeads, bind_assoc]
      refine .lift fun vs _ => ?_
      cases vs with
      | nil => exact .throw_bind
      | cons v vs =>
        simp only [bind_assoc, pure_bind]
        refine .fresh fun label => (Touches.emit_still accessesOf_choiceTests).after fun _ => ?_
        have hlater : ∀ parts left, PartsAccess symbols parts left →
            (rest ((label, part) :: parts)).Accesses symbols (left.flatten ++ (own ++ names)) := by
          intro parts left hleft
          refine (hrest _ _ (.cons hpart hleft)).perm ?_
          rw [List.flatten_cons, List.append_assoc]
          exact List.perm_append_comm_assoc own left.flatten names
        refine (ih hlater).perm ?_
        rw [List.flatten_cons, List.append_assoc]
        exact List.perm_append_comm_assoc touched.flatten own names

/-- Each part ends in a jump to the end, and so does what stands before the parts. The last such jump
is taken back. -/
theorem choiceBodies_accesses {α : Type} {endLabel : String} {parts : List (String × Writer Unit)}
    {left : List (List String)} {w : Writer α} (hw : w.Accesses symbols names)
    (hparts : PartsAccess symbols parts left) :
    (emit [Opcode.jump.named endLabel] >>= fun _ =>
      (parts.forM fun (label, part) => do
        placeLabel label
        part
        emit [Opcode.jump.named endLabel]) >>= fun _ =>
      perform Sink.removeLatest >>= fun _ => w).Accesses symbols (left.flatten ++ names) := by
  induction hparts with
  | nil =>
    refine ⟨fun {out a out'} h => ?_⟩
    obtain ⟨_, written, hemit, hrest⟩ := Writer.bind_ok_iff.1 h
    obtain ⟨_, _, hnone, hrest⟩ := Writer.bind_ok_iff.1 hrest
    obtain ⟨-, rfl⟩ := Writer.pure_ok_iff.1 hnone
    obtain ⟨_, taken, hremove, hrest⟩ := Writer.bind_ok_iff.1 hrest
    rw [(emit_removeLatest (by simp [Opcode.named]) hemit hremove).2] at hrest
    exact hw.touched hrest
  | @cons p own parts left hpart _ ih =>
    obtain ⟨label, part⟩ := p
    simp only [List.forM_eq_forM, List.forM_cons, bind_assoc] at ih ⊢
    rw [List.flatten_cons, List.append_assoc]
    exact (Touches.emit_still rfl).after fun _ => Touches.place.after fun _ => hpart.bind fun _ => ih

theorem choose_accesses {condition : Expr} {choices : List ChoicePart} {position : Position}
    {touched : List (List String)} (hc : ChoicesAccess env.symbols choices touched) :
    (choose env ctx condition choices position).Accesses env.symbols touched.flatten := by
  have hcode := condition.code_all env.symbols.admits_houses
  refine Touches.mark.after fun _ => .lift fun type _ => .lift fun t _ =>
    (Touches.emit_housed hcode).after fun _ => ?_
  split
  next hempty =>
    cases hc with
    | nil => exact .emit_still rfl
    | cons => cases hempty
  next =>
    refine .fresh fun endLabel => ?_
    rw [← List.append_nil touched.flatten]
    refine choiceHeads_accesses hc fun parts left hparts => choiceBodies_accesses ?_ hparts
    exact Touches.place.after fun _ => .emit_still rfl

/-! ## Loops -/

variable {body : LoopBody}

theorem ConstantRange.check_type {r : ConstantRange} {t : DataType} {type : IntType}
    (h : r.check t = .ok type) : t ≠ .struct := by
  rintro rfl
  simp only [check, Lowered.check_ok_iff, Lowered.bind_ok_iff, orInvalid_ok_iff] at h
  obtain ⟨-, -, -, counter, hint, -⟩ := h
  cases hint

/-- The loop sets its counter, steps it and looks at it, wherever it lives. -/
theorem constantLoop_accesses {r : ConstantRange} {counter : Counter} {t : DataType} {scope : String}
    (hcounter : t ≠ .struct → symbols.IsHome counter.name ∨
      counter.name ∈ counter.place.strays symbols)
    (hb : ∀ labels, (body labels).Accesses symbols names) :
    (constantLoop r counter t scope body).Accesses symbols (counter.place.strays symbols ++ names) := by
  refine .lift fun type htype => ?_
  have hown : ∀ name ∈ [counter.name],
      name ∈ counter.place.strays symbols ∨ symbols.IsHome name := by
    intro name hname
    rw [List.mem_singleton.1 hname]
    exact (hcounter (ConstantRange.check_type htype)).symm
  have hinit : (emit (r.initCode type counter.name)).Accesses symbols (counter.place.strays symbols) := by
    refine .emit ?_ ?_ <;> rw [ConstantRange.initCode_accesses]
    · exact Counter.strays_subset
    · exact hown
  have hstep : (emitLowered (r.stepCode type counter.name)).Touches symbols []
      (counter.place.strays symbols) :=
    .emitLowered fun code hcode => ⟨List.nil_subset _, fun name hname =>
      hown name (ConstantRange.stepCode_accesses hcode hname)⟩
  have htest : ∀ start, (emit (r.testCode type counter.name start)).Touches symbols []
      (counter.place.strays symbols) := fun start =>
    .emit (List.nil_subset _) fun name hname => hown name (ConstantRange.testCode_accesses hname)
  refine .frame fun frame => ?_
  refine Touches.weaken (hinit.bind fun _ => Touches.place.after fun _ => (hb frame.labels).bind fun _ =>
    Touches.place.after fun _ => hstep.bind fun _ => (htest frame.start).before fun _ => .close) ?_ ?_
  all_goals
    intro name hname
    simp only [List.mem_append, List.not_mem_nil, or_false] at hname ⊢
    tauto

theorem variableLoop_accesses {first last step : Expr} {counter : Counter} {t : DataType} {scope : String}
    {position : Position} (hb : ∀ labels, (body labels).Accesses env.symbols names) :
    (variableLoop env first last step counter t scope position body).Accesses env.symbols
      (counter.place.strays env.symbols ++ names) := by
  have hP := env.symbols.admits_houses
  have hcode (e : Expr) : (e.code env.symbols).All env.symbols.Houses := e.code_all hP
  refine .lift fun op _ => .lift fun goOn hgo =>
    (Touches.emit_housed (assignCode_all hP)).after fun _ => .frame fun frame =>
    Touches.place.after fun _ => Touches.mark.after fun _ => .lift fun _ _ =>
    (Touches.emit_housed (hcode _)).after fun _ => .lift fun leave hleave =>
    (jump_accesses (Opcode.jumpNonzeroFor_isJump hleave)).after fun _ => ?_
  have hend : (emit [goOn.named frame.start]).Accesses env.symbols [] :=
    .emit_still (accessesOf_jump (Opcode.jumpNonzeroFor_isJump hgo))
  have hstep : (emitLowered (counter.place.step env.symbols op
      (counter.place.inner env.symbols))).Accesses env.symbols (counter.place.strays env.symbols) :=
    .emitLowered fun code hc => Place.step_accesses hc
  refine .perm ?_ List.perm_append_comm
  exact (hb frame.labels).bind fun _ => Touches.place.after fun _ => hstep.before fun _ =>
    (Touches.emit_housed (hcode _)).after fun _ => hend.after fun _ => .close

/-- The counter is only written, which is done where it lives. The index lives in the block. -/
theorem elementLoop_accesses {array : String} {counter : Counter} {t : DataType} {scope : String}
    (hb : ∀ labels, (body labels).Accesses symbols names) :
    (elementLoop symbols array counter t scope body).Accesses symbols names := by
  unfold elementLoop
  split
  · exact .throw_bind
  · refine .lift fun r _ => .fresh fun index => .declaring (.frame fun frame => ?_)
    have hinit : (emit (r.initCode index)).Touches symbols [] [index] :=
      .emit (List.nil_subset _) fun name hname => .inl (ElementRange.initCode_accesses hname)
    have hfetch : (emitLowered (r.fetchCode symbols index counter t)).Touches symbols [] [index] :=
      .emitLowered fun code hc => ⟨List.nil_subset _, fun name hname =>
        (ElementRange.fetchCode_accesses hc name hname).imp_left List.mem_singleton.2⟩
    have hstep : (emit (r.stepCode index frame.start)).Touches symbols [] [index] :=
      .emit (List.nil_subset _) fun name hname => .inl (ElementRange.stepCode_accesses hname)
    refine Touches.weaken (hinit.bind fun _ => Touches.place.after fun _ => hfetch.bind fun _ =>
      (hb frame.labels).bind fun _ => Touches.place.after fun _ => hstep.before fun _ => .close) ?_ ?_
    all_goals
      intro name hname
      simp only [List.mem_append, List.mem_cons, List.not_mem_nil, or_false, false_or] at hname ⊢
      tauto

theorem forLoop_accesses {register : Option Register} {variableName : Option String} {iterable : Expr}
    {scope : String} {position : Position} (hb : ∀ labels, (body labels).Accesses env.symbols names) :
    (forLoop env register variableName iterable scope position body).Accesses env.symbols
      (rangeStrays env.symbols register variableName iterable ++ names) := by
  refine Touches.mark.after fun _ => .lift fun (counter, t) hcounter => ?_
  cases iterable with
  | range first last step =>
    rw [Counter.strays_of_find hcounter]
    cases h : ConstantRange.ofExprs? env.symbols first last step with
    | some r => simpa only [h] using constantLoop_accesses (Counter.isHome_or_strays hcounter) hb
    | none => simpa only [h] using variableLoop_accesses hb
  | var name =>
    have hnone : rangeStrays env.symbols register variableName (.var name) = [] := by
      cases register <;> cases variableName <;> rfl
    rw [hnone]
    exact elementLoop_accesses hb
  | _ => exact .throw

theorem whileLoop_accesses {condition : Expr} {scope : String} {position : Position}
    (hb : ∀ labels, (body labels).Accesses env.symbols names) :
    (whileLoop env condition scope position body).Accesses env.symbols names := by
  have hcode := condition.code_all env.symbols.admits_houses
  refine .fresh fun start => .fresh fun leave => .fresh fun next => Touches.mark.after fun _ =>
    .lift fun _ _ => .lift fun goOn hgo => ?_
  have hend : (emit [goOn.named start]).Accesses env.symbols [] :=
    .emit_still (accessesOf_jump (Opcode.jumpNonzeroFor_isJump hgo))
  exact (Touches.emit_still rfl).after fun _ => Touches.place.after fun _ =>
    (hb _).before fun _ => Touches.place.after fun _ => (Touches.emit_housed hcode).after fun _ =>
    hend.after fun _ => .close

theorem repeatLoop_accesses {condition : Expr} {scope : String} {position : Position}
    (hb : ∀ labels, (body labels).Accesses env.symbols names) :
    (repeatLoop env condition scope position body).Accesses env.symbols names := by
  have hcode := condition.code_all env.symbols.admits_houses
  refine .frame fun frame => Touches.mark.after fun _ => .lift fun _ _ => .lift fun goOn hgo => ?_
  have hend : (emit [goOn.named frame.start]).Accesses env.symbols [] :=
    .emit_still (accessesOf_jump (Opcode.jumpZeroFor_isJump hgo))
  exact Touches.place.after fun _ => (hb _).before fun _ => Touches.place.after fun _ =>
    (Touches.emit_housed hcode).after fun _ => hend.after fun _ => .close

/-! ## Other statements -/

theorem assign_accesses {p : Place} {value : Expr} {position : Position} :
    (env.assign p value position).Accesses env.symbols [] := by
  have hP := env.symbols.admits_houses
  refine Touches.mark.after fun _ => ?_
  cases value with
  | structLiteral values => exact .emit_housed (structAssignCode_all hP)
  | _ => exact .emit_housed (assignCode_all hP)

theorem step_accesses {p : Place} {op : Increment} {position : Position} :
    (env.step p op position).Accesses env.symbols (p.strays env.symbols) :=
  Touches.mark.after fun _ => .emitLowered fun _ hc => Place.step_accesses hc

theorem exit_accesses {kind : LoopExit} {position : Position} :
    (env.exit ctx kind position).Accesses symbols [] := by
  unfold Environment.exit
  split
  · exact .throw
  · exact Touches.mark.after fun _ => .emit_still rfl

theorem gives_accesses {values : List (Expr × DataType)} :
    (values.forM fun (value, t) =>
      emitLowered ((value.operand env.symbols).pushAs env.symbols t)).Accesses env.symbols [] := by
  have hP := env.symbols.admits_houses
  induction values with
  | nil => exact .pure ()
  | cons value values ih =>
    exact (Touches.emit_housed (value.1.pushAs_all hP value.2)).after fun _ => ih

theorem ret_accesses {values : List Expr} {position : Position} :
    (env.ret ctx values position).Accesses env.symbols [] := by
  unfold Environment.ret
  split
  · exact .throw_bind
  · exact gives_accesses.after fun _ => Touches.mark.after fun _ => .emit_still rfl

theorem assembly_accesses {text : String} {label : Option String} {position : Position} :
    (env.assembly text label position).Accesses symbols [] :=
  Touches.mark.after fun _ => .emit_still rfl

theorem directive_accesses {name : String} {args : List DirectiveArg} {position : Position} :
    (env.directive name args position).Accesses symbols [] := by
  unfold Environment.directive
  split
  · refine .lift fun file _ => .lift fun scope _ => ?_
    split
    · exact .throw
    · exact assembly_accesses
  · exact .lift fun _ _ => .lift fun _ _ => .lift fun _ _ => Touches.mark.after fun _ =>
      .emit_still rfl
  · exact Touches.mark.after fun _ => .emit_still rfl
  · exact .pure ()

theorem subroutineDefinition_accesses {s : Signature} {body : List Statement} {position : Position}
    {writer : Writer Unit} (hb : writer.Accesses symbols (Statement.allStrays symbols body)) :
    (subroutineDefinition env s body position writer).Accesses symbols
      (Statement.allStrays symbols body) := by
  unfold subroutineDefinition
  cases s.address? with
  | some address =>
    by_cases hidle : body.all (·.isNop)
    · simp only [hidle, Bool.not_true, Bool.false_eq_true, if_false]
      rw [Statement.allStrays_of_nops hidle]
      exact .pointer
    · simp only [hidle, Bool.not_false, if_true]
      exact .throw_bind
  | none =>
    refine Touches.label.after fun _ => (Touches.emit_still rfl).after fun _ =>
      Touches.mark.after fun _ => ?_
    cases hsole : soleAssembly? body with
    | some sole =>
      rw [Statement.allStrays_of_soleAssembly hsole]
      exact assembly_accesses.after fun _ => .emit_still rfl
    | none => exact hb.before fun _ => .emit_still rfl

/-! ## Statements -/

/-- The strays of choices, each by itself. -/
def Choice.eachStrays (symbols : SymbolTable) (cs : List Choice) : List (List String) :=
  cs.map (·.body.strays symbols)

theorem Choice.flatten_eachStrays (cs : List Choice) :
    (eachStrays symbols cs).flatten = strays symbols cs := by
  induction cs with
  | nil => rfl
  | cons c cs ih =>
    obtain ⟨values, body⟩ := c
    exact congrArg (body.strays symbols ++ ·) ih

mutual

/-- **Of the names without a home, a statement accesses its strays and no others.** -/
theorem Statement.lower_accesses (env : Environment) : ∀ (ctx : Context) (s : Statement),
    (s.lower env ctx).Accesses env.symbols (s.strays env.symbols)
  | _, .varDecl _ | _, .nop => .pure ()
  | _, .label _ _ => Touches.mark.after fun _ => .place
  | _, .assign _ _ _ => assign_accesses
  | _, .step _ _ _ => step_accesses
  | _, .jump _ _ => jump_accesses rfl
  | _, .call _ _ _ => Touches.mark.after fun _ =>
    .emit_housed (callStatementCode_all env.symbols.admits_houses)
  | ctx, .cond _ thenPart elsePart _ =>
    conditional_accesses (thenPart.lower_accesses env ctx) (elsePart.lower_accesses env ctx)
  | ctx, .branch _ thenPart elsePart _ =>
    flagBranch_accesses (thenPart.lower_accesses env ctx) (elsePart.lower_accesses env ctx)
  | _, .exit _ _ => exit_accesses
  | ctx, .forEach _ _ _ body _ => by
    unfold Statement.lower Statement.strays
    split
    · exact .pure ()
    · exact forLoop_accesses fun labels => body.lower_accesses env (ctx.inLoop labels)
  | ctx, .whileLoop _ body _ => by
    rw [Statement.lower, Statement.strays]
    exact whileLoop_accesses fun labels => body.lower_accesses env (ctx.inLoop labels)
  | ctx, .repeatLoop body _ _ => by
    rw [Statement.lower, Statement.strays]
    exact repeatLoop_accesses fun labels => body.lower_accesses env (ctx.inLoop labels)
  | ctx, .scope s => s.lower_accesses env ctx
  | _, .ret _ _ => ret_accesses
  | _, .returnFromIrq _ => Touches.mark.after fun _ => .emit_still rfl
  | _, .directive _ _ _ => by
    rw [Statement.lower, Statement.strays]
    · exact directive_accesses
    all_goals nofun
  | _, .subroutine s body _ =>
    subroutineDefinition_accesses
      (Statement.lowerAll_accesses env { scope := s.name, returnTypes := s.returnTypes } body)
  | _, .assembly _ _ => assembly_accesses
  | ctx, .choose _ choices _ => by
    rw [Statement.lower, Statement.strays, ← Choice.flatten_eachStrays]
    exact choose_accesses (Choice.lower_accesses env ctx choices)

theorem Scope.lower_accesses (env : Environment) : ∀ (ctx : Context) (s : Scope),
    (s.lower env ctx).Accesses env.symbols (s.strays env.symbols)
  | ctx, ⟨name, statements, position⟩ =>
    Statement.lowerAll_accesses env (ctx.inside ⟨name, statements, position⟩) statements

theorem Choice.lower_accesses (env : Environment) (ctx : Context) : ∀ choices : List Choice,
    ChoicesAccess env.symbols (Choice.parts env ctx choices) (Choice.eachStrays env.symbols choices)
  | [] => .nil
  | ⟨_, body⟩ :: rest => .cons (body.lower_accesses env ctx) (Choice.lower_accesses env ctx rest)

theorem Statement.lowerAll_accesses (env : Environment) : ∀ (ctx : Context) (ss : List Statement),
    (Statement.lowerAll env ctx ss).Accesses env.symbols (Statement.allStrays env.symbols ss)
  | _, [] => .pure ()
  | ctx, s :: rest =>
    (s.lower_accesses env ctx).bind fun _ => Statement.lowerAll_accesses env ctx rest

end

end StackCode
