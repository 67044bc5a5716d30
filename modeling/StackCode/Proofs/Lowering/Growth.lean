/-
Lowering a statement only writes. A `when` takes an instruction back, but it is the jump that
it has written last itself, so that all that was there before the statement stays as it was.
-/
import StackCode.Proofs.Sink.Growth
import StackCode.Proofs.Lowering.Program

namespace StackCode

/-! ## Steps that only write -/

/-- Wherever the steps come to, operations that write lead there. -/
structure Writer.Grows {α : Type} (w : Writer α) : Prop where
  grown : ∀ {out a out'}, w out = .ok (a, out') → out.sink.GrowsTo out'.sink

/-- The steps only write, and what they write last is this instruction. -/
structure Writer.EndsIn {α : Type} (i : α → Instruction) (w : Writer α) : Prop where
  ended : ∀ {out a out'}, w out = .ok (a, out') →
    ∃ rest, out.sink.GrowsTo rest.sink ∧ emit [i a] rest = .ok ((), out')

namespace Writer.Grows

variable {α β : Type} {w : Writer α} {f : α → Writer β} {i : β → Instruction}

theorem bind (hw : w.Grows) (hf : ∀ a, (f a).Grows) : (w >>= f).Grows where
  grown h := by
    obtain ⟨a, mid, h₁, h₂⟩ := Writer.bind_ok_iff.1 h
    exact (hw.grown h₁).trans ((hf a).grown h₂)

/-- In front of steps that end in the instruction. -/
theorem before (hw : w.Grows) (hf : ∀ a, (f a).EndsIn i) : (w >>= f).EndsIn i where
  ended h := by
    obtain ⟨a, mid, h₁, h₂⟩ := Writer.bind_ok_iff.1 h
    obtain ⟨rest, hgrown, hrest⟩ := (hf a).ended h₂
    exact ⟨rest, (hw.grown h₁).trans hgrown, hrest⟩

theorem lift (x : Lowered α) : (liftM x : Writer α).Grows where
  grown h := by
    obtain ⟨-, rfl⟩ := Writer.lift_ok_iff.1 h
    exact .refl

theorem pure (a : α) : (Pure.pure a : Writer α).Grows := lift (.ok a)

theorem throw (e : LowerError) : (MonadExcept.throw e : Writer α).Grows :=
  ⟨fun h => (Writer.throw_ok_iff.1 h).elim⟩

/-- A step that gives up never comes to what is behind it. -/
theorem throw_bind {e : LowerError} : ((MonadExcept.throw e : Writer α) >>= f).Grows where
  grown h := by
    obtain ⟨a, mid, h, -⟩ := Writer.bind_ok_iff.1 h
    exact (Writer.throw_ok_iff.1 h).elim

theorem fresh (scope suffix : String) : (freshLabel scope suffix).Grows where
  grown h := by
    cases h
    exact .refl

theorem frame (scope : String) : (freshFrame scope).Grows :=
  (fresh _ _).bind fun _ => (fresh _ _).bind fun _ => (fresh _ _).bind fun _ => pure _

theorem forM {γ : Type} {f : γ → Writer Unit} {xs : List γ} (h : ∀ x ∈ xs, (f x).Grows) :
    (xs.forM f).Grows := by
  induction xs with
  | nil => exact pure ()
  | cons x xs ih =>
    exact (h x List.mem_cons_self).bind fun _ => ih fun y hy => h y (List.mem_cons_of_mem _ hy)

/-! ### Operations on the sink -/

theorem performs (op : SinkOp) {x : SinkM Unit} (hop : op.IsWriting)
    (hx : op.action = do x; return none) : (perform x).Grows where
  grown h := by
    obtain ⟨sink, hresult, rfl⟩ := perform_ok_iff.1 h
    refine .single ⟨op, hop, none, ?_⟩
    rw [SinkOp.step, hx]
    exact SinkM.bind_ok_iff.2 ⟨_, sink, hresult, rfl⟩

theorem label (name : String) (isSubroutine : Bool) : (perform (Sink.label name isSubroutine)).Grows :=
  performs (.label name isSubroutine) trivial rfl

theorem place (name : String) : (placeLabel name).Grows := label name false

theorem emit (code : Code) : (StackCode.emit code).Grows := by
  induction code with
  | nil => exact ⟨fun h => by cases h; exact .refl⟩
  | cons i code ih =>
    rw [emit_cons]
    exact (performs (.instruction i) trivial rfl).bind fun _ => ih

theorem emitLowered (code : Lowered Code) : (StackCode.emitLowered code).Grows :=
  (lift code).bind fun _ => emit _

theorem close (name : String) : (closeAt name).Grows := (place name).bind fun _ => emit _

theorem mark (env : Environment) (position : Position) : (env.mark position).Grows := by
  unfold Environment.mark
  split
  · exact performs (.line position.line.toNat position.file) trivial rfl
  · exact pure ()

end Writer.Grows

namespace Writer.EndsIn

variable {α β : Type} {w : Writer α} {i : Instruction}

theorem emit (i : Instruction) : (StackCode.emit [i]).EndsIn fun _ => i :=
  ⟨fun {out _ _} h => ⟨out, .refl, h⟩⟩

theorem grows {i : α → Instruction} (hw : w.EndsIn i) : w.Grows where
  grown h := by
    obtain ⟨rest, hgrown, hrest⟩ := hw.ended h
    exact hgrown.trans ((Grows.emit _).grown hrest)

/-- A step that gives up never comes to what is behind it. -/
theorem throw_bind {e : LowerError} {f : α → Writer β} {i : β → Instruction} :
    ((MonadExcept.throw e : Writer α) >>= f).EndsIn i where
  ended h := by
    obtain ⟨a, mid, h, -⟩ := Writer.bind_ok_iff.1 h
    exact (Writer.throw_ok_iff.1 h).elim

/-- A result for what has been written. -/
theorem pure {i : β → Instruction} {b : β} (hw : w.EndsIn fun _ => i b) :
    (w >>= fun _ => Pure.pure b).EndsIn i where
  ended h := by
    obtain ⟨a, mid, h₁, h₂⟩ := Writer.bind_ok_iff.1 h
    obtain ⟨rfl, rfl⟩ := Writer.pure_ok_iff.1 h₂
    exact hw.ended h₁

/-- What is taken back behind the steps is the instruction that they have written last. -/
theorem takesBack {i : α → Instruction} {a : α} {out written out' : Output} {j : Instruction}
    (hw : w.EndsIn i) (hi : (i a).opcode ≠ .line) (h : w out = .ok (a, written))
    (hremove : perform Sink.removeLatest written = .ok (j, out')) :
    j = i a ∧ out.sink.GrowsTo out'.sink ∧ StackCode.emit [i a] out' = .ok ((), written) := by
  obtain ⟨rest, hgrown, hrest⟩ := hw.ended h
  obtain ⟨rfl, rfl⟩ := emit_removeLatest hi hrest hremove
  exact ⟨rfl, hgrown, hrest⟩

end Writer.EndsIn

open Writer

variable {env : Environment} {ctx : Context} {symbols : SymbolTable}

/-! ## Choices -/

theorem jump_grows (op : Opcode) (target : JumpTarget) (position : Position) :
    (env.jump op target position).Grows :=
  (Grows.mark ..).bind fun _ => (Grows.lift _).bind fun _ => .emit _

theorem alternatives_grows {away : Opcode} {elseLabel endLabel : String} {elseIdle : Bool}
    {thenPart elsePart : Writer Unit} (ht : thenPart.Grows) (he : elsePart.Grows) :
    (alternatives away elseLabel endLabel elseIdle thenPart elsePart).Grows := by
  unfold alternatives
  split
  · exact (Grows.emit _).bind fun _ => ht.bind fun _ => .close _
  · exact (Grows.emit _).bind fun _ => ht.bind fun _ => (Grows.emit _).bind fun _ =>
      (Grows.place _).bind fun _ => he.bind fun _ => .close _

theorem conditional_grows {condition : Expr} {thenScope elseScope : Scope} {position : Position}
    {thenPart elsePart : Writer Unit} (ht : thenPart.Grows) (he : elsePart.Grows) :
    (conditional env ctx condition thenScope elseScope position thenPart elsePart).Grows := by
  refine (Grows.mark ..).bind fun _ => (Grows.lift _).bind fun _ => (Grows.emitLowered _).bind fun _ => ?_
  split
  · exact (Grows.lift _).bind fun _ => (jump_grows ..).bind fun _ => he
  · refine (Grows.lift _).bind fun _ => (Grows.fresh _ _).bind fun _ => ?_
    split
    · exact (Grows.pure _).bind fun _ => alternatives_grows ht he
    · exact (Grows.fresh _ _).bind fun _ => alternatives_grows ht he

theorem flagBranch_grows {test : FlagTest} {thenScope elseScope : Scope} {position : Position}
    {thenPart elsePart : Writer Unit} (ht : thenPart.Grows) (he : elsePart.Grows) :
    (flagBranch env ctx test thenScope elseScope position thenPart elsePart).Grows := by
  unfold flagBranch
  split
  · exact .pure ()
  · refine (Grows.mark ..).bind fun _ => ?_
    cases branchJumps? thenScope elseScope with
    | some jumps =>
      obtain ⟨⟨target, p⟩, _ | ⟨target', p'⟩⟩ := jumps
      · exact (jump_grows ..).bind fun _ => .pure ()
      · exact (jump_grows ..).bind fun _ => jump_grows ..
    | none =>
      exact (Grows.fresh _ _).bind fun _ => (Grows.fresh _ _).bind fun _ => alternatives_grows ht he

/-! ## Many parts -/

/-- A choice up to the last of its jumps to the end. Gives the type that is chosen on, and the label at
the end. -/
def choiceParts (env : Environment) (ctx : Context) (condition : Expr) (choices : List ChoicePart)
    (position : Position) : Writer (IntType × String) := do
  env.mark position
  let type ← condition.needType env.symbols
  let t ← orInvalid "when" type type.int?
  emitLowered (condition.code env.symbols)
  let endLabel ← freshLabel ctx.scope "when_end"
  let parts ← choiceHeads env ctx t choices
  emit [Opcode.jump.named endLabel]
  parts.forM fun (label, part) => do
    placeLabel label
    part
    emit [Opcode.jump.named endLabel]
  return (t, endLabel)

/-- The end of a choice, where the value is removed. -/
def choiceEnd (t : IntType) (endLabel : String) : Writer Unit := do
  placeLabel endLabel
  emit [(Opcode.discard (.int t.size)).plain]

theorem choose_eq {condition : Expr} {choices : List ChoicePart} {position : Position}
    (h : choices ≠ []) :
    choose env ctx condition choices position =
      choiceParts env ctx condition choices position >>= fun (t, endLabel) =>
        perform Sink.removeLatest >>= fun _ => choiceEnd t endLabel := by
  have hsome : choices.isEmpty = false := by simpa using h
  simp only [choose, choiceParts, choiceEnd, hsome, Bool.false_eq_true, if_false, bind_assoc, pure_bind]

theorem choiceHeads_endsIn {α : Type} {t : IntType} {choices : List ChoicePart}
    {i : α → Instruction} (hc : ∀ c ∈ choices, c.part.Grows) :
    ∀ {rest : List (String × Writer Unit) → Writer α},
      (∀ parts, (∀ p ∈ parts, p.2.Grows) → (rest parts).EndsIn i) →
      (choiceHeads env ctx t choices >>= rest).EndsIn i := by
  induction choices with
  | nil =>
    intro rest hrest
    simpa [choiceHeads] using hrest [] (List.forall_mem_nil _)
  | cons c choices ih =>
    intro rest hrest
    obtain ⟨_ | values, part⟩ := c
    · rw [choiceHeads, bind_assoc]
      exact (hc _ List.mem_cons_self).before fun _ =>
        ih (fun c hmem => hc c (List.mem_cons_of_mem _ hmem)) hrest
    · rw [choiceHeads, bind_assoc]
      refine (Grows.lift _).before fun vs => ?_
      cases vs with
      | nil => exact .throw_bind
      | cons v vs =>
        simp only [bind_assoc, pure_bind]
        refine (Grows.fresh _ _).before fun label => (Grows.emit _).before fun _ =>
          ih (fun c hmem => hc c (List.mem_cons_of_mem _ hmem)) fun parts hparts => hrest _ ?_
        exact List.forall_mem_cons.2 ⟨hc _ List.mem_cons_self, hparts⟩

/-- Each part ends in a jump to the end, and so does what stands in front of the parts. -/
theorem choiceBodies_endsIn {α : Type} {endLabel : String} {parts : List (String × Writer Unit)}
    {w : Writer α} (hw : w.EndsIn fun _ => Opcode.jump.named endLabel)
    (hparts : ∀ p ∈ parts, p.2.Grows) :
    (w >>= fun _ => parts.forM fun (label, part) => do
      placeLabel label
      part
      emit [Opcode.jump.named endLabel]).EndsIn fun _ => Opcode.jump.named endLabel := by
  induction parts generalizing α with
  | nil => exact .pure hw
  | cons p parts ih =>
    simp only [List.forM_eq_forM, List.forM_cons] at ih ⊢
    -- The first part goes to the steps in front, which end in its jump then.
    rw [← bind_assoc]
    refine ih ?_ fun q hq => hparts q (List.mem_cons_of_mem _ hq)
    exact hw.grows.before fun _ => (Grows.place _).before fun _ =>
      (hparts p List.mem_cons_self).before fun _ => .emit _

theorem choiceParts_endsIn {condition : Expr} {choices : List ChoicePart} {position : Position}
    (hc : ∀ c ∈ choices, c.part.Grows) :
    (choiceParts env ctx condition choices position).EndsIn fun (_, endLabel) =>
      Opcode.jump.named endLabel := by
  refine (Grows.mark ..).before fun _ => (Grows.lift _).before fun type => (Grows.lift _).before fun t =>
    (Grows.emitLowered _).before fun _ => (Grows.fresh _ _).before fun endLabel =>
    choiceHeads_endsIn hc fun parts hparts => ?_
  rw [← bind_assoc]
  exact .pure (choiceBodies_endsIn (.emit _) hparts)

theorem choiceEnd_grows (t : IntType) (endLabel : String) : (choiceEnd t endLabel).Grows :=
  (Grows.place _).bind fun _ => .emit _

theorem choose_grows {condition : Expr} {choices : List ChoicePart} {position : Position}
    (hc : ∀ c ∈ choices, c.part.Grows) : (choose env ctx condition choices position).Grows := by
  by_cases hsome : choices = []
  · subst hsome
    exact (Grows.mark ..).bind fun _ => (Grows.lift _).bind fun _ => (Grows.lift _).bind fun _ =>
      (Grows.emitLowered _).bind fun _ => .emit _
  · rw [choose_eq hsome]
    refine ⟨fun h => ?_⟩
    obtain ⟨⟨t, endLabel⟩, written, hparts, h⟩ := Writer.bind_ok_iff.1 h
    obtain ⟨i, rest, hremove, hend⟩ := Writer.bind_ok_iff.1 h
    obtain ⟨-, hgrown, -⟩ := (choiceParts_endsIn hc).takesBack (by simp [Opcode.named]) hparts hremove
    exact hgrown.trans ((choiceEnd_grows t endLabel).grown hend)

/-! ## Loops -/

section Loops

variable {body : LoopBody} (hb : ∀ labels, (body labels).Grows)

include hb

theorem constantLoop_grows {r : ConstantRange} {counter : Counter} {t : DataType} {scope : String} :
    (constantLoop r counter t scope body).Grows :=
  (Grows.lift _).bind fun _ => (Grows.frame _).bind fun _ => (Grows.emit _).bind fun _ =>
    (Grows.place _).bind fun _ => (hb _).bind fun _ => (Grows.place _).bind fun _ =>
    (Grows.emitLowered _).bind fun _ => (Grows.emit _).bind fun _ => .close _

theorem variableLoop_grows {first last step : Expr} {counter : Counter} {t : DataType} {scope : String}
    {position : Position} :
    (variableLoop env first last step counter t scope position body).Grows :=
  (Grows.lift _).bind fun _ => (Grows.lift _).bind fun _ => (Grows.emitLowered _).bind fun _ =>
    (Grows.frame _).bind fun _ => (Grows.place _).bind fun _ => (Grows.mark ..).bind fun _ =>
    (Grows.lift _).bind fun _ => (Grows.emitLowered _).bind fun _ => (Grows.lift _).bind fun _ =>
    (jump_grows ..).bind fun _ => (hb _).bind fun _ => (Grows.place _).bind fun _ =>
    (Grows.emitLowered _).bind fun _ => (Grows.emitLowered _).bind fun _ =>
    (Grows.emit _).bind fun _ => .close _

theorem elementLoop_grows {array : String} {counter : Counter} {t : DataType} {scope : String} :
    (elementLoop symbols array counter t scope body).Grows := by
  unfold elementLoop
  split
  · exact .throw_bind
  · exact (Grows.lift _).bind fun r => (Grows.fresh _ _).bind fun index =>
      (Grows.performs (.declare index (.int r.indexType) .plain none) trivial rfl).bind fun _ =>
      (Grows.frame _).bind fun _ => (Grows.emit _).bind fun _ => (Grows.place _).bind fun _ =>
      (Grows.emitLowered _).bind fun _ => (hb _).bind fun _ => (Grows.place _).bind fun _ =>
      (Grows.emit _).bind fun _ => .close _

theorem forLoop_grows {register : Option Register} {variableName : Option String} {iterable : Expr}
    {scope : String} {position : Position} :
    (forLoop env register variableName iterable scope position body).Grows := by
  refine (Grows.mark ..).bind fun _ => (Grows.lift _).bind fun (counter, t) => ?_
  cases iterable with
  | range first last step =>
    dsimp only
    split
    · exact constantLoop_grows hb
    · exact variableLoop_grows hb
  | var name => exact elementLoop_grows hb
  | _ => exact .throw _

theorem whileLoop_grows {condition : Expr} {scope : String} {position : Position} :
    (whileLoop env condition scope position body).Grows :=
  (Grows.fresh _ _).bind fun _ => (Grows.fresh _ _).bind fun _ => (Grows.fresh _ _).bind fun _ =>
    (Grows.mark ..).bind fun _ => (Grows.lift _).bind fun _ => (Grows.lift _).bind fun _ =>
    (Grows.emit _).bind fun _ => (Grows.place _).bind fun _ => (hb _).bind fun _ =>
    (Grows.place _).bind fun _ => (Grows.emitLowered _).bind fun _ => (Grows.emit _).bind fun _ =>
    .close _

theorem repeatLoop_grows {condition : Expr} {scope : String} {position : Position} :
    (repeatLoop env condition scope position body).Grows :=
  (Grows.frame _).bind fun _ => (Grows.mark ..).bind fun _ => (Grows.lift _).bind fun _ =>
    (Grows.lift _).bind fun _ => (Grows.place _).bind fun _ => (hb _).bind fun _ =>
    (Grows.place _).bind fun _ => (Grows.emitLowered _).bind fun _ => (Grows.emit _).bind fun _ =>
    .close _

end Loops

/-! ## Other statements -/

theorem assign_grows (p : Place) (value : Expr) (position : Position) :
    (env.assign p value position).Grows := by
  refine (Grows.mark ..).bind fun _ => ?_
  cases value <;> exact .emitLowered _

theorem exit_grows (kind : LoopExit) (position : Position) : (env.exit ctx kind position).Grows := by
  unfold Environment.exit
  split
  · exact .throw _
  · exact (Grows.mark ..).bind fun _ => .emit _

theorem ret_grows (values : List Expr) (position : Position) : (env.ret ctx values position).Grows := by
  unfold Environment.ret
  split
  · exact .throw_bind
  · exact (Grows.forM fun _ _ => .emitLowered _).bind fun _ => (Grows.mark ..).bind fun _ => .emit _

theorem assembly_grows (text : String) (label : Option String) (position : Position) :
    (env.assembly text label position).Grows :=
  (Grows.mark ..).bind fun _ => .emit _

theorem directive_grows (name : String) (args : List DirectiveArg) (position : Position) :
    (env.directive name args position).Grows := by
  unfold Environment.directive
  split
  · refine (Grows.lift _).bind fun file => (Grows.lift _).bind fun scope => ?_
    split
    · exact .throw _
    · exact assembly_grows ..
  · exact (Grows.lift _).bind fun _ => (Grows.lift _).bind fun _ => (Grows.lift _).bind fun _ =>
      (Grows.mark ..).bind fun _ => .emit _
  · exact (Grows.mark ..).bind fun _ => .emit _
  · exact .pure ()

theorem subroutineDefinition_grows {s : Signature} {body : List Statement} {position : Position}
    {part : Writer Unit} (hpart : part.Grows) :
    (subroutineDefinition env s body position part).Grows := by
  unfold subroutineDefinition
  cases s.address? with
  | some address =>
    dsimp only
    split
    · exact .throw_bind
    · exact .performs (.pointer s.name address .ubyte) trivial rfl
  | none =>
    refine (Grows.label _ _).bind fun _ => (Grows.emit _).bind fun _ =>
      (Grows.mark ..).bind fun _ => ?_
    split
    · exact (assembly_grows ..).bind fun _ => .emit _
    · exact hpart.bind fun _ => .emit _

/-! ## Statements -/

mutual

/-- **Lowering a statement comes down to operations that write.** -/
theorem Statement.lower_grows (env : Environment) : ∀ (ctx : Context) (s : Statement),
    (s.lower env ctx).Grows
  | _, .varDecl _ | _, .nop => .pure ()
  | _, .label _ _ => (Grows.mark ..).bind fun _ => .place _
  | _, .assign _ _ _ => assign_grows ..
  | _, .step _ _ _ | _, .call _ _ _ => (Grows.mark ..).bind fun _ => .emitLowered _
  | _, .jump _ _ => jump_grows ..
  | ctx, .cond _ thenPart elsePart _ =>
    conditional_grows (thenPart.lower_grows env ctx) (elsePart.lower_grows env ctx)
  | ctx, .branch _ thenPart elsePart _ =>
    flagBranch_grows (thenPart.lower_grows env ctx) (elsePart.lower_grows env ctx)
  | _, .exit _ _ => exit_grows ..
  | ctx, .forEach _ _ _ body _ => by
    unfold Statement.lower
    split
    · exact .pure ()
    · exact forLoop_grows fun labels => body.lower_grows env (ctx.inLoop labels)
  | ctx, .whileLoop _ body _ => by
    rw [Statement.lower]
    exact whileLoop_grows fun labels => body.lower_grows env (ctx.inLoop labels)
  | ctx, .repeatLoop body _ _ => by
    rw [Statement.lower]
    exact repeatLoop_grows fun labels => body.lower_grows env (ctx.inLoop labels)
  | ctx, .scope s => s.lower_grows env ctx
  | _, .ret _ _ => ret_grows ..
  | _, .returnFromIrq _ => (Grows.mark ..).bind fun _ => .emit _
  | _, .directive _ _ _ => by
    rw [Statement.lower]
    exact directive_grows ..
  | _, .subroutine s body _ =>
    subroutineDefinition_grows
      (Statement.lowerAll_grows env { scope := s.name, returnTypes := s.returnTypes } body)
  | _, .assembly _ _ => assembly_grows ..
  | ctx, .choose _ choices _ => by
    rw [Statement.lower]
    exact choose_grows (Choice.parts_grow env ctx choices)

theorem Scope.lower_grows (env : Environment) : ∀ (ctx : Context) (s : Scope), (s.lower env ctx).Grows
  | ctx, ⟨name, statements, position⟩ =>
    Statement.lowerAll_grows env (ctx.inside ⟨name, statements, position⟩) statements

theorem Choice.parts_grow (env : Environment) (ctx : Context) : ∀ choices : List Choice,
    ∀ c ∈ Choice.parts env ctx choices, c.part.Grows
  | [] => nofun
  | ⟨_, body⟩ :: rest =>
    List.forall_mem_cons.2 ⟨body.lower_grows env ctx, Choice.parts_grow env ctx rest⟩

theorem Statement.lowerAll_grows (env : Environment) : ∀ (ctx : Context) (ss : List Statement),
    (Statement.lowerAll env ctx ss).Grows
  | _, [] => .pure ()
  | ctx, s :: rest => (s.lower_grows env ctx).bind fun _ => Statement.lowerAll_grows env ctx rest

end

/-- What a choice has taken back is the jump to its own end. It was written behind all that was there
before the choice, and the choice goes on as if it had not been written. -/
theorem choose_takesBack {condition : Expr} {choices : List Choice} {position : Position}
    {out out' : Output} {u : Unit} (hsome : choices ≠ [])
    (h : choose env ctx condition (Choice.parts env ctx choices) position out = .ok (u, out')) :
    ∃ t endLabel written rest,
      choiceParts env ctx condition (Choice.parts env ctx choices) position out =
        .ok ((t, endLabel), written) ∧
      out.sink.GrowsTo rest.sink ∧ emit [Opcode.jump.named endLabel] rest = .ok ((), written) ∧
      perform Sink.removeLatest written = .ok (Opcode.jump.named endLabel, rest) ∧
      choiceEnd t endLabel rest = .ok (u, out') := by
  have hparts : Choice.parts env ctx choices ≠ [] := by
    cases choices with
    | nil => exact absurd rfl hsome
    | cons c rest =>
      obtain ⟨values, body⟩ := c
      exact List.cons_ne_nil _ _
  rw [choose_eq hparts] at h
  obtain ⟨⟨t, endLabel⟩, written, hwritten, h⟩ := Writer.bind_ok_iff.1 h
  obtain ⟨i, rest, hremove, hend⟩ := Writer.bind_ok_iff.1 h
  obtain ⟨rfl, hgrown, hemit⟩ := (choiceParts_endsIn (Choice.parts_grow env ctx choices)).takesBack
    (by simp [Opcode.named]) hwritten hremove
  exact ⟨t, endLabel, written, rest, hwritten, hgrown, hemit, hremove, hend⟩

/-- **Lowering a statement leaves what was written before it**, but that a line marker which was last can
be replaced by a newer one. What a `when` takes back is the jump that it has written last: without the jump
all that was there before the `when` is still there, and it goes on from there. If the labels that
are known were those of the program, they still are, and no label comes to stand twice. -/
theorem Statement.lower_continues {s : Statement} {out out' : Output} {u : Unit} (hopen : out.IsOpen)
    (h : s.lower env ctx out = .ok (u, out')) :
    out.sink.Continues out'.sink ∧
    (∀ condition choices position, s = .choose condition choices position → choices ≠ [] →
      ∃ t endLabel written rest,
        choiceParts env ctx condition (Choice.parts env ctx choices) position out =
          .ok ((t, endLabel), written) ∧
        out.sink.Continues rest.sink ∧ emit [Opcode.jump.named endLabel] rest = .ok ((), written) ∧
        perform Sink.removeLatest written = .ok (Opcode.jump.named endLabel, rest) ∧
        choiceEnd t endLabel rest = .ok (u, out')) ∧
    ((∀ l, l ∈ out.sink.labels ↔ l ∈ out.sink.program.labels) →
      (∀ l, l ∈ out'.sink.labels ↔ l ∈ out'.sink.program.labels) ∧
      (out.sink.program.labels.Nodup → out'.sink.program.labels.Nodup)) ∧
    ∀ name loadAddress ops, out.sink = Sink.written name loadAddress ops →
      out'.sink.program.labels.Nodup := by
  have hgrown : out.sink.GrowsTo out'.sink := (s.lower_grows env ctx).grown h
  refine ⟨hgrown.continues hopen, ?_, fun hsame => ⟨hgrown.addsLabels.mem_iff hsame, fun hdistinct => ?_⟩,
    fun name loadAddress ops hwritten => ?_⟩
  · rintro condition choices position rfl hsome
    rw [Statement.lower] at h
    obtain ⟨t, endLabel, written, rest, hwritten, hrest, hemit, hremove, hend⟩ := choose_takesBack hsome h
    exact ⟨t, endLabel, written, rest, hwritten, hrest.continues hopen, hemit, hremove, hend⟩
  · exact (hgrown.addsLabels.knowsOwn ⟨hdistinct, fun l => (hsame l).2⟩).distinct
  · exact (hgrown.addsLabels.knowsOwn (hwritten ▸ Sink.written_knowsOwn ..)).distinct

/-- Two bytes, and lines that are marked. -/
def markedEnvironment : Environment where
  symbols := .ofDeclarations
    [.var ⟨"main.b", .ubyte, .plain, none, [], {}⟩, .var ⟨"main.c", .ubyte, .plain, none, [], {}⟩]
  markLines := true
  loader := .ofTexts []

/-- A choice within a choice. The body of the inner one ends in a label. -/
def innerChoice : List Choice :=
  [⟨some [.number (.wrapped .ubyte 1)],
    ⟨"", [.choose (.var "main.c") [⟨none, ⟨"", [.label "main.inner" { line := 4 }], {}⟩⟩] { line := 3 }], {}⟩⟩]

/-- A block with a label, and a line marker as its last entry. -/
def markedStart : Output where
  sink := Sink.written "sample" none [.openBlock "main" none [], .label "main.start" false, .line 1 "m.p8"]

theorem innerChoice_continues :
    markedStart.IsOpen ∧ (∀ l, l ∈ markedStart.sink.labels ↔ l ∈ markedStart.sink.program.labels) ∧
    ∃ out', (Statement.choose (.var "main.b") innerChoice { line := 2 }).lower markedEnvironment
        { scope := "main" } markedStart = .ok ((), out') ∧
      markedStart.sink.Continues out'.sink ∧
      (∃ t endLabel written rest,
        choiceParts markedEnvironment { scope := "main" } (.var "main.b")
          (Choice.parts markedEnvironment { scope := "main" } innerChoice) { line := 2 } markedStart =
          .ok ((t, endLabel), written) ∧
        markedStart.sink.Continues rest.sink ∧ emit [Opcode.jump.named endLabel] rest = .ok ((), written) ∧
        perform Sink.removeLatest written = .ok (Opcode.jump.named endLabel, rest)) ∧
      (∀ l, l ∈ out'.sink.labels ↔ l ∈ out'.sink.program.labels) ∧ out'.sink.program.labels.Nodup := by
  have hopen : markedStart.IsOpen := rfl
  have hsame : markedStart.sink.labels = markedStart.sink.program.labels := rfl
  have hknown : ∀ l, l ∈ markedStart.sink.labels ↔ l ∈ markedStart.sink.program.labels := fun l => by
    rw [hsame]
  have hlowered : ((Statement.choose (.var "main.b") innerChoice { line := 2 }).lower markedEnvironment
      { scope := "main" } markedStart).toOption.isSome := by decide +kernel
  cases h : (Statement.choose (.var "main.b") innerChoice { line := 2 }).lower markedEnvironment
      { scope := "main" } markedStart with
  | error e => simp [h, Except.toOption] at hlowered
  | ok result =>
    obtain ⟨hcontinues, htaken, hlabels, hdistinct⟩ := Statement.lower_continues hopen h
    obtain ⟨t, endLabel, written, rest, hparts, hrest, hemit, hremove, -⟩ :=
      htaken _ _ _ rfl (List.cons_ne_nil _ _)
    exact ⟨hopen, hknown, result.2, rfl, hcontinues,
      ⟨t, endLabel, written, rest, hparts, hrest, hemit, hremove⟩, (hlabels hknown).1,
      hdistinct _ _ _ rfl⟩

end StackCode
