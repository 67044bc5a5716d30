/-
Which variables a program has. A block has its plain variables and those of parameters, as
they are declared, and then one index for each loop over elements, as these are written.
-/
import StackCode.Proofs.Storage.Indices

namespace StackCode

open Writer

variable {env : Environment} {ctx : Context} {symbols : SymbolTable} {arrays arrays' : List String}

/-! ## Choices -/

theorem jump_indexes {op : Opcode} {target : JumpTarget} {position : Position} :
    (env.jump op target position).Indexes symbols [] :=
  Declares.mark.after fun _ => .lift fun _ _ => .emit _

theorem alternatives_indexes {away : Opcode} {elseLabel endLabel : String} {elseIdle : Bool}
    {thenWriter elseWriter : Writer Unit} (ht : thenWriter.Indexes symbols arrays)
    (he : elseWriter.Indexes symbols arrays') (hidle : elseIdle → arrays' = []) :
    (alternatives away elseLabel endLabel elseIdle thenWriter elseWriter).Indexes symbols
      (arrays ++ arrays') := by
  unfold alternatives
  split
  next h =>
    rw [hidle h, List.append_nil]
    exact (Declares.emit _).after fun _ => ht.before fun _ => .close
  next =>
    exact (Declares.emit _).after fun _ => ht.bind fun _ => (Declares.emit _).after fun _ =>
      Declares.place.after fun _ => he.before fun _ => .close

theorem conditional_indexes {condition : Expr} {thenScope elseScope : Scope} {position : Position}
    {thenWriter elseWriter : Writer Unit} (ht : thenWriter.Indexes symbols thenScope.iterated)
    (he : elseWriter.Indexes symbols elseScope.iterated) :
    (conditional env ctx condition thenScope elseScope position thenWriter elseWriter).Indexes symbols
      (thenScope.iterated ++ elseScope.iterated) := by
  refine Declares.mark.after fun _ => .lift fun type _ => Declares.emitLowered.after fun _ => ?_
  cases hjump : thenScope.onlyJump? with
  | some jump =>
    rw [Scope.iterated_of_onlyJump hjump]
    exact .lift fun op _ => jump_indexes.after fun _ => he
  | none =>
    refine .lift fun away _ => Declares.fresh.after fun endLabel => ?_
    cases hidle : elseScope.isIdle with
    | true =>
      exact (Declares.pure endLabel).after fun _ =>
        alternatives_indexes ht he fun _ => Scope.iterated_of_isIdle hidle
    | false => exact Declares.fresh.after fun _ => alternatives_indexes ht he nofun

theorem flagBranch_indexes {test : FlagTest} {thenScope elseScope : Scope} {position : Position}
    {thenWriter elseWriter : Writer Unit} (ht : thenWriter.Indexes symbols thenScope.iterated)
    (he : elseWriter.Indexes symbols elseScope.iterated) :
    (flagBranch env ctx test thenScope elseScope position thenWriter elseWriter).Indexes symbols
      (if (branchJumps? thenScope elseScope).isSome then []
        else thenScope.iterated ++ elseScope.iterated) := by
  unfold flagBranch
  by_cases hidle : (thenScope.isIdle && elseScope.isIdle) = true
  · rw [if_pos hidle]
    rw [Bool.and_eq_true] at hidle
    rw [Scope.iterated_of_isIdle hidle.1, Scope.iterated_of_isIdle hidle.2, List.append_nil, ite_self]
    exact .pure ()
  · rw [if_neg hidle]
    refine Declares.mark.after fun _ => ?_
    cases branchJumps? thenScope elseScope with
    | some jumps =>
      obtain ⟨⟨target, p⟩, _ | ⟨target', p'⟩⟩ := jumps
      · exact jump_indexes.after fun _ => .pure ()
      · exact jump_indexes.after fun _ => jump_indexes
    | none =>
      exact Declares.fresh.after fun _ => Declares.fresh.after fun _ =>
        alternatives_indexes ht he fun hidle => Scope.iterated_of_isIdle hidle

/-! ## Many parts -/

/-- The indices of choices: the first list is for those that are written among the tests, and the second
one for those behind them. -/
inductive ChoicesIndex (symbols : SymbolTable) : List ChoicePart → List String → List String → Prop
  | nil : ChoicesIndex symbols [] [] []
  | inline {part : Writer Unit} {rest : List ChoicePart} {own inline behind : List String}
    (hpart : part.Indexes symbols own) (hrest : ChoicesIndex symbols rest inline behind) :
    ChoicesIndex symbols (⟨none, part⟩ :: rest) (own ++ inline) behind
  | behind {values : List Expr} {part : Writer Unit} {rest : List ChoicePart}
    {own inline behind : List String} (hpart : part.Indexes symbols own)
    (hrest : ChoicesIndex symbols rest inline behind) :
    ChoicesIndex symbols (⟨some values, part⟩ :: rest) inline (own ++ behind)

/-- The indices of parts that are left for later. -/
inductive PartsIndex (symbols : SymbolTable) : List (String × Writer Unit) → List String → Prop
  | nil : PartsIndex symbols [] []
  | cons {label : String} {part : Writer Unit} {rest : List (String × Writer Unit)}
    {own behind : List String} (hpart : part.Indexes symbols own)
    (hrest : PartsIndex symbols rest behind) :
    PartsIndex symbols ((label, part) :: rest) (own ++ behind)

theorem choiceHeads_indexes {α : Type} {t : IntType} {choices : List ChoicePart}
    {inline behind : List String} (hc : ChoicesIndex symbols choices inline behind) :
    ∀ {rest : List (String × Writer Unit) → Writer α},
      (∀ parts, PartsIndex symbols parts behind → (rest parts).Indexes symbols arrays) →
      (choiceHeads env ctx t choices >>= rest).Indexes symbols (inline ++ arrays) := by
  induction hc with
  | nil =>
    intro rest hrest
    simpa [choiceHeads] using hrest [] .nil
  | inline hpart _ ih =>
    intro rest hrest
    rw [choiceHeads, bind_assoc, List.append_assoc]
    exact hpart.bind fun _ => ih hrest
  | behind hpart _ ih =>
    intro rest hrest
    rw [choiceHeads, bind_assoc]
    refine .lift fun vs _ => ?_
    cases vs with
    | nil => exact .throw_bind
    | cons v vs =>
      simp only [bind_assoc, pure_bind]
      exact Declares.fresh.after fun label => (Declares.emit _).after fun _ =>
        ih fun parts hparts => hrest _ (.cons hpart hparts)

theorem choiceBodies_indexes {endLabel : String} {parts : List (String × Writer Unit)}
    (hparts : PartsIndex symbols parts arrays) :
    (parts.forM fun (label, part) => do
      placeLabel label
      part
      emit [Opcode.jump.named endLabel]).Indexes symbols arrays := by
  induction hparts with
  | nil => exact .pure ()
  | cons hpart _ ih =>
    exact (Declares.place.after fun _ => hpart.before fun _ => .emit _).bind fun _ => ih

theorem choose_indexes {condition : Expr} {choices : List ChoicePart} {position : Position}
    {inline behind : List String} (hc : ChoicesIndex symbols choices inline behind) :
    (choose env ctx condition choices position).Indexes symbols (inline ++ behind) := by
  refine Declares.mark.after fun _ => .lift fun type _ => .lift fun t _ =>
    Declares.emitLowered.after fun _ => ?_
  split
  next hempty =>
    cases hc with
    | nil => exact .emit _
    | inline | behind => cases hempty
  next =>
    exact Declares.fresh.after fun endLabel => choiceHeads_indexes hc fun parts hparts =>
      (Declares.emit _).after fun _ => (choiceBodies_indexes hparts).before fun _ =>
      Declares.removeLatest.after fun _ => Declares.place.after fun _ => .emit _

/-! ## Loops -/

variable {body : LoopBody}

theorem constantLoop_indexes {r : ConstantRange} {counter : Counter} {t : DataType} {scope : String}
    (hb : ∀ labels, (body labels).Indexes symbols arrays) :
    (constantLoop r counter t scope body).Indexes symbols arrays :=
  .lift fun _ _ => .frame fun _ => (Declares.emit _).after fun _ => Declares.place.after fun _ =>
    (hb _).before fun _ => Declares.place.after fun _ => Declares.emitLowered.after fun _ =>
    (Declares.emit _).after fun _ => .close

theorem variableLoop_indexes {first last step : Expr} {counter : Counter} {t : DataType} {scope : String}
    {position : Position} (hb : ∀ labels, (body labels).Indexes symbols arrays) :
    (variableLoop env first last step counter t scope position body).Indexes symbols arrays :=
  .lift fun _ _ => .lift fun _ _ => Declares.emitLowered.after fun _ => .frame fun _ =>
    Declares.place.after fun _ => Declares.mark.after fun _ => .lift fun _ _ =>
    Declares.emitLowered.after fun _ => .lift fun _ _ => jump_indexes.after fun _ =>
    (hb _).before fun _ => Declares.place.after fun _ => Declares.emitLowered.after fun _ =>
    Declares.emitLowered.after fun _ => (Declares.emit _).after fun _ => .close

/-- The loop over elements is the one that has an index. -/
theorem elementLoop_indexes {array : String} {counter : Counter} {t : DataType} {scope : String}
    (hb : ∀ labels, (body labels).Indexes symbols arrays) :
    (elementLoop symbols array counter t scope body).Indexes symbols (array :: arrays) := by
  unfold elementLoop
  split
  · exact .throw_bind
  · exact .lift fun _ hr => .index hr fun _ => .frame fun _ => (Declares.emit _).after fun _ =>
      Declares.place.after fun _ => Declares.emitLowered.after fun _ => (hb _).before fun _ =>
      Declares.place.after fun _ => (Declares.emit _).after fun _ => .close

theorem forLoop_indexes {register : Option Register} {variableName : Option String} {iterable : Expr}
    {scope : String} {position : Position} (hb : ∀ labels, (body labels).Indexes env.symbols arrays) :
    (forLoop env register variableName iterable scope position body).Indexes env.symbols
      (iterable.array?.toList ++ arrays) := by
  refine Declares.mark.after fun _ => .lift fun (counter, t) _ => ?_
  cases iterable with
  | range first last step =>
    cases h : ConstantRange.ofExprs? env.symbols first last step with
    | some r => simpa [h, Expr.array?] using constantLoop_indexes hb
    | none => simpa [h, Expr.array?] using variableLoop_indexes hb
  | var name => exact elementLoop_indexes hb
  | _ => exact .throw

theorem whileLoop_indexes {condition : Expr} {scope : String} {position : Position}
    (hb : ∀ labels, (body labels).Indexes symbols arrays) :
    (whileLoop env condition scope position body).Indexes symbols arrays :=
  Declares.fresh.after fun _ => Declares.fresh.after fun _ => Declares.fresh.after fun _ =>
    Declares.mark.after fun _ => .lift fun _ _ => .lift fun _ _ => (Declares.emit _).after fun _ =>
    Declares.place.after fun _ => (hb _).before fun _ => Declares.place.after fun _ =>
    Declares.emitLowered.after fun _ => (Declares.emit _).after fun _ => .close

theorem repeatLoop_indexes {condition : Expr} {scope : String} {position : Position}
    (hb : ∀ labels, (body labels).Indexes symbols arrays) :
    (repeatLoop env condition scope position body).Indexes symbols arrays :=
  .frame fun _ => Declares.mark.after fun _ => .lift fun _ _ => .lift fun _ _ =>
    Declares.place.after fun _ => (hb _).before fun _ => Declares.place.after fun _ =>
    Declares.emitLowered.after fun _ => (Declares.emit _).after fun _ => .close

/-! ## Other statements -/

theorem assign_indexes {p : Place} {value : Expr} {position : Position} :
    (env.assign p value position).Indexes symbols [] := by
  refine Declares.mark.after fun _ => ?_
  cases value <;> exact .emitLowered

theorem exit_indexes {kind : LoopExit} {position : Position} :
    (env.exit ctx kind position).Indexes symbols [] := by
  unfold Environment.exit
  split
  · exact .throw
  · exact Declares.mark.after fun _ => .emit _

theorem ret_indexes {values : List Expr} {position : Position} :
    (env.ret ctx values position).Indexes symbols [] := by
  unfold Environment.ret
  split
  · exact .throw_bind
  · exact (Declares.forM fun _ _ => .emitLowered).after fun _ => Declares.mark.after fun _ => .emit _

theorem assembly_indexes {text : String} {label : Option String} {position : Position} :
    (env.assembly text label position).Indexes symbols [] :=
  Declares.mark.after fun _ => .emit _

theorem directive_indexes {name : String} {args : List DirectiveArg} {position : Position} :
    (env.directive name args position).Indexes symbols [] := by
  unfold Environment.directive
  split
  · refine .lift fun file _ => .lift fun scope _ => ?_
    split
    · exact .throw
    · exact assembly_indexes
  · exact .lift fun _ _ => .lift fun _ _ => .lift fun _ _ => Declares.mark.after fun _ => .emit _
  · exact Declares.mark.after fun _ => .emit _
  · exact .pure ()

theorem subroutineDefinition_indexes {s : Signature} {body : List Statement} {position : Position}
    {writer : Writer Unit} (hb : writer.Indexes symbols (Statement.allIterated body)) :
    (subroutineDefinition env s body position writer).Indexes symbols (Statement.allIterated body) := by
  unfold subroutineDefinition
  cases s.address? with
  | some address =>
    by_cases hidle : body.all (·.isNop)
    · simp only [hidle, Bool.not_true, Bool.false_eq_true, if_false]
      rw [Statement.allIterated_of_nops hidle]
      exact .pointer
    · simp only [hidle, Bool.not_false, if_true]
      exact .throw_bind
  | none =>
    refine Declares.label.after fun _ => (Declares.emit _).after fun _ =>
      Declares.mark.after fun _ => ?_
    cases hsole : soleAssembly? body with
    | some sole =>
      rw [Statement.allIterated_of_soleAssembly hsole]
      exact assembly_indexes.after fun _ => .emit _
    | none => exact hb.before fun _ => .emit _

/-! ## Statements -/

mutual

/-- **A statement declares an index for each of its written loops over elements**, and no other
variable. -/
theorem Statement.lower_indexes (env : Environment) : ∀ (ctx : Context) (s : Statement),
    (s.lower env ctx).Indexes env.symbols s.iterated
  | _, .varDecl _ | _, .nop => .pure ()
  | _, .label _ _ => Declares.mark.after fun _ => .place
  | _, .assign _ _ _ => assign_indexes
  | _, .step _ _ _ | _, .call _ _ _ => Declares.mark.after fun _ => .emitLowered
  | _, .jump _ _ => jump_indexes
  | ctx, .cond _ thenPart elsePart _ =>
    conditional_indexes (thenPart.lower_indexes env ctx) (elsePart.lower_indexes env ctx)
  | ctx, .branch _ thenPart elsePart _ =>
    flagBranch_indexes (thenPart.lower_indexes env ctx) (elsePart.lower_indexes env ctx)
  | _, .exit _ _ => exit_indexes
  | ctx, .forEach _ _ _ body _ => by
    unfold Statement.lower Statement.iterated
    split
    · exact .pure ()
    · exact forLoop_indexes fun labels => body.lower_indexes env (ctx.inLoop labels)
  | ctx, .whileLoop _ body _ => by
    rw [Statement.lower, Statement.iterated]
    exact whileLoop_indexes fun labels => body.lower_indexes env (ctx.inLoop labels)
  | ctx, .repeatLoop body _ _ => by
    rw [Statement.lower, Statement.iterated]
    exact repeatLoop_indexes fun labels => body.lower_indexes env (ctx.inLoop labels)
  | ctx, .scope s => s.lower_indexes env ctx
  | _, .ret _ _ => ret_indexes
  | _, .returnFromIrq _ => Declares.mark.after fun _ => .emit _
  | _, .directive _ _ _ => by
    rw [Statement.lower, Statement.iterated]
    · exact directive_indexes
    all_goals nofun
  | _, .subroutine s body _ =>
    subroutineDefinition_indexes
      (Statement.lowerAll_indexes env { scope := s.name, returnTypes := s.returnTypes } body)
  | _, .assembly _ _ => assembly_indexes
  | ctx, .choose _ choices _ => by
    rw [Statement.lower, Statement.iterated]
    exact choose_indexes (Choice.lower_indexes env ctx choices)

theorem Scope.lower_indexes (env : Environment) : ∀ (ctx : Context) (s : Scope),
    (s.lower env ctx).Indexes env.symbols s.iterated
  | ctx, ⟨name, statements, position⟩ =>
    Statement.lowerAll_indexes env (ctx.inside ⟨name, statements, position⟩) statements

theorem Choice.lower_indexes (env : Environment) (ctx : Context) : ∀ choices : List Choice,
    ChoicesIndex env.symbols (Choice.parts env ctx choices) (Choice.iterated true choices)
      (Choice.iterated false choices)
  | [] => .nil
  | ⟨none, body⟩ :: rest => .inline (body.lower_indexes env ctx) (Choice.lower_indexes env ctx rest)
  | ⟨some _, body⟩ :: rest => .behind (body.lower_indexes env ctx) (Choice.lower_indexes env ctx rest)

theorem Statement.lowerAll_indexes (env : Environment) : ∀ (ctx : Context) (ss : List Statement),
    (Statement.lowerAll env ctx ss).Indexes env.symbols (Statement.allIterated ss)
  | _, [] => .pure ()
  | ctx, s :: rest =>
    (s.lower_indexes env ctx).bind fun _ => Statement.lowerAll_indexes env ctx rest

end

/-! ## Blocks -/

/-- The variable that a block gets for a declaration: a plain one, if it is no struct, and one for a
parameter. -/
def Declaration.declared? : Declaration → Option Variable
  | .var d =>
    if d.type ≠ .struct ∧ d.storage = .plain then some ⟨d.name, d.type, d.length⟩ else none
  | .parameter s p => some ⟨s.slot p, p.type, none⟩
  | .label _ | .subroutine .. => none

/-- The variables that are declared in a block, in the order of the declarations. -/
def Tree.Block.declared (b : Tree.Block) : List Variable :=
  (Declaration.ofList b.statements).filterMap (·.declared?)

/-- The arrays and strings that are iterated in a block. -/
def Tree.Block.iterated (b : Tree.Block) : List String := Statement.allIterated b.statements

theorem declareVars_declares (ds : List Declaration) :
    (declareVars ds).Declares symbols (ds.filterMap (·.declared?)) [] := by
  rw [List.filterMap_eq_flatMap_toList]
  induction ds with
  | nil => exact .pure ()
  | cons d ds ih =>
    rw [List.flatMap_cons]
    refine Declares.append ?_ fun _ => ih
    cases d with
    | var d =>
      obtain ⟨name, type, storage, length, members, position⟩ := d
      by_cases hstruct : type = .struct
      · simpa [Declaration.declared?, hstruct] using Declares.pure ()
      · cases storage with
        | plain =>
          simp only [Declaration.declared?, hstruct, if_false, ne_eq, not_false_eq_true, and_true,
            if_true, Option.toList_some]
          exact .modifyBlock fun _ => ⟨rfl, rfl⟩
        | const =>
          simp only [Declaration.declared?, hstruct, if_false, reduceCtorEq, and_false,
            Option.toList_none]
          exact .untouched fun _ => ⟨rfl, rfl⟩
        | memory address =>
          simp only [Declaration.declared?, hstruct, if_false, reduceCtorEq, and_false,
            Option.toList_none]
          exact .pointer
    | parameter s p => exact .modifyBlock fun _ => ⟨rfl, rfl⟩
    | label | subroutine => exact .pure ()

/-- One variable for each array that is iterated in the block, which is an index for it. -/
def Tree.Block.HasIndices (symbols : SymbolTable) (b : Tree.Block) (vs : List Variable) : Prop :=
  List.Forall₂ (fun array v => ∃ number, symbols.HasIndex array number v) b.iterated vs

/-- The names of the blocks so far, with their variables. -/
def Output.layout (out : Output) : List (String × List Variable) :=
  out.sink.program.blocks.map fun b => (b.name, b.vars)

/-- New blocks stand behind those that were there. Each has the variables that are declared in it, and
indices of its own. -/
def Output.LaysOut (symbols : SymbolTable) (bs : List Tree.Block) (out out' : Output) : Prop :=
  ∃ indices, symbols.Indices out.generated (bs.flatMap (·.iterated)) indices.flatten out'.generated ∧
    List.Forall₂ (Tree.Block.HasIndices symbols) bs indices ∧
    out'.layout = out.layout ++ bs.zipWith (fun b own => (b.name, b.declared ++ own)) indices

theorem Output.LaysOut.refl (out : Output) : out.LaysOut symbols [] out :=
  ⟨[], .nil (Nat.le_refl _), .nil, by simp⟩

theorem Output.LaysOut.append {bs bs' : List Tree.Block} {out mid out' : Output}
    (h : out.LaysOut symbols bs mid) (h' : mid.LaysOut symbols bs' out') :
    out.LaysOut symbols (bs ++ bs') out' := by
  obtain ⟨own, hindices, hall, hlayout⟩ := h
  obtain ⟨own', hindices', hall', hlayout'⟩ := h'
  refine ⟨own ++ own', ?_, List.rel_append hall hall', ?_⟩
  · rw [List.flatMap_append, List.flatten_append]
    exact hindices.append hindices'
  · rw [hlayout', hlayout, List.append_assoc, List.zipWith_append hall.length_eq]

theorem Output.layout_eq (out : Output) :
    out.layout = out.sink.closed.reverse.map (fun b => (b.name, b.vars)) ++ out.variables?.toList := by
  cases h : out.sink.current <;> simp [layout, variables?, Sink.program, OpenBlock.close, h]

theorem Tree.Block.lower_laysOut {b : Tree.Block} {out out' : Output} {u : Unit}
    (h : b.lower env out = .ok (u, out')) : out.LaysOut env.symbols [b] out' := by
  obtain ⟨v, opened, hopen, hrest⟩ := Writer.bind_ok_iff.1 h
  have hdeclares : Writer.Declares env.symbols (b.declared ++ []) b.iterated (do
      declareVars (Declaration.ofList b.statements)
      env.mark b.position
      Statement.lowerAll env { scope := b.name } b.statements) :=
    (declareVars_declares _).append fun _ => Declares.mark.after fun _ =>
      Statement.lowerAll_indexes env _ _
  obtain ⟨vs, hvs, hclosed, hvars⟩ := hdeclares.declared hrest
  simp only [perform_ok_iff, Sink.openBlock, SinkM.modify_ok_iff] at hopen
  obtain ⟨_, rfl, rfl⟩ := hopen
  refine ⟨[vs], ?_, .cons hvs.forall₂ .nil, ?_⟩
  · simpa [iterated] using hvs
  · rw [Output.layout_eq, hclosed, hvars, Output.layout_eq out]
    cases h : out.sink.current <;> simp [Output.variables?, OpenBlock.close, h]

/-! ## Programs -/

theorem Tree.steps_laysOut {t : Tree} {out out' : Output} {u : Unit}
    (h : t.steps env out = .ok (u, out')) : out.LaysOut env.symbols t.blocks out' :=
  steps_relates (R := fun bs out out' => out.LaysOut env.symbols bs out') .refl .append
    Tree.Block.lower_laysOut h

/-- **The variables of a program are those that it declares, and an index for each loop over elements.**
In each block the declared ones come first, in the order of their declarations, and then one index for
each array or string that a written loop goes through, in the order of the code. No two indices of a
program have the same name. -/
theorem Tree.program_variables {t : Tree} {c : Configuration} {loader : IncludeLoader} {p : Program}
    (h : t.program c loader = .ok p) : ∃ indices : List (List Variable),
      p.blocks.map (fun b => (b.name, b.vars)) =
        t.blocks.zipWith (fun b own => (b.name, b.declared ++ own)) indices ∧
      List.Forall₂ (Tree.Block.HasIndices (.ofTree t)) t.blocks indices ∧
      (indices.flatten.map (·.name)).Nodup := by
  obtain ⟨out, hrun, rfl⟩ := Tree.lower_ok_iff.1 h
  obtain ⟨indices, hindices, hall, hlayout⟩ := steps_laysOut hrun
  exact ⟨indices, hlayout, hall, hindices.names_nodup⟩

/-- A short array is gone through inside of a long one. The border lives at a fixed address. -/
def nestedArrays : Tree where
  name := "sample"
  loadAddress := none
  modules :=
    [{ name := "main"
       source := "main"
       blocks :=
        [{ name := "main"
           address := none
           options := []
           statements :=
            [.varDecl ⟨"main.border", .ubyte, .memory 53280, none, [], {}⟩,
              .varDecl ⟨"main.x", .ubyte, .plain, none, [], {}⟩,
              .varDecl ⟨"main.long", .array (.int .ubyte), .plain, some 300, [], {}⟩,
              .varDecl ⟨"main.short", .array (.int .ubyte), .plain, some 3, [], {}⟩,
              .forEach none (some "main.x") (.var "main.long")
                ⟨"", [.forEach none (some "main.border") (.var "main.short")
                  ⟨"", [.call "main.f" [.var "main.border"] {}], {}⟩ {}], {}⟩ {},
              .subroutine ⟨"main.f", [⟨"a", .ubyte⟩], [], none⟩ [.ret [] {}] {}]
           position := {} }] }]

theorem nestedArrays_variables : ∃ p, nestedArrays.program {} (.ofTexts []) = .ok p ∧
    p.blocks.map (·.vars.map fun v => (v.name, v.datatype)) =
      [[("main.x", .ubyte), ("main.long", .array (.int .ubyte)), ("main.short", .array (.int .ubyte)),
        ("main.f.a", .ubyte), ("main.<s-1-forloop_index>", .uword),
        ("main.<s-5-forloop_index>", .ubyte)]] ∧
    ∃ indices : List (List Variable),
      p.blocks.map (fun b => (b.name, b.vars)) =
        nestedArrays.blocks.zipWith (fun b own => (b.name, b.declared ++ own)) indices ∧
      List.Forall₂ (Tree.Block.HasIndices (.ofTree nestedArrays)) nestedArrays.blocks indices ∧
      (indices.flatten.map (·.name)).Nodup := by
  have hlowered : (nestedArrays.program {} (.ofTexts [])).toOption.map
      (·.blocks.map (·.vars.map fun v => (v.name, v.datatype))) =
      some [[("main.x", .ubyte), ("main.long", .array (.int .ubyte)),
        ("main.short", .array (.int .ubyte)), ("main.f.a", .ubyte),
        ("main.<s-1-forloop_index>", .uword), ("main.<s-5-forloop_index>", .ubyte)]] := by
    decide +kernel
  cases h : nestedArrays.program {} (.ofTexts []) with
  | error e => simp [h, Except.toOption] at hlowered
  | ok p =>
    rw [h] at hlowered
    exact ⟨p, rfl, Option.some.inj hlowered, nestedArrays.program_variables h⟩

end StackCode
