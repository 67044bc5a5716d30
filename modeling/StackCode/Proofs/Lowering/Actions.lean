/-
The actions of a program. Which ones there are can be read off the statements, and if the
program is lowered then each of them has code. What a statement is tested on is an integer.
-/
import StackCode.Proofs.Lowering.Program

namespace StackCode

/-! ## Actions of statements -/

/-- The actions of a loop itself. Constant ranges and elements are counted without one. -/
def Expr.counting (symbols : SymbolTable) (counter : Counter) : Expr → List Action
  | .range first last step =>
    match ConstantRange.ofExprs? symbols first last step, variableStep symbols step with
    | none, .ok op =>
      [.assign counter.place first,
        .evaluate (.binary counter.place.read (.comparison op.pastLast) last),
        .step counter.place op, .evaluate counter.place.read]
    | _, _ => []
  | _ => []

mutual

/-- The actions in the code of a statement, where a return gives results of these types. A choice on a
status flag that is written as its jumps has none, nor has a loop with nothing in it. -/
def Statement.actions (symbols : SymbolTable) (results : List DataType) : Statement → List Action
  | .assign p value _ => [.assign p value]
  | .step p op _ => [.step p op]
  | .call target args _ => [.call target args]
  | .cond condition thenPart elsePart _ =>
    .evaluate condition :: (thenPart.actions symbols results ++ elsePart.actions symbols results)
  | .branch _ thenPart elsePart _ =>
    if (branchJumps? thenPart elsePart).isSome then []
    else thenPart.actions symbols results ++ elsePart.actions symbols results
  | .forEach register variableName iterable body _ =>
    if body.isIdle then []
    else
      (match Counter.find symbols register variableName with
        | .ok (counter, _) => iterable.counting symbols counter
        | .error _ => []) ++ body.actions symbols results
  | .whileLoop condition body _ | .repeatLoop body condition _ =>
    .evaluate condition :: body.actions symbols results
  | .scope s => s.actions symbols results
  | .ret values _ => (values.zip results).map fun x => .give x.1 x.2
  | .subroutine s body _ => Statement.allActions symbols s.returnTypes body
  | .choose condition choices _ => .evaluate condition :: Choice.actions symbols results choices
  | _ => []

def Scope.actions (symbols : SymbolTable) (results : List DataType) : Scope → List Action
  | ⟨_, statements, _⟩ => Statement.allActions symbols results statements

def Choice.actions (symbols : SymbolTable) (results : List DataType) : List Choice → List Action
  | [] => []
  | ⟨_, body⟩ :: rest => body.actions symbols results ++ Choice.actions symbols results rest

def Statement.allActions (symbols : SymbolTable) (results : List DataType) :
    List Statement → List Action
  | [] => []
  | s :: rest => s.actions symbols results ++ Statement.allActions symbols results rest

end

/-- The actions of a program. What stands outside of subroutines returns nothing. -/
def Tree.actions (symbols : SymbolTable) (t : Tree) : List Action :=
  t.blocks.flatMap fun b => Statement.allActions symbols [] b.statements

variable {symbols : SymbolTable} {results : List DataType}

theorem Statement.allActions_eq_nil {ss : List Statement}
    (h : ∀ s ∈ ss, s.actions symbols results = []) : allActions symbols results ss = [] := by
  induction ss with
  | nil => rfl
  | cons s ss ih =>
    rw [allActions, h s List.mem_cons_self, List.nil_append]
    exact ih fun x hx => h x (List.mem_cons_of_mem _ hx)

theorem Statement.allActions_of_nops {ss : List Statement} (h : ss.all (·.isNop)) :
    allActions symbols results ss = [] :=
  allActions_eq_nil fun _ hs => by rw [eq_nop_of_all h hs]; rfl

theorem Scope.actions_of_isIdle : ∀ {s : Scope}, s.isIdle → s.actions symbols results = []
  | ⟨_, _, _⟩, h => Statement.allActions_of_nops h

theorem Scope.actions_of_onlyJump {s : Scope} {jump : JumpTarget × Position}
    (h : s.onlyJump? = some jump) : s.actions symbols results = [] := by
  have hs : s.statements = [.jump jump.1 jump.2] := onlyJump?_ok h
  obtain ⟨name, statements, position⟩ := s
  subst hs
  rfl

/-- There are no actions in a subroutine that is all assembly. -/
theorem Statement.allActions_of_soleAssembly {body : List Statement} {sole : String × Position}
    (h : soleAssembly? body = some sole) : allActions symbols results body = [] := by
  refine allActions_eq_nil fun s hs => ?_
  obtain ⟨d, rfl⟩ | rfl | ⟨text, position, rfl⟩ := soleAssembly?_ok h hs <;> rfl

/-! ## Parts -/

/-- The action has code. A value that is looked at there and then is an integer. -/
def Action.IsDone (symbols : SymbolTable) (a : Action) : Prop :=
  (∃ code, a.code symbols = .ok code) ∧
    ∀ e, a = .evaluate e → ∃ t : IntType, e.type? symbols = some (.int t)

/-- Wherever the part is written, this is so. -/
structure Part.Ensures (p : Part) (Q : Prop) : Prop where
  holds : ∀ {n ps n'}, p n ps n' → Q

/-- Wherever the part is written, these actions are done. -/
abbrev Part.Does (symbols : SymbolTable) (p : Part) (as : List Action) : Prop :=
  p.Ensures (∀ a ∈ as, a.IsDone symbols)

namespace Part

variable {p q : Part} {Q R : Prop} {as bs : List Action}

namespace Ensures

theorem of (h : Q) : p.Ensures Q := ⟨fun _ => h⟩

theorem imp (h : p.Ensures Q) (hQ : Q → R) : p.Ensures R := ⟨fun hp => hQ (h.holds hp)⟩

theorem and (h : p.Ensures Q) (h' : p.Ensures R) : p.Ensures (Q ∧ R) :=
  ⟨fun hp => ⟨h.holds hp, h'.holds hp⟩⟩

/-- In front of another part. -/
theorem before (h : p.Ensures Q) : (p ++ q).Ensures Q where
  holds hpq := by
    obtain ⟨_, _, _, hp, -⟩ := hpq
    exact h.holds hp

/-- Behind another part. -/
theorem behind (h : q.Ensures Q) : (p ++ q).Ensures Q where
  holds hpq := by
    obtain ⟨_, _, _, -, hq, -⟩ := hpq
    exact h.holds hq

theorem given {α : Type} {x : Lowered α} {f : α → Part} (h : ∀ a, x = .ok a → (f a).Ensures Q) :
    (Part.given x f).Ensures Q where
  holds hp := by
    obtain ⟨a, hx, hp⟩ := hp
    exact (h a hx).holds hp

theorem fresh {scope suffix : String} {f : String → Part} (h : ∀ l, (f l).Ensures Q) :
    (Part.fresh scope suffix f).Ensures Q :=
  ⟨fun hp => (h _).holds hp⟩

theorem frame {scope : String} {f : LoopFrame → Part} (h : ∀ l, (f l).Ensures Q) :
    (Part.frame scope f).Ensures Q :=
  fresh fun _ => fresh fun _ => fresh fun _ => h _

theorem act {a : Action} : (Part.act symbols a).Ensures (∃ code, a.code symbols = .ok code) :=
  given fun code hc => of ⟨code, hc⟩

/-- An action that is no look at a value. -/
theorem done {a : Action} (h : p.Ensures (∃ code, a.code symbols = .ok code))
    (ha : ∀ e, a ≠ .evaluate e) : p.Ensures (a.IsDone symbols) :=
  h.imp fun hcode => ⟨hcode, fun e he => absurd he (ha e)⟩

/-- A look at a value. -/
theorem evaluated {e : Expr} (h : p.Ensures (∃ code, e.code symbols = .ok code))
    (ht : p.Ensures (∃ t : IntType, e.type? symbols = some (.int t))) :
    p.Ensures ((Action.evaluate e).IsDone symbols) :=
  (h.and ht).imp fun ⟨hcode, ht⟩ => ⟨hcode, fun _ he => by cases he; exact ht⟩

theorem nil : p.Does symbols [] := .of (List.forall_mem_nil _)

theorem cons {a : Action} (h : p.Ensures (a.IsDone symbols)) (h' : p.Does symbols as) :
    p.Does symbols (a :: as) :=
  (h.and h').imp List.forall_mem_cons.2

theorem append (h : p.Does symbols as) (h' : p.Does symbols bs) : p.Does symbols (as ++ bs) :=
  (h.and h').imp List.forall_mem_append.2

/-- One action, which is no look at a value. -/
theorem single {a : Action} (ha : ∀ e, a ≠ .evaluate e) : (Part.act symbols a).Does symbols [a] :=
  cons (.done .act ha) nil

/-- One action at a time. -/
theorem of_each (h : ∀ a ∈ as, p.Ensures (a.IsDone symbols)) : p.Does symbols as :=
  ⟨fun hp a ha => (h a ha).holds hp⟩

end Ensures
end Part

/-! ## Conditions -/

/-- What a jump tests is an integer. -/
theorem exists_int_of_jumpZeroFor {e : Expr} {t : DataType} {op : Opcode}
    (ht : e.needType symbols = .ok t) (h : Opcode.jumpZeroFor t = .ok op) :
    ∃ i : IntType, e.type? symbols = some (.int i) := by
  obtain ⟨i, rfl, -⟩ := Opcode.jumpZeroFor_ok h
  exact ⟨i, Expr.needType_ok_iff.1 ht⟩

theorem exists_int_of_jumpNonzeroFor {e : Expr} {t : DataType} {op : Opcode}
    (ht : e.needType symbols = .ok t) (h : Opcode.jumpNonzeroFor t = .ok op) :
    ∃ i : IntType, e.type? symbols = some (.int i) := by
  obtain ⟨i, rfl, -⟩ := Opcode.jumpNonzeroFor_ok h
  exact ⟨i, Expr.needType_ok_iff.1 ht⟩

variable {env : Environment} {ctx : Context} {Q : Prop} {as bs : List Action}

theorem alternatives_does {away : Opcode} {elseLabel endLabel : String} {elseIdle : Bool}
    {thenPart elsePart : Part} (ht : thenPart.Does symbols as) (he : elsePart.Does symbols bs)
    (hidle : elseIdle → bs = []) :
    (Part.alternatives away elseLabel endLabel elseIdle thenPart elsePart).Does symbols (as ++ bs) := by
  unfold Part.alternatives
  split
  next h =>
    rw [hidle h, List.append_nil]
    exact .behind (.before ht)
  next => exact .append (.behind (.before ht)) (.behind (.behind (.behind (.behind (.before he)))))

theorem conditional_does {condition : Expr} {thenScope elseScope : Scope} {thenPart elsePart : Part}
    (ht : thenPart.Does env.symbols (thenScope.actions env.symbols results))
    (he : elsePart.Does env.symbols (elseScope.actions env.symbols results)) :
    (Part.conditional env ctx condition thenScope elseScope thenPart elsePart).Does env.symbols
      (.evaluate condition ::
        (thenScope.actions env.symbols results ++ elseScope.actions env.symbols results)) := by
  unfold Part.conditional
  cases hjump : thenScope.onlyJump? with
  | some jump =>
    rw [Scope.actions_of_onlyJump hjump, List.nil_append]
    exact .cons (.evaluated (.given fun _ _ => .before .act) (.given fun t ht =>
      .behind (.given fun op hop => .of (exists_int_of_jumpNonzeroFor ht hop))))
      (.given fun _ _ => .behind (.given fun _ _ => .behind he))
  | none =>
    refine .cons (.evaluated (.given fun _ _ => .before .act) (.given fun t ht =>
      .behind (.given fun op hop => .of (exists_int_of_jumpZeroFor ht hop))))
      (.given fun _ _ => .behind (.given fun _ _ => .fresh fun _ => ?_))
    cases hidle : elseScope.isIdle with
    | true =>
      rw [if_pos rfl]
      exact alternatives_does ht he fun _ => Scope.actions_of_isIdle hidle
    | false =>
      rw [if_neg Bool.false_ne_true]
      exact .fresh fun _ => alternatives_does ht he nofun

theorem flagBranch_does {test : FlagTest} {thenScope elseScope : Scope} {thenPart elsePart : Part}
    (ht : thenPart.Does symbols (thenScope.actions symbols results))
    (he : elsePart.Does symbols (elseScope.actions symbols results)) :
    (Part.flagBranch env ctx test thenScope elseScope thenPart elsePart).Does symbols
      (if (branchJumps? thenScope elseScope).isSome then []
        else thenScope.actions symbols results ++ elseScope.actions symbols results) := by
  unfold Part.flagBranch
  by_cases hidle : (thenScope.isIdle && elseScope.isIdle) = true
  · rw [Bool.and_eq_true] at hidle
    rw [Scope.actions_of_isIdle hidle.1, Scope.actions_of_isIdle hidle.2, List.append_nil, ite_self]
    exact .nil
  · rw [if_neg hidle]
    cases branchJumps? thenScope elseScope with
    | some jumps => exact .nil
    | none =>
      exact .fresh fun _ => .fresh fun _ =>
        alternatives_does ht he fun hidle => Scope.actions_of_isIdle hidle

/-! ## Many parts -/

/-- The part of a choice is written among the tests, or behind them. -/
theorem choiceHeads_ensures {scope : String} {t : IntType} {choices : List (Option (List Expr) × Part)}
    {c : Option (List Expr) × Part} (hc : c ∈ choices) (hQ : c.2.Ensures Q) {n n' : Nat}
    {ps : List Piece} {parts : List (String × Part)}
    (h : Part.choiceHeads symbols scope t choices n ps n' parts) : Q ∨ ∃ p ∈ parts, p.2.Ensures Q := by
  induction choices generalizing n ps parts with
  | nil => cases hc
  | cons choice choices ih =>
    obtain ⟨_ | values, part⟩ := choice
    · obtain ⟨_, _, _, hpart, hrest, -⟩ := h
      rcases List.mem_cons.1 hc with rfl | hc
      · exact .inl (hQ.holds hpart)
      · exact ih hc hrest
    · obtain ⟨_, _, _, _, parts', -, -, hrest, -, rfl⟩ := h
      rcases List.mem_cons.1 hc with rfl | hc
      · exact .inr ⟨_, List.mem_cons_self, hQ⟩
      · exact (ih hc hrest).imp_right fun ⟨p, hp, hQ⟩ => ⟨p, List.mem_cons_of_mem _ hp, hQ⟩

theorem choiceBodies_ensures {endLabel : String} {parts : List (String × Part)} {p : String × Part}
    (hp : p ∈ parts) (hQ : p.2.Ensures Q) : (Part.choiceBodies endLabel parts).Ensures Q := by
  induction parts with
  | nil => cases hp
  | cons q parts ih =>
    rcases List.mem_cons.1 hp with rfl | hp
    · exact .behind (.behind (.before hQ))
    · exact .behind (.behind (.behind (ih hp)))

theorem choose_does {condition : Expr} {choices : List (Option (List Expr) × Part)}
    (h : ∀ a ∈ as, ∃ c ∈ choices, c.2.Ensures (a.IsDone env.symbols)) :
    (Part.choose env ctx condition choices).Does env.symbols (.evaluate condition :: as) := by
  refine .cons (.evaluated (.given fun _ _ => .given fun _ _ => .before .act) (.given fun t ht =>
    .given fun i hi => .of ⟨i, ?_⟩)) (.of_each fun a ha => .given fun _ _ => .given fun t _ => .behind ?_)
  · rw [orInvalid_ok_iff] at hi
    rw [Expr.needType_ok_iff] at ht
    rcases t with (_ | _) | _ | _ | _ | _ <;> cases hi
    exact ht
  · obtain ⟨c, hc, hdone⟩ := h a ha
    split
    next hempty =>
      rw [List.isEmpty_iff.1 hempty] at hc
      cases hc
    next =>
      refine .fresh fun endLabel => ⟨fun hp => ?_⟩
      obtain ⟨_, _, _, parts, hheads, hbodies, -⟩ := hp
      obtain hdone | ⟨p, hp, hdone⟩ := choiceHeads_ensures hc hdone hheads
      · exact hdone
      · exact (choiceBodies_ensures hp hdone).before.holds hbodies

/-! ## Loops -/

variable {body : LoopLabels → Part}

theorem variableLoop_does {first last step : Expr} {counter : Counter} {t : DataType} {scope : String}
    (ht : counter.place.read.type? env.symbols = some t)
    (hconstant : ConstantRange.ofExprs? env.symbols first last step = none)
    (hb : ∀ labels, (body labels).Does env.symbols as) :
    (Part.variableLoop env first last step counter t scope body).Does env.symbols
      ((Expr.range first last step).counting env.symbols counter ++ as) := by
  refine .given fun op hop => .given fun goOn hgo => ?_
  have hcounter : ∃ i : IntType, counter.place.read.type? env.symbols = some (.int i) := by
    obtain ⟨i, rfl, -⟩ := Opcode.jumpNonzeroFor_ok hgo
    exact ⟨i, ht⟩
  simp only [Expr.counting, hconstant, hop, List.cons_append, List.nil_append]
  refine .cons (.before (.done .act nofun)) (.cons (.behind (.frame fun _ => .behind (.evaluated ?_ ?_)))
    (.cons ?_ (.cons ?_ ?_)))
  · exact .given fun _ _ => .before .act
  · exact .given fun t ht => .behind (.given fun op hop => .of (exists_int_of_jumpNonzeroFor ht hop))
  · exact .behind (.frame fun _ => .behind (.given fun _ _ => .behind (.given fun _ _ => .behind
      (.behind (.behind (.before (.done .act nofun)))))))
  · exact .behind (.frame fun _ => .behind (.given fun _ _ => .behind (.given fun _ _ => .behind
      (.behind (.behind (.behind (.before (.evaluated .act (.of hcounter)))))))))
  · exact .behind (.frame fun _ => .behind (.given fun _ _ => .behind (.given fun _ _ => .behind
      (.before (hb _)))))

theorem forLoop_does {register : Option Register} {variableName : Option String} {iterable : Expr}
    {scope : String} (hb : ∀ labels, (body labels).Does env.symbols as) :
    (Part.forLoop env register variableName iterable scope body).Does env.symbols
      ((match Counter.find env.symbols register variableName with
        | .ok (counter, _) => iterable.counting env.symbols counter
        | .error _ => []) ++ as) := by
  refine .given fun found hfound => ?_
  obtain ⟨counter, t⟩ := found
  simp only [hfound]
  cases iterable with
  | range first last step =>
    cases h : ConstantRange.ofExprs? env.symbols first last step with
    | some r =>
      simp only [Expr.counting, h, List.nil_append]
      exact .given fun _ _ => .frame fun _ => .behind (.behind (.before (hb _)))
    | none =>
      simp only [h]
      exact variableLoop_does (Counter.type?_read_of_find hfound) h hb
  | var name =>
    exact .given fun _ _ => .fresh fun _ => .frame fun _ => .behind (.behind (.behind (.before (hb _))))
  | _ => exact ⟨False.elim⟩

theorem whileLoop_does {condition : Expr} {scope : String}
    (hb : ∀ labels, (body labels).Does env.symbols as) :
    (Part.whileLoop env condition scope body).Does env.symbols (.evaluate condition :: as) :=
  .fresh fun _ => .fresh fun _ => .fresh fun _ => .given fun _ ht => .given fun _ hgo =>
    .cons (.behind (.behind (.behind (.behind (.before
      (.evaluated .act (.of (exists_int_of_jumpNonzeroFor ht hgo))))))))
      (.behind (.behind (.before (hb _))))

theorem repeatLoop_does {condition : Expr} {scope : String}
    (hb : ∀ labels, (body labels).Does env.symbols as) :
    (Part.repeatLoop env condition scope body).Does env.symbols (.evaluate condition :: as) :=
  .frame fun _ => .given fun _ ht => .given fun _ hgo =>
    .cons (.behind (.behind (.behind (.before
      (.evaluated .act (.of (exists_int_of_jumpZeroFor ht hgo))))))) (.behind (.before (hb _)))

/-! ## Other statements -/

theorem ret_does {values : List Expr} :
    (Part.ret env ctx values).Does env.symbols
      ((values.zip ctx.returnTypes).map fun x => .give x.1 x.2) := by
  have hgives (xs : List (Expr × DataType)) :
      (Part.gives env.symbols xs).Does env.symbols (xs.map fun x => .give x.1 x.2) := by
    induction xs with
    | nil => exact .nil
    | cons x xs ih => exact .cons (.before (.done .act nofun)) (.behind ih)
  refine ⟨fun ⟨_, h⟩ a ha => ?_⟩
  refine (hgives _).before.holds h a ?_
  rwa [List.map_reverse, List.mem_reverse]

theorem subroutine_does {s : Signature} {statements : List Statement} {part : Part}
    (hb : part.Does symbols (Statement.allActions symbols results statements)) :
    (Part.subroutine s statements part).Does symbols
      (Statement.allActions symbols results statements) := by
  unfold Part.subroutine
  cases s.address? with
  | some address =>
    refine ⟨fun ⟨hnops, _⟩ => ?_⟩
    rw [Statement.allActions_of_nops hnops]
    exact List.forall_mem_nil _
  | none =>
    refine .behind (.behind (.before ?_))
    unfold Part.subroutineBody
    split
    next sole hsole =>
      rw [Statement.allActions_of_soleAssembly hsole]
      exact .nil
    next => exact hb

/-! ## Statements -/

mutual

/-- **What a statement writes is done**: each of its actions has code. -/
theorem Statement.emits_does (env : Environment) : ∀ (ctx : Context) (s : Statement),
    (s.emits env ctx).Does env.symbols (s.actions env.symbols ctx.returnTypes)
  | _, .varDecl _ | _, .label _ _ | _, .jump _ _ | _, .exit _ _ | _, .returnFromIrq _
  | _, .directive _ _ _ | _, .assembly _ _ | _, .nop => .nil
  | _, .assign _ _ _ | _, .step _ _ _ | _, .call _ _ _ => .single nofun
  | ctx, .cond _ thenPart elsePart _ =>
    conditional_does (thenPart.emits_does env ctx) (elsePart.emits_does env ctx)
  | ctx, .branch _ thenPart elsePart _ =>
    flagBranch_does (thenPart.emits_does env ctx) (elsePart.emits_does env ctx)
  | ctx, .forEach _ _ _ body _ => by
    unfold Statement.emits Statement.actions
    split
    · exact .nil
    · exact forLoop_does fun labels => body.emits_does env (ctx.inLoop labels)
  | ctx, .whileLoop _ body _ => by
    rw [Statement.emits, Statement.actions]
    exact whileLoop_does fun labels => body.emits_does env (ctx.inLoop labels)
  | ctx, .repeatLoop body _ _ => by
    rw [Statement.emits, Statement.actions]
    exact repeatLoop_does fun labels => body.emits_does env (ctx.inLoop labels)
  | ctx, .scope s => s.emits_does env ctx
  | _, .ret _ _ => ret_does
  | _, .subroutine s body _ =>
    subroutine_does
      (Statement.emitsAll_does env { scope := s.name, returnTypes := s.returnTypes } body)
  | ctx, .choose _ choices _ => choose_does (Choice.emits_does env ctx choices)

theorem Scope.emits_does (env : Environment) : ∀ (ctx : Context) (s : Scope),
    (s.emits env ctx).Does env.symbols (s.actions env.symbols ctx.returnTypes)
  | ctx, ⟨name, statements, position⟩ =>
    Statement.emitsAll_does env (ctx.inside ⟨name, statements, position⟩) statements

theorem Choice.emits_does (env : Environment) (ctx : Context) : ∀ choices : List Choice,
    ∀ a ∈ Choice.actions env.symbols ctx.returnTypes choices,
      ∃ c ∈ Choice.emits env ctx choices, c.2.Ensures (a.IsDone env.symbols)
  | [] => List.forall_mem_nil _
  | ⟨values, body⟩ :: rest => by
    intro a ha
    rcases List.mem_append.1 ha with ha | ha
    · exact ⟨_, List.mem_cons_self, (body.emits_does env ctx).imp fun h => h a ha⟩
    · obtain ⟨c, hc, hdone⟩ := Choice.emits_does env ctx rest a ha
      exact ⟨c, List.mem_cons_of_mem _ hc, hdone⟩

theorem Statement.emitsAll_does (env : Environment) : ∀ (ctx : Context) (ss : List Statement),
    (Statement.emitsAll env ctx ss).Does env.symbols
      (Statement.allActions env.symbols ctx.returnTypes ss)
  | _, [] => .nil
  | ctx, s :: rest =>
    .append (.before (s.emits_does env ctx)) (.behind (Statement.emitsAll_does env ctx rest))

end

/-! ## Programs -/

/-- **Every action of a program that is lowered has code**, and what it tests is an integer. -/
theorem Tree.lower_does {t : Tree} {p : Program} (h : t.lower env = .ok p) :
    ∀ a ∈ t.actions env.symbols, a.IsDone env.symbols := by
  intro a ha
  obtain ⟨b, hb, ha⟩ := List.mem_flatMap.1 ha
  obtain ⟨out, -, hout⟩ := exists_of_mem_right (lower_blocks h).flip hb
  obtain ⟨source, n, ps, n', hps, -⟩ := hout.entries
  exact (Statement.emitsAll_does { env with source } { scope := b.name } b.statements).holds hps a ha

end StackCode
