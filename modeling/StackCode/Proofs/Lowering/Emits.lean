/-
What each statement writes, as a part. The parts follow the statements as the lowering
does, but nothing in them depends on what was written before: the sink, the line
markers and the errors are gone, and only the count of generated labels is left.

The result is that lowering a statement, if it succeeds, writes a part of that
statement and nothing else.
-/
import StackCode.Proofs.Lowering.Part
import StackCode.Proofs.Lowering.Shape

namespace StackCode

namespace Part

/-! ## Choices -/

/-- Two parts behind a jump. -/
def alternatives (away : Opcode) (elseLabel endLabel : String) (elseIdle : Bool)
    (thenPart elsePart : Part) : Part :=
  if elseIdle then ops [away.named endLabel] ++ (thenPart ++ close endLabel)
  else
    ops [away.named elseLabel] ++ (thenPart ++ (ops [Opcode.jump.named endLabel] ++
      (place elseLabel ++ (elsePart ++ close endLabel))))

def jump (env : Environment) (op : Opcode) (target : JumpTarget) : Part :=
  given (env.jumpInstruction op target) fun i => ops [i]

def conditional (env : Environment) (ctx : Context) (condition : Expr) (thenScope elseScope : Scope)
    (thenPart elsePart : Part) : Part :=
  given (condition.needType env.symbols) fun t =>
    act env.symbols (.evaluate condition) ++
      match thenScope.onlyJump? with
      | some (target, _) =>
        given (Opcode.jumpNonzeroFor t) fun op => jump env op target ++ elsePart
      | none =>
        given (Opcode.jumpZeroFor t) fun away =>
          fresh ctx.scope "if_end" fun endLabel =>
            if elseScope.isIdle then alternatives away endLabel endLabel true thenPart elsePart
            else
              fresh ctx.scope "else" fun elseLabel =>
                alternatives away elseLabel endLabel false thenPart elsePart

def flagBranch (env : Environment) (ctx : Context) (test : FlagTest) (thenScope elseScope : Scope)
    (thenPart elsePart : Part) : Part :=
  if thenScope.isIdle && elseScope.isIdle then just []
  else
    match branchJumps? thenScope elseScope with
    | some ((target, _), elseJump) =>
      jump env (.branch test) target ++
        match elseJump with
        | some (target, _) => jump env (.branch test.complement) target
        | none => just []
    | none =>
      fresh ctx.scope "else" fun elseLabel =>
        fresh ctx.scope "branch_end" fun endLabel =>
          alternatives (.branch test.complement) elseLabel endLabel elseScope.isIdle thenPart elsePart

/-- The tests of all choices. What is still to be written comes out as well: labels with their
parts. -/
def choiceHeads (symbols : SymbolTable) (scope : String) (t : IntType) :
    List (Option (List Expr) × Part) → Nat → List Piece → Nat → List (String × Part) → Prop
  | [], n, ps, n', parts => ps = [] ∧ n' = n ∧ parts = []
  | (none, part) :: rest, n, ps, n', parts =>
    ∃ ps₁ m ps₂, part n ps₁ m ∧ choiceHeads symbols scope t rest m ps₂ n' parts ∧ ps = ps₁ ++ ps₂
  | (some values, part) :: rest, n, ps, n', parts =>
    ∃ v vs label ps₂ parts', choiceValues symbols t values = .ok (v :: vs) ∧
      label = labelName scope s!"choice_{v.int?.getD 0}" (n + 1) ∧
      choiceHeads symbols scope t rest (n + 1) ps₂ n' parts' ∧
      ps = (choiceTests t label (v :: vs)).map Piece.op ++ ps₂ ∧ parts = (label, part) :: parts'

/-- The parts of the choices, each behind a jump over it. -/
def choiceBodies (endLabel : String) : List (String × Part) → Part
  | [] => just []
  | (label, part) :: rest =>
    ops [Opcode.jump.named endLabel] ++ (place label ++ (part ++ choiceBodies endLabel rest))

def choose (env : Environment) (ctx : Context) (condition : Expr)
    (choices : List (Option (List Expr) × Part)) : Part :=
  given (condition.needType env.symbols) fun type =>
    given (orInvalid "when" type type.int?) fun t =>
      act env.symbols (.evaluate condition) ++
        if choices.isEmpty then ops [(Opcode.discard (.int t.size)).plain]
        else
          fresh ctx.scope "when_end" fun endLabel => fun n ps n' =>
            ∃ ps₁ m ps₂ parts, choiceHeads env.symbols ctx.scope t choices n ps₁ m parts ∧
              (choiceBodies endLabel parts ++ (place endLabel ++
                ops [(Opcode.discard (.int t.size)).plain])) m ps₂ n' ∧
              ps = ps₁ ++ ps₂

/-! ## Loops -/

def frame (scope : String) (f : LoopFrame → Part) : Part :=
  fresh scope "loop" fun start =>
    fresh scope "continue" fun next =>
      fresh scope "break" fun leave => f { start, next, leave }

def constantLoop (r : ConstantRange) (counter : Counter) (t : DataType) (scope : String)
    (body : LoopLabels → Part) : Part :=
  given (r.check t) fun t =>
    frame scope fun f =>
      ops (r.initCode t counter.name) ++ (place f.start ++ (body f.labels ++ (place f.next ++
        (given (r.stepCode t counter.name) ops ++
          (ops (r.testCode t counter.name f.start) ++ close f.leave)))))

def variableLoop (env : Environment) (first last step : Expr) (counter : Counter) (t : DataType)
    (scope : String) (body : LoopLabels → Part) : Part :=
  let isPast (op : Increment) := Expr.binary counter.place.read (.comparison op.pastLast) last
  given (variableStep env.symbols step) fun op =>
    given (Opcode.jumpNonzeroFor t) fun goOn =>
      act env.symbols (.assign counter.place first) ++
        frame scope fun f =>
          place f.start ++
            given ((isPast op).needType env.symbols) fun conditionType =>
              act env.symbols (.evaluate (isPast op)) ++
                given (Opcode.jumpNonzeroFor conditionType) fun leave =>
                  jump env leave (.generated f.leave) ++ (body f.labels ++ (place f.next ++
                    (act env.symbols (.step counter.place op) ++
                      (act env.symbols (.evaluate counter.place.read) ++
                        (ops [goOn.named f.start] ++ close f.leave)))))

def elementLoop (symbols : SymbolTable) (array : String) (counter : Counter) (t : DataType)
    (scope : String) (body : LoopLabels → Part) : Part :=
  given (ElementRange.find symbols array) fun r =>
    fresh scope "forloop_index" fun index =>
      frame scope fun f =>
        ops (r.initCode index) ++ (place f.start ++
          (given (r.fetchCode symbols index counter t) ops ++ (body f.labels ++ (place f.next ++
            (ops (r.stepCode index f.start) ++ close f.leave)))))

def forLoop (env : Environment) (register : Option Register) (variableName : Option String)
    (iterable : Expr) (scope : String) (body : LoopLabels → Part) : Part :=
  given (Counter.find env.symbols register variableName) fun (counter, t) =>
    match iterable with
    | .range first last step =>
      match ConstantRange.ofExprs? env.symbols first last step with
      | some r => constantLoop r counter t scope body
      | none => variableLoop env first last step counter t scope body
    | .var name => elementLoop env.symbols name counter t scope body
    | _ => fun _ _ _ => False

def whileLoop (env : Environment) (condition : Expr) (scope : String) (body : LoopLabels → Part) :
    Part :=
  fresh scope "loop" fun start =>
    fresh scope "break" fun leave =>
      fresh scope "continue" fun next =>
        given (condition.needType env.symbols) fun t =>
          given (Opcode.jumpNonzeroFor t) fun goOn =>
            ops [Opcode.jump.named next] ++ (place start ++ (body { leave, next } ++ (place next ++
              (act env.symbols (.evaluate condition) ++ (ops [goOn.named start] ++ close leave)))))

def repeatLoop (env : Environment) (condition : Expr) (scope : String) (body : LoopLabels → Part) :
    Part :=
  frame scope fun f =>
    given (condition.needType env.symbols) fun t =>
      given (Opcode.jumpZeroFor t) fun goOn =>
        place f.start ++ (body f.labels ++ (place f.next ++
          (act env.symbols (.evaluate condition) ++ (ops [goOn.named f.start] ++ close f.leave))))

/-! ## Other statements -/

def exit (ctx : Context) (kind : LoopExit) : Part := fun n ps n' =>
  ∃ labels, ctx.loop = some labels ∧ ops [Opcode.jump.named (labels.target kind)] n ps n'

/-- Values that are pushed one after the other. -/
def gives (symbols : SymbolTable) : List (Expr × DataType) → Part
  | [] => just []
  | (e, t) :: rest => act symbols (.give e t) ++ gives symbols rest

def ret (env : Environment) (ctx : Context) (values : List Expr) : Part := fun n ps n' =>
  values.length = ctx.returnTypes.length ∧
    (gives env.symbols (values.zip ctx.returnTypes).reverse ++ ops [Opcode.ret.plain]) n ps n'

/-- Instructions that the assembler gets as they are. -/
def IsVerbatim (op : Opcode) : Prop := op = .inlineAssembly ∨ op = .includeFile ∨ op = .breakpoint

def verbatim : Part := fun n ps n' =>
  ∃ code : Code, (∀ i ∈ code, IsVerbatim i.opcode) ∧ ops code n ps n'

/-- The body of a subroutine. One that is nothing but assembly is taken as it is. -/
def subroutineBody (body : List Statement) (part : Part) : Part :=
  match soleAssembly? body with
  | some _ => verbatim
  | none => part

def subroutine (s : Signature) (body : List Statement) (part : Part) : Part :=
  match s.address? with
  | some _ => fun n ps n' => body.all (·.isNop) ∧ just [] n ps n'
  | none =>
    just [.entry (.label s.name true)] ++ (ops [Opcode.startProc.plain] ++
      (subroutineBody body part ++ ops [Opcode.endProc.plain]))

end Part

/-! ## Statements -/

mutual

/-- The part of a statement. -/
def Statement.emits (env : Environment) (ctx : Context) : Statement → Part
  | .varDecl _ | .nop => .just []
  | .label name _ => .place name
  | .assign place value _ => .act env.symbols (.assign place value)
  | .step place op _ => .act env.symbols (.step place op)
  | .jump target _ => .jump env .jump target
  | .call target args _ => .act env.symbols (.call target args)
  | .cond condition thenPart elsePart _ =>
    .conditional env ctx condition thenPart elsePart (thenPart.emits env ctx) (elsePart.emits env ctx)
  | .branch condition thenPart elsePart _ =>
    .flagBranch env ctx condition.test thenPart elsePart (thenPart.emits env ctx)
      (elsePart.emits env ctx)
  | .exit kind _ => .exit ctx kind
  | .forEach register variableName iterable body _ =>
    if body.isIdle then .just []
    else .forLoop env register variableName iterable (body.nameIn ctx.scope)
      fun labels => body.emits env (ctx.inLoop labels)
  | .whileLoop condition body _ =>
    .whileLoop env condition ctx.scope fun labels => body.emits env (ctx.inLoop labels)
  | .repeatLoop body condition _ =>
    .repeatLoop env condition ctx.scope fun labels => body.emits env (ctx.inLoop labels)
  | .scope s => s.emits env ctx
  | .ret values _ => .ret env ctx values
  | .returnFromIrq _ => .ops [Opcode.returnFromIrq.plain]
  | .directive _ _ _ => .verbatim
  | .subroutine s body _ =>
    .subroutine s body (Statement.emitsAll env { scope := s.name, returnTypes := s.returnTypes } body)
  | .assembly _ _ => .verbatim
  | .choose condition choices _ => .choose env ctx condition (Choice.emits env ctx choices)

def Scope.emits (env : Environment) (ctx : Context) : Scope → Part
  | ⟨name, statements, position⟩ =>
    Statement.emitsAll env (ctx.inside ⟨name, statements, position⟩) statements

def Choice.emits (env : Environment) (ctx : Context) :
    List Choice → List (Option (List Expr) × Part)
  | [] => []
  | ⟨values, body⟩ :: rest => (values, body.emits env ctx) :: Choice.emits env ctx rest

/-- The part of statements one after the other. -/
def Statement.emitsAll (env : Environment) (ctx : Context) : List Statement → Part
  | [] => .just []
  | s :: rest => s.emits env ctx ++ Statement.emitsAll env ctx rest

end

/-! ## Jumps -/

/-- A jump goes to a fixed address or to a label. -/
theorem Environment.jumpInstruction_ok {env : Environment} {op : Opcode} {target : JumpTarget}
    {i : Instruction} (h : env.jumpInstruction op target = .ok i) :
    (∃ a, target = .address a ∧ i = op.addressed a) ∨
      ∃ l, (target = .named l ∨ target = .generated l) ∧ i = op.named l := by
  unfold jumpInstruction at h
  split at h
  next a =>
    split at h <;> cases h
    exact .inl ⟨a, rfl, rfl⟩
  next l =>
    cases h
    exact .inr ⟨l, .inr rfl, rfl⟩
  next l => split at h <;> cases h <;> exact .inr ⟨l, .inl rfl, rfl⟩

/-! ## Lowering writes the part -/

section Constructs

open Writer

variable {env : Environment} {ctx : Context}

theorem Unmarked.jump {op : Opcode} {name : String} (hop : op.isJump) : Unmarked [op.named name] := by
  simp only [Unmarked, List.mem_singleton, forall_eq, Opcode.named]
  rintro rfl
  cases hop

theorem jump_adds {op : Opcode} {target : JumpTarget} {position : Position} (hop : op.isJump) :
    (env.jump op target position).Adds (.jump env op target) := by
  refine Adds.mark fun _ => Adds.lift fun i hi => Adds.emit ?_
  have hi : i.opcode = op := by
    obtain ⟨a, -, rfl⟩ | ⟨l, -, rfl⟩ := Environment.jumpInstruction_ok hi <;> rfl
  simp only [Unmarked, List.mem_singleton, forall_eq, hi]
  rintro rfl
  cases hop

theorem alternatives_adds {away : Opcode} {elseLabel endLabel : String} {elseIdle : Bool}
    {thenWriter elseWriter : Writer Unit} {thenPart elsePart : Part} (haway : away.isJump)
    (ht : thenWriter.Adds thenPart) (he : elseWriter.Adds elsePart) :
    (alternatives away elseLabel endLabel elseIdle thenWriter elseWriter).Adds
      (.alternatives away elseLabel endLabel elseIdle thenPart elsePart) := by
  unfold alternatives Part.alternatives
  split
  · exact Adds.bind (Adds.emit (.jump haway)) fun _ => Adds.bind ht fun _ => Adds.close
  · exact Adds.bind (Adds.emit (.jump haway)) fun _ => Adds.bind ht fun _ =>
      Adds.bind (Adds.emit (.jump rfl)) fun _ => Adds.bind Adds.place fun _ =>
      Adds.bind he fun _ => Adds.close

theorem Opcode.jumpZeroFor_ok {t : DataType} {op : Opcode} (h : Opcode.jumpZeroFor t = .ok op) :
    ∃ n, t = .int n ∧ op = .jumpZero n.size := by
  rw [jumpZeroFor, orInvalid_ok_iff] at h
  rcases t with (n | _) | _ | _ | _ | _ <;> cases h
  exact ⟨n, rfl, rfl⟩

theorem Opcode.jumpNonzeroFor_ok {t : DataType} {op : Opcode} (h : Opcode.jumpNonzeroFor t = .ok op) :
    ∃ n, t = .int n ∧ op = .jumpNonzero n.size := by
  rw [jumpNonzeroFor, orInvalid_ok_iff] at h
  rcases t with (n | _) | _ | _ | _ | _ <;> cases h
  exact ⟨n, rfl, rfl⟩

theorem Opcode.jumpZeroFor_isJump {t : DataType} {op : Opcode} (h : Opcode.jumpZeroFor t = .ok op) :
    op.isJump := by
  obtain ⟨n, -, rfl⟩ := jumpZeroFor_ok h
  rfl

theorem Opcode.jumpNonzeroFor_isJump {t : DataType} {op : Opcode}
    (h : Opcode.jumpNonzeroFor t = .ok op) : op.isJump := by
  obtain ⟨n, -, rfl⟩ := jumpNonzeroFor_ok h
  rfl

theorem conditional_adds {condition : Expr} {thenScope elseScope : Scope} {position : Position}
    {thenWriter elseWriter : Writer Unit} {thenPart elsePart : Part}
    (ht : thenWriter.Adds thenPart) (he : elseWriter.Adds elsePart) :
    (conditional env ctx condition thenScope elseScope position thenWriter elseWriter).Adds
      (.conditional env ctx condition thenScope elseScope thenPart elsePart) := by
  refine Adds.mark fun _ => Adds.lift fun t _ => Adds.bind (Adds.act (.evaluate condition)) fun _ => ?_
  cases thenScope.onlyJump? with
  | some jump =>
    exact Adds.lift fun op hop => Adds.bind (jump_adds (Opcode.jumpNonzeroFor_isJump hop)) fun _ => he
  | none =>
    refine Adds.lift fun away haway => Adds.fresh fun endLabel => ?_
    have hjump := Opcode.jumpZeroFor_isJump haway
    cases elseScope.isIdle with
    | true => exact Adds.pure_bind (alternatives_adds hjump ht he)
    | false => exact Adds.fresh fun elseLabel => alternatives_adds hjump ht he

theorem flagBranch_adds {test : FlagTest} {thenScope elseScope : Scope} {position : Position}
    {thenWriter elseWriter : Writer Unit} {thenPart elsePart : Part}
    (ht : thenWriter.Adds thenPart) (he : elseWriter.Adds elsePart) :
    (flagBranch env ctx test thenScope elseScope position thenWriter elseWriter).Adds
      (.flagBranch env ctx test thenScope elseScope thenPart elsePart) := by
  unfold flagBranch Part.flagBranch
  split
  · exact Adds.pure ()
  · refine Adds.mark fun _ => ?_
    cases branchJumps? thenScope elseScope with
    | some jumps =>
      obtain ⟨⟨target, p⟩, _ | ⟨target', p'⟩⟩ := jumps
      · exact Adds.bind (jump_adds rfl) fun _ => Adds.pure ()
      · exact Adds.bind (jump_adds rfl) fun _ => jump_adds rfl
    | none =>
      exact Adds.fresh fun elseLabel => Adds.fresh fun endLabel => alternatives_adds rfl ht he

/-! ## Many parts -/

theorem choiceTests_unmarked (t : IntType) (label : String) (values : List Value) :
    Unmarked (choiceTests t label values) := by
  intro i hi
  simp only [choiceTests, List.mem_flatMap] at hi
  obtain ⟨v, -, hi⟩ := hi
  simp only [List.mem_cons, List.not_mem_nil, or_false] at hi
  rcases hi with rfl | rfl | rfl <;> simp [Opcode.plain, Opcode.given, Opcode.named]

/-- The choices as they are handed to the lowering write the choices as parts. -/
def ChoicesAdd (choices : List ChoicePart) (parts : List (Option (List Expr) × Part)) : Prop :=
  List.Forall₂ (fun c p => c.values = p.1 ∧ c.part.Adds p.2) choices parts

theorem choiceHeads_adds {t : IntType} {choices : List ChoicePart}
    {parts : List (Option (List Expr) × Part)} (hc : ChoicesAdd choices parts) :
    ∀ {out out' : Output} {writers : List (String × Writer Unit)},
      choiceHeads env ctx t choices out = .ok (writers, out') →
        ∃ ps bodies,
          Part.choiceHeads env.symbols ctx.scope t parts out.generated ps out'.generated bodies ∧
          Writes out (entriesOf ps) out' ∧
          List.Forall₂ (fun w b => w.1 = b.1 ∧ Writer.Adds w.2 b.2) writers bodies := by
  induction hc with
  | nil =>
    intro out out' writers h
    obtain ⟨rfl, rfl⟩ := Writer.pure_ok_iff.1 h
    exact ⟨[], [], ⟨rfl, rfl, rfl⟩, .refl _, .nil⟩
  | @cons choice part choices parts hpart _ ih =>
    intro out out' writers h
    obtain ⟨values, writer⟩ := choice
    obtain ⟨values', part⟩ := part
    obtain ⟨rfl, hpart⟩ := hpart
    cases values with
    | none =>
      simp only [choiceHeads, Writer.bind_ok_iff] at h
      obtain ⟨u, mid, h₁, h₂⟩ := h
      obtain ⟨ps₁, hp, hw₁⟩ := hpart.writes h₁
      obtain ⟨ps₂, bodies, hb, hw₂, hall⟩ := ih h₂
      exact ⟨ps₁ ++ ps₂, bodies, ⟨ps₁, _, ps₂, hp, hb, rfl⟩,
        entriesOf_append ▸ hw₁.append hw₂, hall⟩
    | some values =>
      simp only [choiceHeads, Writer.bind_ok_iff, Writer.lift_ok_iff] at h
      obtain ⟨vs, mid, ⟨hvs, rfl⟩, h⟩ := h
      cases vs with
      | nil => exact (Writer.throw_ok_iff.1 h).elim
      | cons v vs =>
        simp only [Writer.bind_ok_iff, Writer.pure_ok_iff] at h
        obtain ⟨label, mid, hl, u, mid', he, rest, mid'', hr, rfl, rfl⟩ := h
        obtain ⟨rfl, hquiet, hcount⟩ := freshLabel_ok hl
        have hemit := emit_appends (choiceTests_unmarked t _ _) he
        obtain ⟨ps₂, bodies, hb, hw₂, hall⟩ := ih hr
        rw [hemit.generated, hcount] at hb
        refine ⟨_, _, ⟨v, vs, _, ps₂, bodies, hvs, rfl, hb, rfl, rfl⟩, ?_,
          .cons ⟨rfl, hpart⟩ hall⟩
        rw [entriesOf_append, entriesOf_ops]
        exact hquiet.append (hemit.toWrites.append hw₂)

/-- The jump behind each part counts as the one in front of the next. -/
theorem choiceBodies_adds {endLabel : String} {writers : List (String × Writer Unit)}
    {bodies : List (String × Part)}
    (h : List.Forall₂ (fun w b => w.1 = b.1 ∧ Writer.Adds w.2 b.2) writers bodies) :
    ∀ {out out' : Output} {u : Unit},
      (writers.forM fun (label, part) => do
        placeLabel label
        part
        emit [Opcode.jump.named endLabel]) out = .ok (u, out') →
      ∃ ps es, Part.choiceBodies endLabel bodies out.generated ps out'.generated ∧
        Writes out es out' ∧
        Entry.instruction (Opcode.jump.named endLabel) :: es =
          entriesOf ps ++ [.instruction (Opcode.jump.named endLabel)] := by
  induction h with
  | nil =>
    intro out out' u hw
    obtain ⟨-, rfl⟩ := Writer.pure_ok_iff.1 hw
    exact ⟨[], [], ⟨rfl, rfl⟩, .refl _, rfl⟩
  | @cons writer body writers bodies hpart _ ih =>
    intro out out' u hw
    obtain ⟨label, writer⟩ := writer
    obtain ⟨_, body⟩ := body
    obtain ⟨rfl, hpart⟩ := hpart
    simp only [List.forM, Writer.bind_ok_iff] at hw
    obtain ⟨_, mid₃, ⟨_, mid₁, hl, _, mid₂, hb, he⟩, hrest⟩ := hw
    have hlabel := label_appends hl
    obtain ⟨ps₁, hp, hw₁⟩ := hpart.writes hb
    have hemit := emit_appends (Unmarked.jump rfl) he
    obtain ⟨ps₂, es, hbodies, hw₂, hes⟩ := ih hrest
    rw [hemit.generated] at hbodies
    rw [hlabel.generated] at hp
    refine ⟨_, _, ⟨_, _, _, ⟨rfl, rfl⟩, ⟨_, _, _, ⟨rfl, rfl⟩, ⟨_, _, _, hp, hbodies, rfl⟩, rfl⟩, rfl⟩,
      hlabel.toWrites.append (hw₁.append (hemit.toWrites.append hw₂)), ?_⟩
    simp only [entriesOf_append, List.map_cons, List.map_nil, List.append_assoc, ← hes]
    rfl

theorem choose_adds {condition : Expr} {choices : List ChoicePart}
    {parts : List (Option (List Expr) × Part)} {position : Position} (hc : ChoicesAdd choices parts) :
    (choose env ctx condition choices position).Adds (.choose env ctx condition parts) := by
  refine Adds.mark fun _ => Adds.lift fun type _ => Adds.lift fun t _ =>
    Adds.bind (Adds.act (.evaluate condition)) fun _ => ?_
  have hdrop : Unmarked [(Opcode.discard (.int t.size)).plain] := by simp [Unmarked, Opcode.plain]
  have hempty : choices.isEmpty = parts.isEmpty := by cases hc <;> rfl
  rw [hempty]
  split
  · exact Adds.emit hdrop
  · refine Adds.fresh fun endLabel => ⟨fun h => ?_⟩
    simp only [Writer.bind_ok_iff] at h
    obtain ⟨writers, m₁, hh, _, m₂, he, _, m₃, hb, j, m₄, hr, _, m₅, hl, hd⟩ := h
    obtain ⟨ps₁, bodies, hheads, hw₁, hall⟩ := choiceHeads_adds hc hh
    have hjump := emit_appends (Unmarked.jump rfl) he
    obtain ⟨ps₂, es, hbodies, hw₂, hes⟩ := choiceBodies_adds hall hb
    rw [hjump.generated] at hbodies
    have hjumps := hjump.toWrites.append hw₂
    rw [List.map_singleton, List.singleton_append, hes] at hjumps
    have hcut := hjumps.removeLatest hr
    have hcount : m₄.generated = m₃.generated := (removeLatest_ok hr).2.2.2.2
    have hend := (label_appends hl).append (emit_appends hdrop hd)
    refine ⟨_, ⟨ps₁, _, _, bodies, hheads, ⟨ps₂, _, _, hbodies, ⟨_, _, _, ⟨rfl, rfl⟩, ⟨rfl, ?_⟩, rfl⟩,
      rfl⟩, rfl⟩, ?_⟩
    · exact hend.generated.trans hcount
    · simp only [entriesOf_append, entriesOf_ops]
      exact hw₁.append (hcut.append hend.toWrites)

/-! ## Loops -/

theorem frame_adds {scope : String} {f : LoopFrame → Writer Unit} {g : LoopFrame → Part}
    (h : ∀ frame, (f frame).Adds (g frame)) :
    (freshFrame scope >>= f).Adds (.frame scope g) := by
  simp only [freshFrame, bind_assoc]
  refine Adds.fresh fun start => Adds.fresh fun next => Adds.fresh fun leave => ?_
  exact Adds.pure_bind (h _)

theorem ConstantRange.initCode_straight {r : ConstantRange} {t : IntType} {counter : String} :
    Straight (r.initCode t counter) :=
  (Straight.of_effect rfl).append (.of_effect rfl)

theorem ConstantRange.stepCode_straight {r : ConstantRange} {t : IntType} {counter : String} :
    Lowered.IsStraight (r.stepCode t counter) := fun code h => by
  unfold stepCode at h
  split at h
  · cases h
    intro i hi
    rw [List.eq_of_mem_replicate hi]
    exact .inl (by rw [Opcode.named, Opcode.stepVar_effect]; rfl)
  · split at h <;> cases h
    refine ((Straight.of_effect rfl).append (.of_effect rfl)).append ?_
    split
    · exact (Straight.of_effect (i := (Opcode.add (.int t)).plain) rfl).append (.of_effect rfl)
    · exact (Straight.of_effect (i := (Opcode.sub (.int t)).plain) rfl).append (.of_effect rfl)

theorem ConstantRange.testCode_unmarked {r : ConstantRange} {t : IntType} {counter start : String} :
    Unmarked (r.testCode t counter start) := by
  unfold testCode
  split <;> simp [Unmarked, Opcode.named, Opcode.given]

theorem constantLoop_adds {r : ConstantRange} {counter : Counter} {t : DataType} {scope : String}
    {body : LoopBody} {part : LoopLabels → Part} (hb : ∀ labels, (body labels).Adds (part labels)) :
    (constantLoop r counter t scope body).Adds (.constantLoop r counter t scope part) :=
  Adds.lift fun _ _ => frame_adds fun _ =>
    Adds.bind (Adds.emit ConstantRange.initCode_straight.unmarked) fun _ => Adds.bind Adds.place fun _ =>
    Adds.bind (hb _) fun _ => Adds.bind Adds.place fun _ =>
    Adds.bind (Adds.emitLowered fun c hc => (ConstantRange.stepCode_straight c hc).unmarked) fun _ =>
    Adds.bind (Adds.emit ConstantRange.testCode_unmarked) fun _ => Adds.close

/-- An assignment of anything but a struct literal. -/
theorem storeCode_of_assignCode {symbols : SymbolTable} {p : Place} {value : Expr} {code : Code}
    (h : assignCode symbols p value = .ok code) : storeCode symbols p value = .ok code := by
  cases value with
  | structLiteral values =>
    simp only [assignCode, Operand.assign, Operand.pushAs, Lowered.bind_ok_iff] at h
    obtain ⟨_, -, _, ⟨_, -, _, hpush, -⟩, -⟩ := h
    cases hpush
  | _ => exact h

theorem assign_adds {symbols : SymbolTable} {p : Place} {value : Expr} :
    (emitLowered (assignCode symbols p value)).Adds (.act symbols (.assign p value)) where
  writes h := by
    obtain ⟨c, hc, he⟩ := emitLowered_ok_iff.1 h
    exact (Adds.act (.assign p value)).writes
      (emitLowered_ok_iff.2 ⟨c, storeCode_of_assignCode hc, he⟩)

theorem variableLoop_adds {first last step : Expr} {counter : Counter} {t : DataType} {scope : String}
    {position : Position} {body : LoopBody} {part : LoopLabels → Part}
    (hb : ∀ labels, (body labels).Adds (part labels)) :
    (variableLoop env first last step counter t scope position body).Adds
      (.variableLoop env first last step counter t scope part) := by
  refine Adds.lift fun op _ => Adds.lift fun goOn hgo => Adds.bind assign_adds fun _ =>
    frame_adds fun f => Adds.bind Adds.place fun _ => Adds.mark fun _ => Adds.lift fun ct _ => ?_
  exact Adds.bind (Adds.act (.evaluate _)) fun _ => Adds.lift fun leave hleave =>
    Adds.bind (jump_adds (Opcode.jumpNonzeroFor_isJump hleave)) fun _ => Adds.bind (hb _) fun _ =>
    Adds.bind Adds.place fun _ => Adds.bind (Adds.act (.step _ op)) fun _ =>
    Adds.bind (Adds.act (.evaluate _)) fun _ =>
    Adds.bind (Adds.emit (.jump (Opcode.jumpNonzeroFor_isJump hgo))) fun _ => Adds.close

/-- What a loop knows of a variable with elements, is declared of it. -/
theorem ElementRange.find_ok {symbols : SymbolTable} {name : String} {r : ElementRange}
    (h : find symbols name = .ok r) : r.type.element? = some r.element ∧
      symbols.elementType? name = some (.num r.element) := by
  simp only [find, Lowered.bind_ok_iff, SymbolTable.needVar_ok_iff, orInvalid_ok_iff] at h
  obtain ⟨info, hinfo, element, helement, h⟩ := h
  split at h
  · simp only [Lowered.check_ok_iff, Lowered.pure_ok_iff] at h
    obtain ⟨-, rfl⟩ := h
    exact ⟨helement, by simp [SymbolTable.elementType?, hinfo, helement]⟩
  · simp only [Lowered.throw_ok_iff] at h

theorem ElementRange.initCode_straight {r : ElementRange} {index : String} :
    Straight (r.initCode index) :=
  (Straight.of_effect rfl).append (.of_effect rfl)

theorem Counter.hasCast_read (counter : Counter) : counter.place.read.hasCast = false := by
  cases counter <;> rfl

/-- The index has no home in the table, but it is pushed first, an element is read, and the rest is code like
any other. -/
theorem ElementRange.fetchCode_makes {r : ElementRange} {symbols : SymbolTable} (casts : Prop)
    {index : String} {counter : Counter} {t : DataType} {code : Code}
    (h : r.fetchCode symbols index counter t = .ok code) :
    ∃ (e : NumType) (rest : Code), code = (Opcode.pushVar (.int r.indexType.size)).named index ::
      (Opcode.readIndexed e.size).named r.name :: rest ∧ rest.All (symbols.Makes casts) := by
  simp only [fetchCode, Lowered.bind_ok_iff, Lowered.pure_ok_iff, Opcode.readIndexedFor,
    orInvalid_ok_iff] at h
  obtain ⟨read, hread, op, hop, store, hstore, rfl⟩ := h
  obtain ⟨e, -, rfl⟩ := Option.map_eq_some_iff.1 hread
  have hinner : (counter.place.inner symbols).All (symbols.Makes casts) :=
    counter.place.inner_makes (by simp [counter.hasCast_read])
  exact ⟨e, _, by simp, .append (.widening hop) (Place.write_makes hinner _ hstore)⟩

theorem ElementRange.fetchCode_straight {r : ElementRange} {symbols : SymbolTable} {index : String}
    {counter : Counter} {t : DataType} : Lowered.IsStraight (r.fetchCode symbols index counter t) :=
  fun code h => by
    obtain ⟨e, rest, rfl, hrest⟩ := fetchCode_makes True h
    have hindex : Straight [(Opcode.pushVar (.int r.indexType.size)).named index] := .of_effect rfl
    have hread : Straight [(Opcode.readIndexed e.size).named r.name] := .of_effect rfl
    exact hindex.append (hread.append (hrest.mono fun _ => symbols.admits_isStraight.of_makes))

theorem ElementRange.stepCode_unmarked {r : ElementRange} {index start : String} :
    Unmarked (r.stepCode index start) := by
  simp [stepCode, Unmarked, Opcode.named, Opcode.given, Opcode.stepVar]

theorem elementLoop_adds {symbols : SymbolTable} {array : String} {counter : Counter} {t : DataType}
    {scope : String} {body : LoopBody} {part : LoopLabels → Part}
    (hb : ∀ labels, (body labels).Adds (part labels)) :
    (elementLoop symbols array counter t scope body).Adds
      (.elementLoop symbols array counter t scope part) := by
  unfold elementLoop
  split
  · exact Adds.throw_bind
  · exact Adds.lift fun _ _ => Adds.fresh fun _ => Adds.quiet declare_appends fun _ =>
      frame_adds fun _ =>
      Adds.bind (Adds.emit ElementRange.initCode_straight.unmarked) fun _ =>
      Adds.bind Adds.place fun _ =>
      Adds.bind (Adds.emitLowered fun c hc => (ElementRange.fetchCode_straight c hc).unmarked) fun _ =>
      Adds.bind (hb _) fun _ => Adds.bind Adds.place fun _ =>
      Adds.bind (Adds.emit ElementRange.stepCode_unmarked) fun _ => Adds.close

/-- A loop counts in a register, or in a variable of any type. -/
theorem Counter.find_cases {symbols : SymbolTable} {register : Option Register}
    {variableName : Option String} {counter : Counter} {t : DataType}
    (h : Counter.find symbols register variableName = .ok (counter, t)) :
    (∃ r, register = some r ∧ counter = .register r ∧ t = .ubyte) ∨
      ∃ name info, register = none ∧ variableName = some name ∧ counter = .var name ∧
        symbols.var? name = some info ∧ info.type = t := by
  cases register with
  | some r =>
    cases h
    exact .inl ⟨r, rfl, rfl, rfl⟩
  | none =>
    cases variableName with
    | none => cases h
    | some name =>
      simp only [find, Lowered.bind_ok_iff, Lowered.pure_ok_iff, SymbolTable.needVar_ok_iff] at h
      obtain ⟨info, hinfo, h⟩ := h
      cases h
      exact .inr ⟨name, info, rfl, rfl, rfl, hinfo, rfl⟩

/-- A loop counts in a place of the type that its counter is found with. -/
theorem Counter.type?_read_of_find {symbols : SymbolTable} {register : Option Register}
    {variableName : Option String} {counter : Counter} {t : DataType}
    (h : Counter.find symbols register variableName = .ok (counter, t)) :
    counter.place.read.type? symbols = some t := by
  obtain ⟨r, -, rfl, rfl⟩ | ⟨name, info, -, -, rfl, hinfo, rfl⟩ := Counter.find_cases h
  · rfl
  · simp [place, Place.read, Expr.type?, hinfo]

theorem forLoop_adds {register : Option Register} {variableName : Option String} {iterable : Expr}
    {scope : String} {position : Position} {body : LoopBody} {part : LoopLabels → Part}
    (hb : ∀ labels, (body labels).Adds (part labels)) :
    (forLoop env register variableName iterable scope position body).Adds
      (.forLoop env register variableName iterable scope part) := by
  refine Adds.mark fun _ => Adds.lift fun found _ => ?_
  obtain ⟨counter, t⟩ := found
  cases iterable with
  | range first last step =>
    cases h : ConstantRange.ofExprs? env.symbols first last step with
    | some r => simpa only [h] using constantLoop_adds hb
    | none => simpa only [h] using variableLoop_adds hb
  | var name => exact elementLoop_adds hb
  | _ => exact Adds.throw

theorem whileLoop_adds {condition : Expr} {scope : String} {position : Position} {body : LoopBody}
    {part : LoopLabels → Part} (hb : ∀ labels, (body labels).Adds (part labels)) :
    (whileLoop env condition scope position body).Adds (.whileLoop env condition scope part) :=
  Adds.fresh fun _ => Adds.fresh fun _ => Adds.fresh fun _ => Adds.mark fun _ =>
    Adds.lift fun _ _ => Adds.lift fun _ hgo => Adds.bind (Adds.emit (.jump rfl)) fun _ =>
    Adds.bind Adds.place fun _ => Adds.bind (hb _) fun _ => Adds.bind Adds.place fun _ =>
    Adds.bind (Adds.act (.evaluate condition)) fun _ =>
    Adds.bind (Adds.emit (.jump (Opcode.jumpNonzeroFor_isJump hgo))) fun _ => Adds.close

theorem repeatLoop_adds {condition : Expr} {scope : String} {position : Position} {body : LoopBody}
    {part : LoopLabels → Part} (hb : ∀ labels, (body labels).Adds (part labels)) :
    (repeatLoop env condition scope position body).Adds (.repeatLoop env condition scope part) :=
  frame_adds fun _ => Adds.mark fun _ => Adds.lift fun _ _ => Adds.lift fun _ hgo =>
    Adds.bind Adds.place fun _ => Adds.bind (hb _) fun _ => Adds.bind Adds.place fun _ =>
    Adds.bind (Adds.act (.evaluate condition)) fun _ =>
    Adds.bind (Adds.emit (.jump (Opcode.jumpZeroFor_isJump hgo))) fun _ => Adds.close

/-! ## Other statements -/

theorem assignment_adds {p : Place} {value : Expr} {position : Position} :
    (env.assign p value position).Adds (.act env.symbols (.assign p value)) := by
  refine Adds.mark fun _ => ?_
  cases value with
  | structLiteral values => exact Adds.act (.assign p (.structLiteral values))
  | _ => exact assign_adds

theorem exit_adds {kind : LoopExit} {position : Position} :
    (env.exit ctx kind position).Adds (.exit ctx kind) := by
  unfold Environment.exit
  split
  · exact Adds.throw
  next labels hl =>
    refine ⟨fun h => ?_⟩
    obtain ⟨ps, hp, hw⟩ := (Adds.mark fun _ => Adds.emit (.jump rfl)).writes h
    exact ⟨ps, ⟨labels, hl, hp⟩, hw⟩

theorem gives_adds {values : List (Expr × DataType)} :
    (values.forM fun (value, t) =>
      emitLowered ((value.operand env.symbols).pushAs env.symbols t)).Adds
      (.gives env.symbols values) := by
  induction values with
  | nil => exact Adds.pure ()
  | cons value values ih => exact Adds.bind (Adds.act (.give value.1 value.2)) fun _ => ih

theorem ret_adds {values : List Expr} {position : Position} :
    (env.ret ctx values position).Adds (.ret env ctx values) := by
  unfold Environment.ret
  split
  · exact Adds.throw_bind
  next hlen =>
    refine ⟨fun h => ?_⟩
    have hret : Unmarked [Opcode.ret.plain] := by simp [Unmarked, Opcode.plain]
    obtain ⟨ps, hp, hw⟩ := (Adds.bind gives_adds fun _ => Adds.mark fun _ => Adds.emit hret).writes h
    exact ⟨ps, ⟨not_not.1 hlen, hp⟩, hw⟩

theorem verbatim_adds {i : Instruction} (hi : Part.IsVerbatim i.opcode) :
    (emit [i]).Adds .verbatim where
  writes h := by
    have hline : Unmarked [i] := by
      simp only [Unmarked, List.mem_singleton, forall_eq]
      rintro hl
      simp [Part.IsVerbatim, hl] at hi
    obtain ⟨ps, hp, hw⟩ := (Adds.emit hline).writes h
    exact ⟨ps, ⟨[i], by simpa using hi, hp⟩, hw⟩

theorem assembly_adds {text : String} {label : Option String} {position : Position} :
    (env.assembly text label position).Adds .verbatim :=
  Adds.mark fun _ => verbatim_adds (.inl rfl)

theorem nothing_adds : Writer.Adds (pure ()) .verbatim where
  writes h := by
    obtain ⟨ps, hp, hw⟩ := (Adds.pure ()).writes h
    exact ⟨ps, ⟨[], by simp, hp⟩, hw⟩

/-- Behind what was looked up, if only the result of the look-up does not matter. -/
theorem Writer.Adds.ignoring {α : Type} {x : Lowered α} {f : α → Writer Unit} {p : Part}
    (h : ∀ a, x = .ok a → (f a).Adds p) : (liftM x >>= f).Adds p where
  writes hw := by
    obtain ⟨ps, ⟨a, -, hp⟩, hps⟩ := (Adds.lift h).writes hw
    exact ⟨ps, hp, hps⟩

theorem directive_adds {name : String} {args : List DirectiveArg} {position : Position} :
    (env.directive name args position).Adds .verbatim := by
  unfold Environment.directive
  split
  · refine Adds.ignoring fun file _ => Adds.ignoring fun scope _ => ?_
    split
    · exact Adds.throw
    · exact assembly_adds
  · exact Adds.ignoring fun _ _ => Adds.ignoring fun _ _ => Adds.ignoring fun _ _ =>
      Adds.mark fun _ => verbatim_adds (.inr (.inl rfl))
  · exact Adds.mark fun _ => verbatim_adds (.inr (.inr rfl))
  · exact nothing_adds

theorem subroutineDefinition_adds {s : Signature} {body : List Statement} {position : Position}
    {writer : Writer Unit} {part : Part} (hb : writer.Adds part) :
    (subroutineDefinition env s body position writer).Adds (.subroutine s body part) := by
  unfold subroutineDefinition Part.subroutine Part.subroutineBody
  cases s.address? with
  | some address =>
    by_cases hidle : body.all (·.isNop)
    · simp only [hidle, Bool.not_true, Bool.false_eq_true, if_false]
      refine ⟨fun h => ?_⟩
      have happ := pointer_appends h
      exact ⟨[], ⟨trivial, rfl, happ.generated⟩, happ.toWrites⟩
    · simp only [hidle, Bool.not_false, if_true]
      exact Adds.throw_bind
  | none =>
    have hstart : Unmarked [Opcode.startProc.plain] := by simp [Unmarked, Opcode.plain]
    have hend : Unmarked [Opcode.endProc.plain] := by simp [Unmarked, Opcode.plain]
    refine Adds.bind (Adds.of_appends label_appends) fun _ => Adds.bind (Adds.emit hstart) fun _ =>
      Adds.mark fun _ => ?_
    cases soleAssembly? body with
    | some sole => exact Adds.bind assembly_adds fun _ => Adds.emit hend
    | none => exact Adds.bind hb fun _ => Adds.emit hend

end Constructs

mutual

/-- **Lowering a statement writes its part.** -/
theorem Statement.lower_adds (env : Environment) : ∀ (ctx : Context) (s : Statement),
    (s.lower env ctx).Adds (s.emits env ctx)
  | _, .varDecl _ | _, .nop => Writer.Adds.pure ()
  | _, .label _ _ => .mark fun _ => .place
  | _, .assign _ _ _ => assignment_adds
  | _, .step p op _ => .mark fun _ => .act (.step p op)
  | _, .jump _ _ => jump_adds rfl
  | _, .call target args _ => .mark fun _ => .act (.call target args)
  | ctx, .cond _ thenPart elsePart _ =>
    conditional_adds (thenPart.lower_adds env ctx) (elsePart.lower_adds env ctx)
  | ctx, .branch _ thenPart elsePart _ =>
    flagBranch_adds (thenPart.lower_adds env ctx) (elsePart.lower_adds env ctx)
  | _, .exit _ _ => exit_adds
  | ctx, .forEach _ _ _ body _ => by
    unfold Statement.lower Statement.emits
    split
    · exact .pure ()
    · exact forLoop_adds fun labels => body.lower_adds env (ctx.inLoop labels)
  | ctx, .whileLoop _ body _ => by
    rw [Statement.lower, Statement.emits]
    exact whileLoop_adds fun labels => body.lower_adds env (ctx.inLoop labels)
  | ctx, .repeatLoop body _ _ => by
    rw [Statement.lower, Statement.emits]
    exact repeatLoop_adds fun labels => body.lower_adds env (ctx.inLoop labels)
  | ctx, .scope s => s.lower_adds env ctx
  | _, .ret _ _ => ret_adds
  | _, .returnFromIrq _ => .mark fun _ => .emit (by simp [Unmarked, Opcode.plain])
  | _, .directive _ _ _ => by
    rw [Statement.lower, Statement.emits]
    exact directive_adds
  | _, .subroutine s body _ =>
    subroutineDefinition_adds
      (Statement.lowerAll_adds env { scope := s.name, returnTypes := s.returnTypes } body)
  | _, .assembly _ _ => assembly_adds
  | ctx, .choose _ choices _ => choose_adds (Choice.lower_adds env ctx choices)

theorem Scope.lower_adds (env : Environment) : ∀ (ctx : Context) (s : Scope),
    (s.lower env ctx).Adds (s.emits env ctx)
  | ctx, ⟨name, statements, position⟩ =>
    Statement.lowerAll_adds env (ctx.inside ⟨name, statements, position⟩) statements

theorem Choice.lower_adds (env : Environment) (ctx : Context) : ∀ choices : List Choice,
    ChoicesAdd (Choice.parts env ctx choices) (Choice.emits env ctx choices)
  | [] => .nil
  | ⟨_, body⟩ :: rest => .cons ⟨rfl, body.lower_adds env ctx⟩ (Choice.lower_adds env ctx rest)

theorem Statement.lowerAll_adds (env : Environment) : ∀ (ctx : Context) (ss : List Statement),
    (Statement.lowerAll env ctx ss).Adds (Statement.emitsAll env ctx ss)
  | _, [] => Writer.Adds.pure ()
  | ctx, s :: rest =>
    .bind (s.lower_adds env ctx) fun _ => Statement.lowerAll_adds env ctx rest

end

end StackCode
