/-
Which labels belong to which loop. The text of a loop has the text of its body in it;
behind that comes the label for the next round, and the label to leave by stands at the
very end. An exit is a jump to one of these labels of the innermost loop around it.

What the text of a statement is like follows the statement: it says where the texts of
the statements inside stand, with other text between them, and it hands down the labels
of the innermost loop. A subroutine is in no loop.
-/
import StackCode.Proofs.Lowering.Emits

namespace StackCode

/-! ## Texts -/

/-- What a text is like. -/
abbrev Text := List Entry → Prop

namespace Text

/-- The text has texts of these kinds in it, one behind the other. -/
def inside : List Text → Text
  | [], _ => True
  | t :: ts, es => ∃ before text after, t text ∧ inside ts after ∧ es = before ++ (text ++ after)

/-- A text of this kind, behind it the one label, and the other one at the end. -/
def around (next leave : String) (t : Text) : Text := fun es =>
  ∃ before text within, t text ∧
    es = before ++ (text ++ (.label next false :: (within ++
      [.label leave false, .instruction Opcode.nop.plain])))

/-- The text of a loop, whose body is given its labels. -/
def loop (body : LoopLabels → Text) : Text := fun es =>
  ∃ labels, around labels.next labels.leave (body labels) es

/-- The parts that are written where they stand in the list of choices come first, and those that
stand behind the tests come later. -/
def ordered (choices : List (Bool × Text)) : List Text :=
  (choices.filter (!·.1)).map (·.2) ++ (choices.filter (·.1)).map (·.2)

end Text

namespace Text

theorem inside_behind {ts : List Text} {es : List Entry} (before : List Entry)
    (h : inside ts es) : inside ts (before ++ es) := by
  cases ts with
  | nil => trivial
  | cons t ts =>
    obtain ⟨before', text, after, ht, hts, rfl⟩ := h
    exact ⟨before ++ before', text, after, ht, hts, (List.append_assoc ..).symm⟩

theorem inside_before {ts : List Text} {es : List Entry} (behind : List Entry)
    (h : inside ts es) : inside ts (es ++ behind) := by
  induction ts generalizing es with
  | nil => trivial
  | cons t ts ih =>
    obtain ⟨before, text, after, ht, hts, rfl⟩ := h
    exact ⟨before, text, after ++ behind, ht, ih hts, by simp only [List.append_assoc]⟩

theorem inside_append {ts us : List Text} {es es' : List Entry} (h : inside ts es)
    (h' : inside us es') : inside (ts ++ us) (es ++ es') := by
  induction ts generalizing es with
  | nil => exact inside_behind es h'
  | cons t ts ih =>
    obtain ⟨before, text, after, ht, hts, rfl⟩ := h
    exact ⟨before, text, after ++ es', ht, ih hts, by simp only [List.append_assoc]⟩

end Text

mutual

/-- What the text of a statement is like in a loop with these labels, or in none. -/
def Statement.text (loop : Option LoopLabels) : Statement → Text
  | .exit kind _ => fun es =>
    ∃ labels, loop = some labels ∧ es = [.instruction (Opcode.jump.named (labels.target kind))]
  | .forEach _ _ _ body _ =>
    if body.isIdle then (· = []) else .loop fun labels => body.text (some labels)
  | .whileLoop _ body _ | .repeatLoop body _ _ => .loop fun labels => body.text (some labels)
  | .subroutine s body _ => fun es =>
    if s.address?.isSome then es = []
    else ∃ text, ((soleAssembly? body).isSome ∨ Statement.allText none body text) ∧
      es = .label s.name true :: .instruction Opcode.startProc.plain ::
        (text ++ [.instruction Opcode.endProc.plain])
  | .scope s => s.text loop
  | .cond _ thenPart elsePart _ => .inside [thenPart.text loop, elsePart.text loop]
  | .branch _ thenPart elsePart _ => fun es =>
    (branchJumps? thenPart elsePart).isSome ∨
      Text.inside [thenPart.text loop, elsePart.text loop] es
  | .choose _ choices _ => .inside (Text.ordered (Choice.texts loop choices))
  | _ => fun _ => True

def Scope.text (loop : Option LoopLabels) : Scope → Text
  | ⟨_, statements, _⟩ => Statement.allText loop statements

/-- What the texts of choices are like, with whether a choice has values. -/
def Choice.texts (loop : Option LoopLabels) : List Choice → List (Bool × Text)
  | [] => []
  | ⟨values, body⟩ :: rest => (values.isSome, body.text loop) :: Choice.texts loop rest

/-- The texts of statements stand one behind the other. -/
def Statement.allText (loop : Option LoopLabels) : List Statement → Text
  | [] => (· = [])
  | s :: rest => fun es =>
    ∃ text after, s.text loop text ∧ Statement.allText loop rest after ∧ es = text ++ after

end

/-! ## Texts of parts -/

/-- The part writes texts of this kind. -/
structure Part.Spells (p : Part) (t : Text) : Prop where
  text : ∀ {n ps n'}, p n ps n' → t (entriesOf ps)

namespace Part.Spells

variable {p q : Part} {t : Text} {ts : List Text} {next leave : String}

theorem given {α : Type} {x : Lowered α} {f : α → Part} (h : ∀ a, (f a).Spells t) :
    (Part.given x f).Spells t where
  text := fun ⟨a, _, hps⟩ => (h a).text hps

theorem fresh {scope suffix : String} {f : String → Part} (h : ∀ name, (f name).Spells t) :
    (Part.fresh scope suffix f).Spells t where
  text hps := (h _).text hps

theorem nothing (h : t []) : (Part.just []).Spells t where
  text := by
    rintro n ps n' ⟨rfl, -⟩
    exact h

theorem mono {u : Text} (hp : p.Spells t) (h : ∀ es, t es → u es) : p.Spells u where
  text hps := h _ (hp.text hps)

/-- Something stands in front. -/
theorem skip (hq : q.Spells (.inside ts)) : (p ++ q).Spells (.inside ts) where
  text := by
    rintro n _ n' ⟨ps, m, qs, hps, hqs, rfl⟩
    exact entriesOf_append ▸ Text.inside_behind _ (hq.text hqs)

/-- Something stands behind. -/
theorem andMore (hp : p.Spells (.inside ts)) : (p ++ q).Spells (.inside ts) where
  text := by
    rintro n _ n' ⟨ps, m, qs, hps, hqs, rfl⟩
    exact entriesOf_append ▸ Text.inside_before _ (hp.text hps)

theorem take (hp : p.Spells t) (hq : q.Spells (.inside ts)) :
    (p ++ q).Spells (.inside (t :: ts)) where
  text := by
    rintro n _ n' ⟨ps, m, qs, hps, hqs, rfl⟩
    exact ⟨[], _, _, hp.text hps, hq.text hqs, entriesOf_append⟩

/-- A text that is empty may be missing. -/
theorem missing (ht : t []) (hq : q.Spells (.inside ts)) : q.Spells (.inside (t :: ts)) where
  text hqs := ⟨[], [], _, ht, hq.text hqs, rfl⟩

theorem rest : p.Spells (.inside []) := ⟨fun _ => trivial⟩

theorem single (hp : p.Spells t) : p.Spells (.inside [t]) where
  text hps := ⟨[], _, [], hp.text hps, trivial, (List.append_nil _).symm⟩

/-! ### Loops -/

/-- The end of a loop. -/
def loopEnd (leave : String) : Text := fun es =>
  ∃ within, es = within ++ [.label leave false, .instruction Opcode.nop.plain]

theorem closing : (Part.close leave).Spells (loopEnd leave) where
  text := by
    rintro n ps n' ⟨rfl, -⟩
    exact ⟨[], rfl⟩

theorem beforeEnd (hq : q.Spells (loopEnd leave)) : (p ++ q).Spells (loopEnd leave) where
  text := by
    rintro n _ n' ⟨ps, m, qs, hps, hqs, rfl⟩
    obtain ⟨within, htext⟩ := hq.text hqs
    exact ⟨entriesOf ps ++ within, by rw [entriesOf_append, htext, List.append_assoc]⟩

theorem body (hp : p.Spells t) (hq : q.Spells (loopEnd leave)) :
    (p ++ (Part.place next ++ q)).Spells (.around next leave t) where
  text := by
    rintro n _ n' ⟨ps, m, _, hps, ⟨_, k, qs, ⟨rfl, -⟩, hqs, rfl⟩, rfl⟩
    obtain ⟨within, htext⟩ := hq.text hqs
    refine ⟨[], entriesOf ps, within, hp.text hps, ?_⟩
    rw [entriesOf_append, entriesOf_append, htext]
    rfl

theorem beforeLoop {text : LoopLabels → Text} (hq : q.Spells (.loop text)) :
    (p ++ q).Spells (.loop text) where
  text := by
    rintro n _ n' ⟨ps, m, qs, hps, hqs, rfl⟩
    obtain ⟨labels, before, own, within, ht, htext⟩ := hq.text hqs
    refine ⟨labels, entriesOf ps ++ before, own, within, ht, ?_⟩
    rw [entriesOf_append, htext, List.append_assoc]

theorem beforeBody (hq : q.Spells (.around next leave t)) : (p ++ q).Spells (.around next leave t) where
  text := by
    rintro n _ n' ⟨ps, m, qs, hps, hqs, rfl⟩
    obtain ⟨before, text, within, ht, htext⟩ := hq.text hqs
    refine ⟨entriesOf ps ++ before, text, within, ht, ?_⟩
    rw [entriesOf_append, htext, List.append_assoc]

end Part.Spells

/-! ## Choices -/

variable {env : Environment} {ctx : Context} {symbols : SymbolTable} {t u : Text}

theorem alternatives_spells {away : Opcode} {elseLabel endLabel : String} {elseIdle : Bool}
    {thenPart elsePart : Part} (ht : thenPart.Spells t) (hu : elsePart.Spells u)
    (hidle : elseIdle → u []) :
    (Part.alternatives away elseLabel endLabel elseIdle thenPart elsePart).Spells (.inside [t, u]) := by
  unfold Part.alternatives
  split
  next h => exact .skip (.take ht (.missing (hidle h) .rest))
  next => exact .skip (.take ht (.skip (.skip (.take hu .rest))))

theorem conditional_spells {condition : Expr} {thenScope elseScope : Scope} {thenPart elsePart : Part}
    (ht : thenPart.Spells t) (hu : elsePart.Spells u) (honly : thenScope.onlyJump?.isSome → t [])
    (hidle : elseScope.isIdle → u []) :
    (Part.conditional env ctx condition thenScope elseScope thenPart elsePart).Spells
      (.inside [t, u]) := by
  refine .given fun _ => .skip ?_
  split
  next h => exact .given fun _ => .missing (honly (by simp [h])) (.skip hu.single)
  next =>
    refine .given fun away => .fresh fun endLabel => ?_
    split
    next h => exact alternatives_spells ht hu fun _ => hidle h
    next => exact .fresh fun elseLabel => alternatives_spells ht hu nofun

theorem flagBranch_spells {test : FlagTest} {thenScope elseScope : Scope} {thenPart elsePart : Part}
    (ht : thenPart.Spells t) (hu : elsePart.Spells u) (hidle : thenScope.isIdle → t [])
    (hidle' : elseScope.isIdle → u []) :
    (Part.flagBranch env ctx test thenScope elseScope thenPart elsePart).Spells fun es =>
      (branchJumps? thenScope elseScope).isSome ∨ Text.inside [t, u] es := by
  unfold Part.flagBranch
  split
  next h =>
    rw [Bool.and_eq_true] at h
    have hnothing : (Part.just []).Spells (.inside [t, u]) :=
      .missing (hidle h.1) (.missing (hidle' h.2) .rest)
    exact hnothing.mono fun _ h => .inr h
  next =>
    cases branchJumps? thenScope elseScope with
    | some jumps => exact ⟨fun _ => .inl rfl⟩
    | none =>
      exact .fresh fun _ => .fresh fun _ => (alternatives_spells ht hu hidle').mono fun _ h => .inr h

/-! ## Choices among many -/

/-- The parts of the choices, with what their texts are like and whether they have values. -/
def ChoicesSpell (choices : List (Option (List Expr) × Part)) (texts : List (Bool × Text)) : Prop :=
  List.Forall₂ (fun c x => c.1.isSome = x.1 ∧ c.2.Spells x.2) choices texts

/-- The parts without values stand among the tests. The other ones come behind all tests. -/
theorem choiceHeads_spells {scope endLabel : String} {t : IntType}
    {choices : List (Option (List Expr) × Part)} {texts : List (Bool × Text)}
    (hc : ChoicesSpell choices texts) {n n' : Nat} {ps : List Piece} {parts : List (String × Part)}
    (h : Part.choiceHeads symbols scope t choices n ps n' parts) :
    Text.inside ((texts.filter (!·.1)).map (·.2)) (entriesOf ps) ∧
      (Part.choiceBodies endLabel parts).Spells (.inside ((texts.filter (·.1)).map (·.2))) := by
  induction hc generalizing n ps n' parts with
  | nil =>
    obtain ⟨rfl, -, rfl⟩ := h
    exact ⟨trivial, .rest⟩
  | @cons choice x choices texts hx _ ih =>
    obtain ⟨values, part⟩ := choice
    obtain ⟨hasValues, own⟩ := x
    obtain ⟨rfl, hown⟩ := hx
    cases values with
    | none =>
      obtain ⟨ps₁, m, ps₂, hp, hheads, rfl⟩ := h
      obtain ⟨hfirst, hlater⟩ := ih hheads
      exact ⟨⟨[], _, _, hown.text hp, hfirst, entriesOf_append⟩, hlater⟩
    | some values =>
      obtain ⟨v, vs, label, ps₂, parts', -, -, hheads, rfl, rfl⟩ := h
      obtain ⟨hfirst, hlater⟩ := ih hheads
      exact ⟨entriesOf_append ▸ Text.inside_behind _ hfirst, .skip (.skip (.take hown hlater))⟩

theorem choose_spells {condition : Expr} {choices : List (Option (List Expr) × Part)}
    {texts : List (Bool × Text)} (hc : ChoicesSpell choices texts) :
    (Part.choose env ctx condition choices).Spells (.inside (Text.ordered texts)) := by
  refine .given fun _ => .given fun t => .skip ?_
  split
  next h =>
    cases hc with
    | nil => exact .rest
    | cons => cases h
  next =>
    refine .fresh fun endLabel => ⟨?_⟩
    rintro n _ n' ⟨ps₁, m, ps₂, parts, hheads, hbodies, rfl⟩
    obtain ⟨hfirst, hlater⟩ := choiceHeads_spells hc hheads
    rw [entriesOf_append]
    exact Text.inside_append hfirst (hlater.andMore.text hbodies)

/-! ## Loops -/

variable {text : LoopLabels → Text} {body : LoopLabels → Part}

theorem frame_spells {scope : String} {g : LoopFrame → Part}
    (h : ∀ f : LoopFrame, (g f).Spells (.around f.next f.leave (text f.labels))) :
    (Part.frame scope g).Spells (.loop text) :=
  .fresh fun start => .fresh fun next => .fresh fun leave =>
    (h ⟨start, next, leave⟩).mono fun _ hes => ⟨⟨leave, next⟩, hes⟩

theorem constantLoop_spells {r : ConstantRange} {counter : Counter} {t : DataType} {scope : String}
    (hb : ∀ labels, (body labels).Spells (text labels)) :
    (Part.constantLoop r counter t scope body).Spells (.loop text) :=
  .given fun _ => frame_spells fun f => .beforeBody (.beforeBody (.body (hb f.labels)
    (.beforeEnd (.beforeEnd (.closing)))))

theorem variableLoop_spells {first last step : Expr} {counter : Counter} {t : DataType} {scope : String}
    (hb : ∀ labels, (body labels).Spells (text labels)) :
    (Part.variableLoop env first last step counter t scope body).Spells (.loop text) :=
  .given fun _ => .given fun _ => .beforeLoop (frame_spells fun f => .beforeBody (.given fun _ =>
    .beforeBody (.given fun _ => .beforeBody (.body (hb f.labels)
      (.beforeEnd (.beforeEnd (.beforeEnd .closing)))))))

theorem elementLoop_spells {array : String} {counter : Counter} {t : DataType} {scope : String}
    (hb : ∀ labels, (body labels).Spells (text labels)) :
    (Part.elementLoop symbols array counter t scope body).Spells (.loop text) :=
  .given fun _ => .fresh fun _ => frame_spells fun f => .beforeBody (.beforeBody (.beforeBody
    (.body (hb f.labels) (.beforeEnd .closing))))

theorem forLoop_spells {register : Option Register} {variableName : Option String} {iterable : Expr}
    {scope : String} (hb : ∀ labels, (body labels).Spells (text labels)) :
    (Part.forLoop env register variableName iterable scope body).Spells (.loop text) := by
  refine .given fun (counter, t) => ?_
  cases iterable with
  | range first last step =>
    cases h : ConstantRange.ofExprs? env.symbols first last step with
    | some r => simpa only [h] using constantLoop_spells hb
    | none => simpa only [h] using variableLoop_spells hb
  | var name => exact elementLoop_spells hb
  | _ => exact ⟨fun h => h.elim⟩

theorem whileLoop_spells {condition : Expr} {scope : String}
    (hb : ∀ labels, (body labels).Spells (text labels)) :
    (Part.whileLoop env condition scope body).Spells (.loop text) := by
  refine .fresh fun start => .fresh fun leave => .fresh fun next => ?_
  have haround (es : List Entry) (h : Text.around next leave (text ⟨leave, next⟩) es) :
      Text.loop text es :=
    ⟨⟨leave, next⟩, h⟩
  refine Part.Spells.mono ?_ haround
  exact .given fun _ => .given fun _ => .beforeBody (.beforeBody (.body (hb ⟨leave, next⟩)
    (.beforeEnd (.beforeEnd .closing))))

theorem repeatLoop_spells {condition : Expr} {scope : String}
    (hb : ∀ labels, (body labels).Spells (text labels)) :
    (Part.repeatLoop env condition scope body).Spells (.loop text) :=
  frame_spells fun f => .given fun _ => .given fun _ => .beforeBody (.body (hb f.labels)
    (.beforeEnd (.beforeEnd .closing)))

/-! ## Statements -/

variable {loop : Option LoopLabels}

theorem Statement.text_of_isNop {s : Statement} (h : s.isNop) : s.text loop [] := by
  cases s <;> trivial

theorem Statement.allText_of_nops {ss : List Statement} (h : ss.all (·.isNop)) :
    allText loop ss [] := by
  induction ss with
  | nil => rfl
  | cons s ss ih =>
    rw [List.all_cons, Bool.and_eq_true] at h
    exact ⟨[], [], text_of_isNop h.1, ih h.2, rfl⟩

theorem Scope.text_of_isIdle : ∀ {s : Scope}, s.isIdle → s.text loop []
  | ⟨_, _, _⟩, h => Statement.allText_of_nops h

/-- A scope that is a single jump can be written as nothing. -/
theorem Scope.text_of_onlyJump {s : Scope} (h : s.onlyJump?.isSome) : s.text loop [] := by
  obtain ⟨⟨target, position⟩, hjump⟩ := Option.isSome_iff_exists.mp h
  have hs : s.statements = [.jump target position] := onlyJump?_ok hjump
  obtain ⟨name, statements, _⟩ := s
  subst hs
  exact ⟨[], [], trivial, rfl, rfl⟩

theorem subroutine_spells {s : Signature} {body : List Statement} {position : Position} {part : Part}
    (hp : part.Spells (Statement.allText none body)) :
    (Part.subroutine s body part).Spells ((Statement.subroutine s body position).text loop) := by
  constructor
  intro n ps n' h
  unfold Part.subroutine at h
  unfold Statement.text
  cases haddress : s.address? with
  | some address =>
    rw [haddress] at h
    obtain ⟨-, rfl, -⟩ := h
    rfl
  | none =>
    rw [haddress] at h
    obtain ⟨_, _, _, ⟨rfl, -⟩, ⟨_, _, _, ⟨rfl, -⟩, ⟨ps, _, _, hps, ⟨rfl, -⟩, rfl⟩, rfl⟩, rfl⟩ := h
    refine ⟨entriesOf ps, ?_, by simp only [entriesOf_append]; rfl⟩
    cases hsole : soleAssembly? body with
    | some _ => exact .inl rfl
    | none =>
      rw [Part.subroutineBody, hsole] at hps
      exact .inr (hp.text hps)

mutual

/-- **In the text of a statement each exit goes to a label of the innermost loop**, whose labels stand
where its text says. -/
theorem Statement.emits_spells (env : Environment) : ∀ (s : Statement) (ctx : Context),
    (s.emits env ctx).Spells (s.text ctx.loop)
  | .varDecl _, _ | .nop, _ | .label _ _, _ | .assign _ _ _, _ | .step _ _ _, _ | .jump _ _, _
  | .call _ _ _, _ | .ret _ _, _ | .returnFromIrq _, _ | .directive _ _ _, _ | .assembly _ _, _ =>
    ⟨fun _ => trivial⟩
  | .exit kind _, _ => by
    constructor
    rintro n ps n' ⟨labels, hlabels, rfl, -⟩
    exact ⟨labels, hlabels, rfl⟩
  | .cond _ thenPart elsePart _, ctx =>
    conditional_spells (thenPart.emits_spells env ctx) (elsePart.emits_spells env ctx)
      Scope.text_of_onlyJump Scope.text_of_isIdle
  | .branch _ thenPart elsePart _, ctx =>
    flagBranch_spells (thenPart.emits_spells env ctx) (elsePart.emits_spells env ctx)
      Scope.text_of_isIdle Scope.text_of_isIdle
  | .forEach _ _ _ body _, ctx => by
    unfold Statement.emits Statement.text
    split
    · exact .nothing rfl
    · exact forLoop_spells fun labels => body.emits_spells env (ctx.inLoop labels)
  | .whileLoop _ body _, ctx => by
    rw [Statement.emits, Statement.text]
    exact whileLoop_spells fun labels => body.emits_spells env (ctx.inLoop labels)
  | .repeatLoop body _ _, ctx => by
    rw [Statement.emits, Statement.text]
    exact repeatLoop_spells fun labels => body.emits_spells env (ctx.inLoop labels)
  | .scope s, ctx => s.emits_spells env ctx
  | .subroutine s body _, _ =>
    subroutine_spells (Statement.emitsAll_spells env body { scope := s.name, returnTypes := s.returnTypes })
  | .choose _ choices _, ctx => choose_spells (Choice.emits_spells env choices ctx)

theorem Scope.emits_spells (env : Environment) : ∀ (s : Scope) (ctx : Context),
    (s.emits env ctx).Spells (s.text ctx.loop)
  | ⟨name, statements, position⟩, ctx =>
    Statement.emitsAll_spells env statements (ctx.inside ⟨name, statements, position⟩)

theorem Choice.emits_spells (env : Environment) : ∀ (choices : List Choice) (ctx : Context),
    ChoicesSpell (Choice.emits env ctx choices) (Choice.texts ctx.loop choices)
  | [], _ => .nil
  | ⟨_, body⟩ :: rest, ctx => .cons ⟨rfl, body.emits_spells env ctx⟩ (Choice.emits_spells env rest ctx)

theorem Statement.emitsAll_spells (env : Environment) : ∀ (ss : List Statement) (ctx : Context),
    (Statement.emitsAll env ctx ss).Spells (Statement.allText ctx.loop ss)
  | [], _ => .nothing rfl
  | s :: rest, ctx => by
    have hfirst := s.emits_spells env ctx
    have hrest := Statement.emitsAll_spells env rest ctx
    constructor
    rintro n _ n' ⟨ps, m, qs, hps, hqs, rfl⟩
    exact ⟨_, _, hfirst.text hps, hrest.text hqs, entriesOf_append⟩

end

end StackCode
