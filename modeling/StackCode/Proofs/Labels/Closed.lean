/-
Where jumps go. A jump in the text of a statement goes to a label of the program that
the source names there, or to a made-up label. A made-up label that a construct jumps
to is placed by that construct; only an exit goes to a label of a construct around it,
of the innermost loop.
-/
import StackCode.Proofs.Lowering.Emits
import StackCode.Proofs.Stack.Reading

namespace StackCode

/-! ## Targets -/

/-- The name that a jump goes to. -/
def Entry.target? : Entry → Option String
  | .instruction i => if i.opcode.isJump then i.label else none
  | .label .. => none

/-- The names that the jumps of a text go to. -/
def targetsOf (es : List Entry) : List String := es.filterMap (·.target?)

theorem targetsOf_append {es es' : List Entry} :
    targetsOf (es ++ es') = targetsOf es ++ targetsOf es' :=
  List.filterMap_append

theorem Instruction.IsStraight.target? {i : Instruction} (h : i.IsStraight) :
    (Entry.instruction i).target? = none := by
  have hjump : i.opcode.isJump = false := by
    cases hop : i.opcode <;> first | rfl | simp [Instruction.IsStraight, hop, Opcode.effect?] at h
  simp [Entry.target?, hjump]

theorem Straight.targetsOf {code : Code} (h : Straight code) :
    targetsOf (entriesOf (code.map Piece.op)) = [] := by
  rw [entriesOf_ops, StackCode.targetsOf, List.filterMap_eq_nil_iff]
  intro e he
  obtain ⟨i, hi, rfl⟩ := List.mem_map.1 he
  exact (h i hi).target?

/-! ## Closed parts -/

/-- A jump of the text goes to a name that is allowed, to a known label, or to a made-up label of the
text. -/
def ClosedText (allowed : String → Prop) (known : List String) (es : List Entry) : Prop :=
  ∀ l ∈ targetsOf es, allowed l ∨ l ∈ known ∨ IsGenerated l ∧ l ∈ labelsOf es

theorem ClosedText.append {allowed : String → Prop} {known : List String} {es es' : List Entry}
    (h : ClosedText allowed known es) (h' : ClosedText allowed known es') :
    ClosedText allowed known (es ++ es') := by
  intro l hl
  rw [labelsOf_append, List.mem_append]
  rcases List.mem_append.1 (targetsOf_append ▸ hl) with hl | hl
  · exact (h l hl).imp_right fun h => h.imp_right fun ⟨hg, h⟩ => ⟨hg, .inl h⟩
  · exact (h' l hl).imp_right fun h => h.imp_right fun ⟨hg, h⟩ => ⟨hg, .inr h⟩

/-- A label that is placed in the text need not be known. -/
theorem ClosedText.close {allowed : String → Prop} {known placed : List String} {es : List Entry}
    (h : ClosedText allowed (placed ++ known) es)
    (hp : ∀ l ∈ placed, IsGenerated l ∧ l ∈ labelsOf es) : ClosedText allowed known es := by
  intro l hl
  rcases h l hl with ha | hmem | hown
  · exact .inl ha
  · rcases List.mem_append.1 hmem with hplaced | hknown
    · exact .inr (.inr (hp l hplaced))
    · exact .inr (.inl hknown)
  · exact .inr (.inr hown)

/-- The text of the part is closed, and has the labels that the part places. -/
structure Part.Closed (allowed : String → Prop) (known placed : List String) (p : Part) : Prop where
  targets : ∀ {n ps n'}, p n ps n' → ClosedText allowed known (entriesOf ps)
  places : ∀ {n ps n'}, p n ps n' → ∀ l ∈ placed, l ∈ labelsOf (entriesOf ps)

namespace Part.Closed

variable {allowed : String → Prop} {known known' placed placed' : List String} {p q : Part}

theorem append (hp : p.Closed allowed known placed) (hq : q.Closed allowed known placed') :
    (p ++ q).Closed allowed known (placed ++ placed') where
  targets := by
    rintro n _ n' ⟨ps, m, qs, hps, hqs, rfl⟩
    exact entriesOf_append ▸ (hp.targets hps).append (hq.targets hqs)
  places := by
    rintro n _ n' ⟨ps, m, qs, hps, hqs, rfl⟩ l hl
    rw [entriesOf_append, labelsOf_append, List.mem_append]
    exact (List.mem_append.1 hl).imp (hp.places hps l) (hq.places hqs l)

theorem cons (hp : p.Closed allowed known []) (hq : q.Closed allowed known placed) :
    (p ++ q).Closed allowed known placed :=
  hp.append hq

theorem mono (h : p.Closed allowed known placed) (hknown : known ⊆ known') :
    p.Closed allowed known' placed :=
  ⟨fun hps l hl => (h.targets hps l hl).imp_right fun hl => hl.imp_left (hknown ·), h.places⟩

/-- What a construct places need not be known around it. -/
theorem close (h : p.Closed allowed (placed ++ known) placed) (hg : ∀ l ∈ placed, IsGenerated l) :
    p.Closed allowed known [] where
  targets hps := (h.targets hps).close fun l hl => ⟨hg l hl, h.places hps l hl⟩
  places _ := nofun

theorem places_of_subset (h : p.Closed allowed known placed) (hsub : placed' ⊆ placed) :
    p.Closed allowed known placed' :=
  ⟨h.targets, fun hps l hl => h.places hps l (hsub hl)⟩

theorem given {α : Type} {x : Lowered α} {f : α → Part}
    (h : ∀ a, x = .ok a → (f a).Closed allowed known placed) :
    (Part.given x f).Closed allowed known placed where
  targets := fun ⟨a, ha, hps⟩ => (h a ha).targets hps
  places := fun ⟨a, ha, hps⟩ => (h a ha).places hps

theorem fresh {scope suffix : String} {f : String → Part}
    (h : ∀ name, IsGenerated name → (f name).Closed allowed known placed) :
    (Part.fresh scope suffix f).Closed allowed known placed where
  targets := fun hps => (h _ ⟨_, _, _, rfl⟩).targets hps
  places := fun hps => (h _ ⟨_, _, _, rfl⟩).places hps

theorem nothing : (Part.just []).Closed allowed known [] where
  targets := by
    rintro n ps n' ⟨rfl, -⟩ l hl
    cases hl
  places _ := nofun

/-! ### Entries -/

theorem of_targets {code : Code}
    (h : ∀ l ∈ targetsOf (entriesOf (code.map Piece.op)), allowed l ∨ l ∈ known) :
    (Part.ops code).Closed allowed known [] where
  targets := by
    rintro n ps n' ⟨rfl, -⟩ l hl
    exact (h l hl).imp_right .inl
  places _ := nofun

theorem straight {code : Code} (h : Straight code) : (Part.ops code).Closed allowed known [] :=
  of_targets (by simp [h.targetsOf])

theorem still {op : Opcode} (h : op.isJump = false) : (Part.ops [op.plain]).Closed allowed known [] :=
  of_targets (by simp [entriesOf, Piece.op, Piece.entries, targetsOf, Entry.target?, Opcode.plain, h])

theorem addressed {op : Opcode} {a : UInt16} : (Part.ops [op.addressed a]).Closed allowed known [] :=
  of_targets (by
    simp [entriesOf, Piece.op, Piece.entries, targetsOf, Entry.target?, Opcode.addressed, Opcode.given])

theorem op {op : Opcode} {l : String} (h : allowed l ∨ l ∈ known) :
    (Part.ops [op.named l]).Closed allowed known [] := by
  refine of_targets fun l' hl' => ?_
  obtain rfl : l' = l := by
    simp [entriesOf, Piece.op, Piece.entries, targetsOf, Entry.target?, Opcode.named] at hl'
    exact hl'.2.symm
  exact h

theorem act {symbols : SymbolTable} (a : Action) : (Part.act symbols a).Closed allowed known [] := by
  refine .given fun c hc => ⟨?_, fun _ => nofun⟩
  rintro n ps n' ⟨rfl, -⟩ l hl
  rw [entriesOf_code, ← entriesOf_ops, (a.code_straight c hc).targetsOf] at hl
  cases hl

theorem place {l : String} : (Part.place l).Closed allowed known [l] where
  targets := by
    rintro n ps n' ⟨rfl, -⟩ l' hl'
    cases hl'
  places := by
    rintro n ps n' ⟨rfl, -⟩ l' hl'
    exact hl'

theorem closing {l : String} : (Part.close l).Closed allowed known [l] where
  targets := by
    rintro n ps n' ⟨rfl, -⟩ l' hl'
    cases hl'
  places := by
    rintro n ps n' ⟨rfl, -⟩ l' hl'
    exact hl'

end Part.Closed

/-! ## Choices -/

open StackCode.Part

variable {env : Environment} {ctx : Context} {symbols : SymbolTable} {allowed : String → Prop}
  {known : List String}

/-- A jump to a fixed address, or to a name that is allowed. -/
def JumpTarget.Within (allowed : String → Prop) : JumpTarget → Prop
  | .address _ => True
  | .named l | .generated l => allowed l

theorem jump_closed {op : Opcode} {target : JumpTarget}
    (ht : target.Within fun l => allowed l ∨ l ∈ known) :
    (Part.jump env op target).Closed allowed known [] :=
  .given fun i hi => by
    obtain ⟨a, -, rfl⟩ | ⟨l, hl, rfl⟩ := Environment.jumpInstruction_ok hi
    · exact .addressed
    · rcases hl with rfl | rfl <;> exact .op ht

theorem JumpTarget.Within.orKnown {target : JumpTarget} (h : target.Within allowed) :
    target.Within fun l => allowed l ∨ l ∈ known := by
  cases target with
  | address => trivial
  | named l | generated l => exact .inl h

theorem alternatives_closed {away : Opcode} {elseLabel endLabel : String} {elseIdle : Bool}
    {thenPart elsePart : Part} (ht : thenPart.Closed allowed known [])
    (he : elsePart.Closed allowed known []) (hend : IsGenerated endLabel)
    (helse : IsGenerated elseLabel) :
    (Part.alternatives away elseLabel endLabel elseIdle thenPart elsePart).Closed allowed known [] := by
  unfold Part.alternatives
  split
  · have hall : (Part.ops [away.named endLabel] ++ (thenPart ++ Part.close endLabel)).Closed allowed
        ([endLabel] ++ known) [endLabel] :=
      .cons (.op (.inr (by simp))) (.cons (ht.mono (by simp)) .closing)
    exact hall.close (by simpa using hend)
  · have hall : (Part.ops [away.named elseLabel] ++ (thenPart ++ (Part.ops [Opcode.jump.named endLabel] ++
        (Part.place elseLabel ++ (elsePart ++ Part.close endLabel))))).Closed allowed
        ([elseLabel, endLabel] ++ known) [elseLabel, endLabel] :=
      .cons (.op (.inr (by simp))) (.cons (ht.mono (by simp)) (.cons (.op (.inr (by simp)))
        (.append .place (.cons (he.mono (by simp)) .closing))))
    exact hall.close (by simp [hend, helse])

theorem conditional_closed {condition : Expr} {thenScope elseScope : Scope} {thenPart elsePart : Part}
    (ht : thenPart.Closed allowed known []) (he : elsePart.Closed allowed known [])
    (honly : ∀ target position, thenScope.onlyJump? = some (target, position) → target.Within allowed) :
    (Part.conditional env ctx condition thenScope elseScope thenPart elsePart).Closed allowed known [] :=
  .given fun t _ => by
    refine .cons (.act _) ?_
    split
    next target position hjump =>
      exact .given fun _ _ => .cons (jump_closed (honly target position hjump).orKnown) he
    next =>
      refine .given fun away _ => .fresh fun endLabel hend => ?_
      split
      · exact alternatives_closed ht he hend hend
      · exact .fresh fun elseLabel helse => alternatives_closed ht he hend helse

theorem flagBranch_closed {test : FlagTest} {thenScope elseScope : Scope} {thenPart elsePart : Part}
    (ht : thenPart.Closed allowed known []) (he : elsePart.Closed allowed known [])
    (hthen : ∀ target position, thenScope.leadingJump? = some (target, position) →
      target.Within allowed)
    (helse : ∀ target position, elseScope.leadingJump? = some (target, position) →
      target.Within allowed) :
    (Part.flagBranch env ctx test thenScope elseScope thenPart elsePart).Closed allowed known [] := by
  unfold Part.flagBranch
  split
  · exact .nothing
  · cases hjumps : branchJumps? thenScope elseScope with
    | none =>
      exact .fresh fun elseLabel helse => .fresh fun endLabel hend =>
        alternatives_closed ht he hend helse
    | some jumps =>
      obtain ⟨⟨target, position⟩, other⟩ := jumps
      obtain ⟨htarget, hother⟩ := branchJumps?_ok hjumps
      have hfirst : (Part.jump env (.branch test) target).Closed allowed known [] :=
        jump_closed (hthen _ _ htarget).orKnown
      obtain ⟨-, rfl⟩ | ⟨⟨target', position'⟩, htarget', rfl⟩ := hother
      · exact hfirst.cons .nothing
      · exact hfirst.cons (jump_closed (helse _ _ htarget').orKnown)

/-! ## Choices among many -/

theorem choiceTests_targets {t : IntType} {label l : String} {values : List Value}
    (h : l ∈ targetsOf (entriesOf ((choiceTests t label values).map Piece.op))) : l = label := by
  rw [entriesOf_ops, targetsOf, List.mem_filterMap] at h
  obtain ⟨e, he, hl⟩ := h
  obtain ⟨i, hi, rfl⟩ := List.mem_map.1 he
  simp only [choiceTests, List.mem_flatMap, List.mem_cons, List.not_mem_nil, or_false] at hi
  obtain ⟨v, -, rfl | rfl | rfl⟩ := hi
  · simp [Entry.target?, Opcode.plain, Opcode.isJump] at hl
  · simp [Entry.target?, Opcode.given, Opcode.isJump] at hl
  · simpa [Entry.target?, Opcode.named, Opcode.isJump, eq_comm] using hl

/-- The parts of the choices are closed. -/
def ChoicesClosed (allowed : String → Prop) (known : List String)
    (choices : List (Option (List Expr) × Part)) : Prop :=
  ∀ c ∈ choices, c.2.Closed allowed known []

/-- The tests go to the labels of the parts that are left for later. -/
theorem choiceHeads_closed {scope endLabel : String} {t : IntType}
    {choices : List (Option (List Expr) × Part)} {parts : List (String × Part)} {n n' : Nat}
    {ps : List Piece} (hc : ChoicesClosed allowed known choices)
    (h : Part.choiceHeads symbols scope t choices n ps n' parts)
    (hparts : ∀ x ∈ parts, x.1 ∈ known) (hend : endLabel ∈ known) :
    ClosedText allowed known (entriesOf ps) ∧
      (∀ x ∈ parts, IsGenerated x.1) ∧
      (Part.choiceBodies endLabel parts).Closed allowed known (parts.map (·.1)) := by
  induction choices generalizing n ps n' parts with
  | nil =>
    obtain ⟨rfl, -, rfl⟩ := h
    exact ⟨nofun, nofun, .nothing⟩
  | cons choice rest ih =>
    obtain ⟨values, part⟩ := choice
    have hpart := hc _ List.mem_cons_self
    have hrest : ChoicesClosed allowed known rest := fun c hmem => hc c (List.mem_cons_of_mem _ hmem)
    cases values with
    | none =>
      obtain ⟨ps₁, m, ps₂, hp, hheads, rfl⟩ := h
      obtain ⟨htargets, hgen, hbodies⟩ := ih hrest hheads hparts
      exact ⟨entriesOf_append ▸ (hpart.targets hp).append htargets, hgen, hbodies⟩
    | some values =>
      obtain ⟨v, vs, label, ps₂, parts', -, rfl, hheads, rfl, rfl⟩ := h
      have hlabel := hparts _ List.mem_cons_self
      obtain ⟨htargets, hgen, hbodies⟩ := ih hrest hheads fun x hx => hparts x (List.mem_cons_of_mem _ hx)
      refine ⟨?_, ?_, ?_⟩
      · rw [entriesOf_append]
        exact .append (fun l hl => .inr (.inl (choiceTests_targets hl ▸ hlabel))) htargets
      · intro x hx
        rcases List.mem_cons.1 hx with rfl | hx
        · exact ⟨_, _, _, rfl⟩
        · exact hgen x hx
      · exact .cons (.op (.inr hend)) (.append .place (.cons hpart hbodies))

theorem choose_closed {condition : Expr} {choices : List (Option (List Expr) × Part)}
    (hc : ∀ {known'}, known ⊆ known' → ChoicesClosed allowed known' choices) :
    (Part.choose env ctx condition choices).Closed allowed known [] :=
  .given fun type _ => .given fun t _ => .cons (.act _) (by
    split
    · exact .still rfl
    · refine .fresh fun endLabel hend => ⟨?_, fun _ => nofun⟩
      rintro n _ n' ⟨ps₁, m, ps₂, parts, hheads, hbodies, rfl⟩
      have hknown : known ⊆ parts.map (·.1) ++ [endLabel] ++ known := List.subset_append_right _ _
      have hend' : endLabel ∈ parts.map (·.1) ++ [endLabel] ++ known := by simp
      obtain ⟨htargets, hgen, hclosed⟩ := choiceHeads_closed (hc hknown) hheads
        (fun x hx => List.mem_append_left _ (List.mem_append_left _ (List.mem_map_of_mem hx))) hend'
      have hclosing : (Part.place endLabel ++ Part.ops [(Opcode.discard (.int t.size)).plain]).Closed
          allowed (parts.map (·.1) ++ [endLabel] ++ known) [endLabel] := .append .place (.still rfl)
      have hrest := hclosed.append hclosing
      rw [entriesOf_append]
      refine (htargets.append (hrest.targets hbodies)).close fun l hl => ?_
      rw [labelsOf_append]
      refine ⟨?_, List.mem_append_right _ (hrest.places hbodies l hl)⟩
      rcases List.mem_append.1 hl with hl | hl
      · obtain ⟨x, hx, rfl⟩ := List.mem_map.1 hl
        exact hgen x hx
      · exact List.mem_singleton.1 hl ▸ hend)

/-! ## Loops -/

/-- The body of a loop is closed around the labels of the loop. -/
def BodyClosed (allowed : String → Prop) (known : List String) (body : LoopLabels → Part) : Prop :=
  ∀ labels known', known ⊆ known' → labels.next ∈ known' → labels.leave ∈ known' →
    (body labels).Closed allowed known' []

theorem frame_closed {scope : String} {g : LoopFrame → Part}
    (h : ∀ f : LoopFrame, (g f).Closed allowed ([f.start, f.next, f.leave] ++ known)
      [f.start, f.next, f.leave]) : (Part.frame scope g).Closed allowed known [] :=
  .fresh fun start hstart => .fresh fun next hnext => .fresh fun leave hleave =>
    (h ⟨start, next, leave⟩).close (by simp [hstart, hnext, hleave])

theorem BodyClosed.inFrame {body : LoopLabels → Part} (hb : BodyClosed allowed known body)
    (f : LoopFrame) : (body f.labels).Closed allowed ([f.start, f.next, f.leave] ++ known) [] :=
  hb f.labels _ (List.subset_append_right _ _) (by simp [LoopFrame.labels])
    (by simp [LoopFrame.labels])

theorem ConstantRange.testCode_closed {r : ConstantRange} {t : IntType} {counter start : String}
    (h : start ∈ known) : (Part.ops (r.testCode t counter start)).Closed allowed known [] := by
  unfold testCode
  split
  · exact .op (.inr h)
  · refine .of_targets fun l hl => .inr ?_
    rw [entriesOf_ops] at hl
    obtain rfl : l = start := by
      simpa [targetsOf, Entry.target?, Opcode.named, Opcode.given, Opcode.isJump] using hl
    exact h

theorem constantLoop_closed {r : ConstantRange} {counter : Counter} {t : DataType} {scope : String}
    {body : LoopLabels → Part} (hb : BodyClosed allowed known body) :
    (Part.constantLoop r counter t scope body).Closed allowed known [] :=
  .given fun _ _ => frame_closed fun f =>
    .cons (.straight ConstantRange.initCode_straight) (.append .place (.cons (hb.inFrame f)
      (.append .place (.cons (.given fun c hc => .straight (ConstantRange.stepCode_straight c hc))
        (.cons (ConstantRange.testCode_closed (by simp)) .closing)))))

theorem variableLoop_closed {first last step : Expr} {counter : Counter} {t : DataType}
    {scope : String} {body : LoopLabels → Part} (hb : BodyClosed allowed known body) :
    (Part.variableLoop env first last step counter t scope body).Closed allowed known [] :=
  .given fun _ _ => .given fun _ _ => .cons (.act _) (frame_closed fun f =>
    .append .place (.given fun _ _ => .cons (.act _) (.given fun _ _ =>
      .cons (jump_closed (.inr (by simp))) (.cons (hb.inFrame f) (.append .place (.cons (.act _)
        (.cons (.act _) (.cons (.op (.inr (by simp))) .closing))))))))

theorem ElementRange.stepCode_closed {r : ElementRange} {index start : String} (h : start ∈ known) :
    (Part.ops (r.stepCode index start)).Closed allowed known [] := by
  refine .of_targets fun l hl => .inr ?_
  rw [entriesOf_ops] at hl
  obtain rfl : l = start := by
    simpa [stepCode, targetsOf, Entry.target?, Opcode.named, Opcode.given, Opcode.isJump,
      Opcode.stepVar] using hl
  exact h

theorem elementLoop_closed {array : String} {counter : Counter} {t : DataType} {scope : String}
    {body : LoopLabels → Part} (hb : BodyClosed allowed known body) :
    (Part.elementLoop symbols array counter t scope body).Closed allowed known [] :=
  .given fun _ _ => .fresh fun index _ => frame_closed fun f =>
    .cons (.straight ElementRange.initCode_straight) (.append .place (.cons
      (.given fun c hc => .straight (ElementRange.fetchCode_straight c hc)) (.cons (hb.inFrame f)
        (.append .place (.cons (ElementRange.stepCode_closed (by simp)) .closing)))))

theorem forLoop_closed {register : Option Register} {variableName : Option String} {iterable : Expr}
    {scope : String} {body : LoopLabels → Part} (hb : BodyClosed allowed known body) :
    (Part.forLoop env register variableName iterable scope body).Closed allowed known [] := by
  refine .given fun (counter, t) _ => ?_
  cases iterable with
  | range first last step =>
    cases h : ConstantRange.ofExprs? env.symbols first last step with
    | some r => simpa only [h] using constantLoop_closed hb
    | none => simpa only [h] using variableLoop_closed hb
  | var name => exact elementLoop_closed hb
  | _ => exact ⟨fun h => h.elim, fun h => h.elim⟩

theorem whileLoop_closed {condition : Expr} {scope : String} {body : LoopLabels → Part}
    (hb : BodyClosed allowed known body) :
    (Part.whileLoop env condition scope body).Closed allowed known [] := by
  refine .fresh fun start hstart => .fresh fun leave hleave => .fresh fun next hnext => ?_
  refine .close ?_ (show ∀ l ∈ [start, next, leave], IsGenerated l by simp [hstart, hnext, hleave])
  exact .given fun _ _ => .given fun _ _ => .cons (.op (.inr (by simp))) (.append .place
    (.cons (hb.inFrame ⟨start, next, leave⟩) (.append .place (.cons (.act _)
      (.cons (.op (.inr (by simp))) .closing)))))

theorem repeatLoop_closed {condition : Expr} {scope : String} {body : LoopLabels → Part}
    (hb : BodyClosed allowed known body) :
    (Part.repeatLoop env condition scope body).Closed allowed known [] :=
  frame_closed fun f => .given fun _ _ => .given fun _ _ => .append .place (.cons (hb.inFrame f)
    (.append .place (.cons (.act _) (.cons (.op (.inr (by simp))) .closing))))

/-! ## Other statements -/

theorem exit_closed {kind : LoopExit}
    (hloop : ∀ labels, ctx.loop = some labels → labels.next ∈ known ∧ labels.leave ∈ known) :
    (Part.exit ctx kind).Closed allowed known [] := by
  refine ⟨?_, fun _ => nofun⟩
  rintro n ps n' ⟨labels, hlabels, hps⟩
  have hmem : labels.target kind ∈ known := by
    cases kind with
    | leave => exact (hloop labels hlabels).2
    | next => exact (hloop labels hlabels).1
  exact (Part.Closed.op (.inr hmem)).targets hps

theorem gives_closed {values : List (Expr × DataType)} :
    (Part.gives symbols values).Closed allowed known [] := by
  induction values with
  | nil => exact .nothing
  | cons value values ih => exact .cons (.act _) ih

theorem ret_closed {values : List Expr} : (Part.ret env ctx values).Closed allowed known [] := by
  have hall : (Part.gives env.symbols (values.zip ctx.returnTypes).reverse ++
      Part.ops [Opcode.ret.plain]).Closed allowed known [] := gives_closed.cons (.still rfl)
  exact ⟨fun h => hall.targets h.2, fun _ => nofun⟩

theorem verbatim_closed : Part.verbatim.Closed allowed known [] := by
  refine ⟨?_, fun _ => nofun⟩
  rintro n ps n' ⟨code, hcode, hps⟩
  refine (Part.Closed.of_targets fun l hl => ?_).targets hps
  rw [entriesOf_ops, targetsOf, List.mem_filterMap] at hl
  obtain ⟨e, he, hl⟩ := hl
  obtain ⟨i, hi, rfl⟩ := List.mem_map.1 he
  rcases hcode i hi with h | h | h <;> simp [Entry.target?, h, Opcode.isJump] at hl

theorem subroutine_closed {s : Signature} {body : List Statement} {part : Part}
    (hp : part.Closed allowed known []) : (Part.subroutine s body part).Closed allowed known [] := by
  unfold Part.subroutine
  split
  · exact ⟨fun h => Part.Closed.nothing.targets h.2, fun _ => nofun⟩
  · have hlabel : (Part.just [.entry (.label s.name true)]).Closed allowed known [] := by
      refine ⟨?_, fun _ => nofun⟩
      rintro n ps n' ⟨rfl, -⟩ l hl
      cases hl
    refine hlabel.cons (.cons (.still rfl) (.cons ?_ (.still rfl)))
    unfold Part.subroutineBody
    split
    · exact verbatim_closed
    · exact hp

/-! ## Statements -/

/-- A jump in the source goes to a fixed address or to a name that is allowed, never to a label that
stands for itself. -/
def Statement.JumpsWithin (allowed : String → Prop) : Statement → Prop
  | .jump (.named l) _ => allowed l
  | .jump (.generated _) _ => False
  | _ => True

theorem Statement.JumpsWithin.target {target : JumpTarget} {position : Position}
    (h : (Statement.jump target position).JumpsWithin allowed) : target.Within allowed := by
  cases target with
  | address => trivial
  | named => exact h
  | generated => exact h.elim

/-- A jump at the start of a scope. -/
theorem Scope.within_of_jump {s : Scope} {target : JumpTarget} {position : Position}
    (hs : ∀ x ∈ s.inner, x.JumpsWithin allowed)
    (h : ∃ rest, s.statements = .jump target position :: rest) : target.Within allowed := by
  obtain ⟨rest, h⟩ := h
  exact (hs (.jump target position) (mem_inner_of_cons h)).target

/-- The labels of the innermost loop are known. -/
def Context.Knows (ctx : Context) (known : List String) : Prop :=
  ∀ labels, ctx.loop = some labels → labels.next ∈ known ∧ labels.leave ∈ known

theorem Context.Knows.mono {known' : List String} (h : ctx.Knows known) (hsub : known ⊆ known') :
    ctx.Knows known' := fun labels hl => (h labels hl).imp (hsub ·) (hsub ·)

theorem Context.knows_inLoop {labels : LoopLabels} (hnext : labels.next ∈ known)
    (hleave : labels.leave ∈ known) : (ctx.inLoop labels).Knows known := by
  intro labels' hl
  obtain rfl : labels = labels' := Option.some.inj hl
  exact ⟨hnext, hleave⟩

theorem BodyClosed.of_scope {body : Scope}
    (h : ∀ {ctx : Context} {known : List String}, ctx.Knows known →
      (body.emits env ctx).Closed allowed known []) :
    BodyClosed allowed known fun labels => body.emits env (ctx.inLoop labels) :=
  fun _ _ _ hnext hleave => h (Context.knows_inLoop hnext hleave)

/-- Outside of all loops nothing needs to be known. -/
theorem Context.knows_of_loop (h : ctx.loop = none) : ctx.Knows known := fun labels hl => by
  rw [h] at hl
  cases hl

mutual

/-- **The text of a statement is closed.** -/
theorem Statement.emits_closed (env : Environment) : ∀ (s : Statement) {ctx : Context}
    {known : List String}, (∀ x ∈ s.withInner, x.JumpsWithin allowed) → ctx.Knows known →
    (s.emits env ctx).Closed allowed known []
  | .varDecl _, _, _, _, _ | .nop, _, _, _, _ => .nothing
  | .label _ _, _, _, _, _ => Part.Closed.place.places_of_subset (List.nil_subset _)
  | .assign p value _, _, _, _, _ => .act (.assign p value)
  | .step p op _, _, _, _, _ => .act (.step p op)
  | .jump _ _, _, _, hs, _ => jump_closed (hs _ List.mem_cons_self).target.orKnown
  | .call target args _, _, _, _, _ => .act (.call target args)
  | .cond _ thenPart elsePart _, _, _, hs, hk => by
    have hthen := fun x hx => hs x (List.mem_cons_of_mem _ (List.mem_append_left _ hx))
    have helse := fun x hx => hs x (List.mem_cons_of_mem _ (List.mem_append_right _ hx))
    exact conditional_closed (thenPart.emits_closed env hthen hk) (elsePart.emits_closed env helse hk)
      fun _ _ h => Scope.within_of_jump hthen ⟨[], Scope.onlyJump?_ok h⟩
  | .branch _ thenPart elsePart _, _, _, hs, hk => by
    have hthen := fun x hx => hs x (List.mem_cons_of_mem _ (List.mem_append_left _ hx))
    have helse := fun x hx => hs x (List.mem_cons_of_mem _ (List.mem_append_right _ hx))
    exact flagBranch_closed (thenPart.emits_closed env hthen hk) (elsePart.emits_closed env helse hk)
      (fun _ _ h => Scope.within_of_jump hthen (Scope.leadingJump?_ok h))
      fun _ _ h => Scope.within_of_jump helse (Scope.leadingJump?_ok h)
  | .exit _ _, _, _, _, hk => exit_closed hk
  | .forEach _ _ _ body _, ctx, known, hs, _ => by
    have hbody : BodyClosed allowed known fun labels => body.emits env (ctx.inLoop labels) :=
      .of_scope (body.emits_closed env fun x hx => hs x (List.mem_cons_of_mem _ hx))
    unfold Statement.emits
    split
    · exact .nothing
    · exact forLoop_closed hbody
  | .whileLoop _ body _, ctx, known, hs, _ => by
    have hbody : BodyClosed allowed known fun labels => body.emits env (ctx.inLoop labels) :=
      .of_scope (body.emits_closed env fun x hx => hs x (List.mem_cons_of_mem _ hx))
    rw [Statement.emits]
    exact whileLoop_closed hbody
  | .repeatLoop body _ _, ctx, known, hs, _ => by
    have hbody : BodyClosed allowed known fun labels => body.emits env (ctx.inLoop labels) :=
      .of_scope (body.emits_closed env fun x hx => hs x (List.mem_cons_of_mem _ hx))
    rw [Statement.emits]
    exact repeatLoop_closed hbody
  | .scope s, _, _, hs, hk => s.emits_closed env (fun x hx => hs x (List.mem_cons_of_mem _ hx)) hk
  | .ret _ _, _, _, _, _ => ret_closed
  | .returnFromIrq _, _, _, _, _ => .still rfl
  | .directive _ _ _, _, _, _, _ | .assembly _ _, _, _, _, _ => verbatim_closed
  | .subroutine s body _, _, _, hs, _ => by
    have hbody := fun x hx => hs x (List.mem_cons_of_mem _ hx)
    exact subroutine_closed (Statement.emitsAll_closed env body hbody (Context.knows_of_loop rfl))
  | .choose _ choices _, _, _, hs, hk => by
    have hinner := fun x hx => hs x (List.mem_cons_of_mem _ hx)
    exact choose_closed fun hsub => Choice.emits_closed env choices hinner (hk.mono hsub)

theorem Scope.emits_closed (env : Environment) : ∀ (s : Scope) {ctx : Context} {known : List String},
    (∀ x ∈ s.inner, x.JumpsWithin allowed) → ctx.Knows known →
    (s.emits env ctx).Closed allowed known []
  | ⟨_, statements, _⟩, _, _, hs, hk => Statement.emitsAll_closed env statements hs hk

theorem Choice.emits_closed (env : Environment) : ∀ (choices : List Choice) {ctx : Context}
    {known : List String}, (∀ x ∈ Choice.innerOf choices, x.JumpsWithin allowed) → ctx.Knows known →
    ChoicesClosed allowed known (Choice.emits env ctx choices)
  | [], _, _, _, _ => nofun
  | ⟨_, body⟩ :: rest, _, _, hs, hk => by
    have hbody := body.emits_closed env (fun x hx => hs x (List.mem_append_left _ hx)) hk
    have hrest := Choice.emits_closed env rest (fun x hx => hs x (List.mem_append_right _ hx)) hk
    exact List.forall_mem_cons.2 ⟨hbody, hrest⟩

theorem Statement.emitsAll_closed (env : Environment) : ∀ (ss : List Statement) {ctx : Context}
    {known : List String}, (∀ x ∈ Statement.allOf ss, x.JumpsWithin allowed) → ctx.Knows known →
    (Statement.emitsAll env ctx ss).Closed allowed known []
  | [], _, _, _, _ => .nothing
  | s :: rest, _, _, hs, hk => by
    have hfirst := s.emits_closed env (fun x hx => hs x (List.mem_append_left _ hx)) hk
    have hrest := Statement.emitsAll_closed env rest (fun x hx => hs x (List.mem_append_right _ hx)) hk
    exact hfirst.cons hrest

end

end StackCode
