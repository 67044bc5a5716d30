/-
The index of a loop over elements is fresh. Parts of the text are counted one after the other: the
indices that a part names have been made up while it was written, and four instructions at most name the
same one. What the source calls by a name of its own is no index, unless its name looks like one.
-/
import StackCode.Proofs.Labels.Bound
import StackCode.Proofs.Storage.Named

namespace StackCode

/-! ## Names of the source -/

/-- The names that instructions take from a symbol: its own, and those of members and parameters. -/
def Symbol.names (name : String) : Symbol → List String
  | .var info => name :: info.members.map (memberName name)
  | .subroutine s => name :: s.name :: s.parameters.map s.slot
  | .label => [name]

def SymbolTable.names (symbols : SymbolTable) : List String :=
  symbols.bindings.flatMap fun (name, s) => s.names name

/-- No name of the source looks like one that is made up. -/
def SymbolTable.IsPlain (symbols : SymbolTable) : Prop := ∀ name ∈ symbols.names, ¬ IsGenerated name

/-- The instruction does not name the index of a loop. -/
def Instruction.IsQuiet (i : Instruction) : Prop := ∀ name, i.name? = some name → ¬ IsIndex name

theorem Instruction.isQuiet_of_label {i : Instruction} (h : ∀ name, i.label = some name → ¬ IsIndex name) :
    i.IsQuiet := fun name hname => by
  unfold name? at hname
  split at hname
  case h_4 => exact h name hname
  all_goals cases hname

theorem Opcode.isQuiet_plain (op : Opcode) : op.plain.IsQuiet := Instruction.isQuiet_of_label nofun

theorem Opcode.isQuiet_given (op : Opcode) (v : Value) : (op.given v).IsQuiet :=
  Instruction.isQuiet_of_label nofun

theorem Opcode.isQuiet_named {op : Opcode} {name : String} (h : ¬ IsIndex name) : (op.named name).IsQuiet :=
  Instruction.isQuiet_of_label fun _ hname => Option.some.inj hname ▸ h

theorem Register.not_isGenerated_name (r : Register) : ¬ IsGenerated r.name :=
  StackCode.not_isGenerated (by cases r <;> decide)

variable {env : Environment} {ctx : Context} {symbols : SymbolTable}

theorem SymbolTable.mem_names {name own : String} {s : Symbol} (h : symbols.find? name = some s)
    (hown : own ∈ s.names name) : own ∈ symbols.names := by
  obtain ⟨before, behind, hbindings, -⟩ := List.lookup_eq_some_iff.1 h
  refine List.mem_flatMap.2 ⟨(name, s), ?_, hown⟩
  rw [hbindings]
  exact List.mem_append_right _ List.mem_cons_self

theorem SymbolTable.mem_names_of_var {name : String} {info : VariableInfo} (h : symbols.var? name = some info) :
    name ∈ symbols.names := by
  unfold var? at h
  split at h
  next hs => exact mem_names hs List.mem_cons_self
  next => cases h

theorem SymbolTable.Mentions.mem_names {name : String} (h : symbols.Mentions name) : name ∈ symbols.names := by
  cases h with
  | @symbol _ s found =>
    refine SymbolTable.mem_names found ?_
    cases s <;> exact List.mem_cons_self
  | signature found => exact SymbolTable.mem_names found (List.mem_cons_of_mem _ List.mem_cons_self)
  | member found mem =>
    unfold var? at found
    split at found
    next hs =>
      cases found
      exact SymbolTable.mem_names hs (List.mem_cons_of_mem _ (List.mem_map_of_mem mem))
    next => cases found

theorem SymbolTable.IsPlain.not_isIndex {name : String} (hs : symbols.IsPlain) (h : name ∈ symbols.names) :
    ¬ IsIndex name :=
  not_isIndex_of_not_isGenerated (hs name h)

/-- **Code of expressions and of single statements does not name the index of a loop.** -/
theorem SymbolTable.IsPlain.admits (hs : symbols.IsPlain) : symbols.Admits Instruction.IsQuiet where
  other _ _ known := Instruction.isQuiet_of_label fun name hname => hs.not_isIndex (known name hname).mem_names
  register r _ := Opcode.isQuiet_named (not_isIndex_of_not_isGenerated r.not_isGenerated_name)
  var _ found _ _ := Opcode.isQuiet_named (hs.not_isIndex (SymbolTable.mem_names_of_var found))
  parameter _ found _ mem := Opcode.isQuiet_named (hs.not_isIndex
    (SymbolTable.mem_names found (List.mem_cons_of_mem _ (List.mem_cons_of_mem _ (List.mem_map_of_mem mem)))))

theorem SymbolTable.IsPlain.step_quiet (hs : symbols.IsPlain) {op : Increment} {p : Place} :
    (p.step symbols op (p.inner symbols)).All Instruction.IsQuiet :=
  Place.step_all hs.admits fun _ _ _ _ found _ =>
    Opcode.isQuiet_named (hs.not_isIndex (SymbolTable.mem_names_of_var found))

theorem Counter.not_isIndex_name {register : Option Register} {variableName : Option String}
    {counter : Counter} {t : DataType} (hs : symbols.IsPlain)
    (h : Counter.find symbols register variableName = .ok (counter, t)) : ¬ IsIndex counter.name := by
  obtain ⟨r, -, rfl, -⟩ | ⟨name, info, -, -, rfl, hinfo, -⟩ := Counter.find_cases h
  · exact not_isIndex_of_not_isGenerated r.not_isGenerated_name
  · exact hs.not_isIndex (SymbolTable.mem_names_of_var hinfo)

theorem Code.All.not_isIndex {code : Code} (h : code.All Instruction.IsQuiet) :
    ∀ name ∈ namesOf (code.map .instruction), ¬ IsIndex name := fun name hname => by
  rw [namesOf_instructions, List.mem_filterMap] at hname
  obtain ⟨i, hi, hname⟩ := hname
  exact h i hi name hname

/-! ## Parts -/

/-- The indices that the part names are made up while it is written. -/
def Part.Spans (p : Part) : Prop := ∀ ⦃n ps n'⦄, p n ps n' → StackCode.Spans n (namesOf (entriesOf ps)) n'

namespace Part.Spans

variable {p q : Part}

theorem append (hp : p.Spans) (hq : q.Spans) : (p ++ q).Spans := by
  rintro n _ n' ⟨ps, m, qs, hps, hqs, rfl⟩
  rw [entriesOf_append, namesOf_append]
  exact (hp hps).append (hq hqs)

theorem given {α : Type} {x : Lowered α} {f : α → Part} (h : ∀ a, x = .ok a → (f a).Spans) :
    (Part.given x f).Spans :=
  fun _ _ _ ⟨a, ha, hps⟩ => h a ha hps

/-- A name that is made up for something else is no index. -/
theorem fresh {scope suffix : String} {f : String → Part} (hs : IsPurpose suffix)
    (hne : suffix ≠ "forloop_index") (h : ∀ name, ¬ IsIndex name → (f name).Spans) :
    (Part.fresh scope suffix f).Spans :=
  fun n _ _ hps => (h _ (not_isIndex_labelName hs hne) hps).later (Nat.le_succ n)

theorem of_still {ps : List Piece} (h : ∀ name ∈ namesOf (entriesOf ps), ¬ IsIndex name) :
    (Part.just ps).Spans := by
  rintro n _ _ ⟨rfl, rfl⟩
  exact .still h

theorem nothing : (Part.just []).Spans := of_still nofun

theorem ops {code : Code} (h : code.All Instruction.IsQuiet) : (Part.ops code).Spans :=
  of_still (entriesOf_ops code ▸ h.not_isIndex)

theorem op {op : Opcode} {l : String} (h : ¬ IsIndex l) : (Part.ops [op.named l]).Spans :=
  ops (.single (Opcode.isQuiet_named h))

theorem plain (op : Opcode) : (Part.ops [op.plain]).Spans := ops (.single op.isQuiet_plain)

theorem act (hs : symbols.IsPlain) (a : Action) : (Part.act symbols a).Spans :=
  .given fun c hc => of_still (entriesOf_code a c ▸
    Code.All.not_isIndex (a.code_all hs.admits (fun _ _ _ => hs.step_quiet) c hc))

theorem place {l : String} : (Part.place l).Spans := of_still nofun

theorem closing {l : String} : (Part.close l).Spans := of_still nofun

theorem verbatim : Part.verbatim.Spans := fun _ _ _ ⟨_, hcode, hps⟩ =>
  ops (fun i hi name hname => by
    rcases hcode i hi with h | h | h <;> simp [Instruction.name?, h] at hname) hps

end Part.Spans

/-! ## Choices -/

/-- A label that a jump of the source names is its own. -/
theorem Environment.jumpInstruction_quiet (hs : env.symbols.IsPlain) {op : Opcode} {target : JumpTarget}
    {i : Instruction} (ht : ∀ l, target = .generated l → ¬ IsIndex l)
    (h : env.jumpInstruction op target = .ok i) : i.IsQuiet := by
  unfold jumpInstruction at h
  split at h
  · split at h <;> cases h
    exact op.isQuiet_given _
  next l =>
    cases h
    exact Opcode.isQuiet_named (ht l rfl)
  · split at h <;> cases h
    all_goals
      next found => exact Opcode.isQuiet_named (hs.not_isIndex (SymbolTable.Mentions.symbol found).mem_names)

/-- The target is not a label that stands for itself: the source can name it. -/
def JumpTarget.IsOfSource (target : JumpTarget) : Prop := ∀ l, target ≠ .generated l

theorem jump_spans (hs : env.symbols.IsPlain) {op : Opcode} {target : JumpTarget}
    (ht : ∀ l, target = .generated l → ¬ IsIndex l) : (Part.jump env op target).Spans :=
  .given fun _ hi => .ops (.single (env.jumpInstruction_quiet hs ht hi))

theorem alternatives_spans {away : Opcode} {elseLabel endLabel : String} {elseIdle : Bool}
    {thenPart elsePart : Part} (ht : thenPart.Spans) (he : elsePart.Spans) (hend : ¬ IsIndex endLabel)
    (helse : ¬ IsIndex elseLabel) :
    (Part.alternatives away elseLabel endLabel elseIdle thenPart elsePart).Spans := by
  unfold Part.alternatives
  split
  · exact .append (.op hend) (.append ht .closing)
  · exact .append (.op helse) (.append ht (.append (.op hend) (.append .place (.append he .closing))))

theorem conditional_spans (hs : env.symbols.IsPlain) {condition : Expr} {thenScope elseScope : Scope}
    {thenPart elsePart : Part} (ht : thenPart.Spans) (he : elsePart.Spans)
    (honly : ∀ target position, thenScope.onlyJump? = some (target, position) → target.IsOfSource) :
    (Part.conditional env ctx condition thenScope elseScope thenPart elsePart).Spans :=
  .given fun t _ => by
    refine .append (.act hs _) ?_
    split
    next target position hjump =>
      exact .given fun _ _ => .append
        (jump_spans hs fun l hl => absurd hl (honly target position hjump l)) he
    next =>
      refine .given fun away _ => .fresh (by decide) (by decide) fun endLabel hend => ?_
      split
      · exact alternatives_spans ht he hend hend
      · exact .fresh (by decide) (by decide) fun elseLabel helse => alternatives_spans ht he hend helse

theorem flagBranch_spans (hs : env.symbols.IsPlain) {test : FlagTest} {thenScope elseScope : Scope}
    {thenPart elsePart : Part} (ht : thenPart.Spans) (he : elsePart.Spans)
    (hthen : ∀ target position, thenScope.leadingJump? = some (target, position) → target.IsOfSource)
    (helse : ∀ target position, elseScope.leadingJump? = some (target, position) → target.IsOfSource) :
    (Part.flagBranch env ctx test thenScope elseScope thenPart elsePart).Spans := by
  unfold Part.flagBranch
  split
  · exact .nothing
  · cases hjumps : branchJumps? thenScope elseScope with
    | none =>
      exact .fresh (by decide) (by decide) fun elseLabel helse => .fresh (by decide) (by decide)
        fun endLabel hend => alternatives_spans ht he hend helse
    | some jumps =>
      obtain ⟨⟨target, position⟩, other⟩ := jumps
      obtain ⟨htarget, hother⟩ := branchJumps?_ok hjumps
      have hfirst : (Part.jump env (.branch test) target).Spans :=
        jump_spans hs fun l hl => absurd hl (hthen _ _ htarget l)
      obtain ⟨-, rfl⟩ | ⟨⟨target', position'⟩, htarget', rfl⟩ := hother
      · exact hfirst.append .nothing
      · exact hfirst.append (jump_spans hs fun l hl => absurd hl (helse _ _ htarget' l))

/-! ## Choices among many -/

theorem choiceTests_quiet (t : IntType) {label : String} (values : List Value) (h : ¬ IsIndex label) :
    Code.All Instruction.IsQuiet (choiceTests t label values) := fun i hi => by
  simp only [choiceTests, List.mem_flatMap, List.mem_cons, List.not_mem_nil, or_false] at hi
  obtain ⟨v, -, rfl | rfl | rfl⟩ := hi
  · exact Opcode.isQuiet_plain _
  · exact Opcode.isQuiet_given _ _
  · exact Opcode.isQuiet_named h

theorem choice_ne_index (n : Int) : s!"choice_{n}" ≠ "forloop_index" := fun h => by
  have hlist := congrArg String.toList h
  cases n <;> simp [toString, Int.repr] at hlist

/-- The bodies that are left for later are those of the choices, and their labels are no indices. -/
theorem choiceHeads_spans {scope : String} {t : IntType} {choices : List (Option (List Expr) × Part)}
    {parts : List (String × Part)} {n n' : Nat} {ps : List Piece} (hc : ∀ c ∈ choices, c.2.Spans)
    (h : Part.choiceHeads symbols scope t choices n ps n' parts) :
    Spans n (namesOf (entriesOf ps)) n' ∧ ∀ x ∈ parts, x.2.Spans := by
  induction choices generalizing n ps n' parts with
  | nil =>
    obtain ⟨rfl, rfl, rfl⟩ := h
    exact ⟨.still nofun, nofun⟩
  | cons choice rest ih =>
    obtain ⟨values, part⟩ := choice
    have hpart := hc _ List.mem_cons_self
    have hrest : ∀ c ∈ rest, c.2.Spans := fun c hmem => hc c (List.mem_cons_of_mem _ hmem)
    cases values with
    | none =>
      obtain ⟨ps₁, m, ps₂, hp, hheads, rfl⟩ := h
      obtain ⟨hspans, hbodies⟩ := ih hrest hheads
      rw [entriesOf_append, namesOf_append]
      exact ⟨(hpart hp).append hspans, hbodies⟩
    | some values =>
      obtain ⟨v, vs, label, ps₂, parts', -, rfl, hheads, rfl, rfl⟩ := h
      obtain ⟨hspans, hbodies⟩ := ih hrest hheads
      have hlabel : ¬ IsIndex (labelName scope s!"choice_{v.int?.getD 0}" (n + 1)) :=
        not_isIndex_labelName (.choice _) (choice_ne_index _)
      have htests := Part.Spans.ops (choiceTests_quiet t (v :: vs) hlabel) (n := n) ⟨rfl, rfl⟩
      rw [entriesOf_append, namesOf_append]
      exact ⟨htests.append (hspans.later (Nat.le_succ n)), List.forall_mem_cons.2 ⟨hpart, hbodies⟩⟩

theorem choiceBodies_spans {endLabel : String} {parts : List (String × Part)} (hend : ¬ IsIndex endLabel)
    (hp : ∀ x ∈ parts, x.2.Spans) : (Part.choiceBodies endLabel parts).Spans := by
  induction parts with
  | nil => exact .nothing
  | cons part rest ih =>
    exact .append (.op hend) (.append .place (.append (hp _ List.mem_cons_self)
      (ih fun x hx => hp x (List.mem_cons_of_mem _ hx))))

theorem choose_spans (hs : env.symbols.IsPlain) {condition : Expr}
    {choices : List (Option (List Expr) × Part)} (hc : ∀ c ∈ choices, c.2.Spans) :
    (Part.choose env ctx condition choices).Spans :=
  .given fun type _ => .given fun t _ => .append (.act hs _) (by
    split
    · exact .plain _
    · refine .fresh (by decide) (by decide) fun endLabel hend => ?_
      rintro n _ n' ⟨ps₁, m, ps₂, parts, hheads, hbodies, rfl⟩
      obtain ⟨hspans, hparts⟩ := choiceHeads_spans hc hheads
      rw [entriesOf_append, namesOf_append]
      exact hspans.append ((choiceBodies_spans hend hparts).append (.append .place (.plain _)) hbodies))

/-! ## Loops -/

/-- The labels of the innermost loop are no indices. -/
def Context.IsQuiet (ctx : Context) : Prop :=
  ∀ labels, ctx.loop = some labels → ¬ IsIndex labels.next ∧ ¬ IsIndex labels.leave

theorem Context.isQuiet_inLoop {labels : LoopLabels} (hnext : ¬ IsIndex labels.next)
    (hleave : ¬ IsIndex labels.leave) : (ctx.inLoop labels).IsQuiet := fun _ hl =>
  Option.some.inj hl ▸ ⟨hnext, hleave⟩

theorem Context.isQuiet_of_loop (h : ctx.loop = none) : ctx.IsQuiet := fun labels hl => by
  rw [h] at hl
  cases hl

/-- The body of a loop, whatever labels the loop has. -/
def BodySpans (body : LoopLabels → Part) : Prop :=
  ∀ labels : LoopLabels, ¬ IsIndex labels.next → ¬ IsIndex labels.leave → (body labels).Spans

theorem BodySpans.of_scope {body : Scope}
    (h : ∀ {ctx : Context}, ctx.IsQuiet → (body.emits env ctx).Spans) :
    BodySpans fun labels => body.emits env (ctx.inLoop labels) :=
  fun _ hnext hleave => h (Context.isQuiet_inLoop hnext hleave)

theorem frame_spans {scope : String} {g : LoopFrame → Part}
    (h : ∀ f : LoopFrame, ¬ IsIndex f.start → ¬ IsIndex f.next → ¬ IsIndex f.leave → (g f).Spans) :
    (Part.frame scope g).Spans :=
  .fresh (by decide) (by decide) fun _ hstart => .fresh (by decide) (by decide) fun _ hnext =>
    .fresh (by decide) (by decide) fun _ hleave => h _ hstart hnext hleave

namespace ConstantRange

variable {r : ConstantRange} {t : IntType} {counter start : String}

theorem initCode_quiet (h : ¬ IsIndex counter) : Code.All Instruction.IsQuiet (r.initCode t counter) :=
  .append (.single (Opcode.isQuiet_given _ _)) (.single (Opcode.isQuiet_named h))

theorem stepCode_quiet (h : ¬ IsIndex counter) : (r.stepCode t counter).All Instruction.IsQuiet :=
  fun code hcode => by
  unfold stepCode at hcode
  split at hcode
  · cases hcode
    exact fun i hi => List.eq_of_mem_replicate hi ▸ Opcode.isQuiet_named h
  · split at hcode <;> cases hcode
    refine .append (.append (.single (Opcode.isQuiet_named h)) (.single (Opcode.isQuiet_given _ _))) ?_
    exact .append (.single (Opcode.isQuiet_plain _)) (.single (Opcode.isQuiet_named h))

theorem testCode_quiet (h : ¬ IsIndex counter) (hstart : ¬ IsIndex start) :
    Code.All Instruction.IsQuiet (r.testCode t counter start) := by
  unfold testCode
  split
  · exact .single (Opcode.isQuiet_named hstart)
  · exact .append (.single (Opcode.isQuiet_named h))
      (.append (.single (Opcode.isQuiet_given _ _)) (.single (Opcode.isQuiet_named hstart)))

end ConstantRange

theorem constantLoop_spans {r : ConstantRange} {counter : Counter} {t : DataType} {scope : String}
    {body : LoopLabels → Part} (hc : ¬ IsIndex counter.name) (hb : BodySpans body) :
    (Part.constantLoop r counter t scope body).Spans :=
  .given fun _ _ => frame_spans fun _ hstart hnext hleave =>
    .append (.ops (ConstantRange.initCode_quiet hc)) (.append .place (.append (hb _ hnext hleave)
      (.append .place (.append (.given fun c h => .ops (ConstantRange.stepCode_quiet hc c h))
        (.append (.ops (ConstantRange.testCode_quiet hc hstart)) .closing)))))

theorem variableLoop_spans (hs : env.symbols.IsPlain) {first last step : Expr} {counter : Counter}
    {t : DataType} {scope : String} {body : LoopLabels → Part} (hb : BodySpans body) :
    (Part.variableLoop env first last step counter t scope body).Spans :=
  .given fun _ _ => .given fun _ _ => .append (.act hs _) (frame_spans fun _ hstart hnext hleave =>
    .append .place (.given fun _ _ => .append (.act hs _) (.given fun _ _ =>
      .append (jump_spans hs fun _ hl => JumpTarget.generated.inj hl ▸ hleave)
        (.append (hb _ hnext hleave) (.append .place (.append (.act hs _)
          (.append (.act hs _) (.append (.op hstart) .closing))))))))

theorem ElementRange.find_name {array : String} {r : ElementRange}
    (h : ElementRange.find symbols array = .ok r) :
    r.name = array ∧ r.length ≠ 0 ∧ ∃ info, symbols.var? array = some info ∧ r.type = info.type ∧
      info.length = some r.length := by
  simp only [find, Lowered.bind_ok_iff, SymbolTable.needVar_ok_iff] at h
  obtain ⟨info, hinfo, element, -, h⟩ := h
  split at h
  next length hlength =>
    simp only [Lowered.check_ok_iff, Lowered.pure_ok_iff] at h
    obtain ⟨hne, rfl⟩ := h
    exact ⟨rfl, hne, info, hinfo, rfl, hlength⟩
  next => simp only [Lowered.throw_ok_iff] at h

theorem ElementRange.namesOf_initCode {r : ElementRange} {index : String} :
    namesOf ((r.initCode index).map .instruction) = [index] := rfl

theorem ElementRange.namesOf_stepCode {r : ElementRange} {index start : String} :
    namesOf ((r.stepCode index start).map .instruction) = [index, index, start] := rfl

/-- Behind the index, what is fetched and where it goes are named. -/
theorem ElementRange.namesOf_fetchCode {r : ElementRange} (hs : symbols.IsPlain) {array index : String}
    {counter : Counter} {t : DataType} {code : Code} (hr : find symbols array = .ok r)
    (h : r.fetchCode symbols index counter t = .ok code) :
    ∃ names, namesOf (code.map .instruction) = index :: names ∧ ∀ name ∈ names, ¬ IsIndex name := by
  obtain ⟨e, rest, rfl, hrest⟩ := fetchCode_makes True h
  obtain ⟨rfl, -, info, hinfo, -⟩ := find_name hr
  refine ⟨r.name :: namesOf (rest.map .instruction), rfl, List.forall_mem_cons.2 ⟨?_, ?_⟩⟩
  · exact hs.not_isIndex (SymbolTable.mem_names_of_var hinfo)
  · exact Code.All.not_isIndex (hrest.mono fun _ => hs.admits.of_makes)

/-- The index stands in front of the body twice, and twice behind it. -/
theorem elementLoop_spans (hs : symbols.IsPlain) {array : String} {counter : Counter} {t : DataType}
    {scope : String} {body : LoopLabels → Part} (hb : BodySpans body) :
    (Part.elementLoop symbols array counter t scope body).Spans := by
  rintro n _ n' ⟨r, hr, _, _, _, ⟨rfl, rfl⟩, ⟨_, _, _, ⟨rfl, rfl⟩, hloop, rfl⟩, rfl⟩
  obtain ⟨_, _, _, ⟨code, hcode, rfl, rfl⟩, ⟨ps, _, _, hbody, htail, rfl⟩, rfl⟩ := hloop
  obtain ⟨_, _, _, ⟨rfl, rfl⟩, ⟨_, _, _, ⟨rfl, rfl⟩, ⟨rfl, rfl⟩, rfl⟩, rfl⟩ := htail
  have hlabel {suffix : String} {k : Nat} (hs : IsPurpose suffix) (hne : suffix ≠ "forloop_index") :
      ¬ IsIndex (labelName scope suffix k) := not_isIndex_labelName hs hne
  have hspans := hb _ (hlabel (by decide) (by decide)) (hlabel (by decide) (by decide)) hbody
  obtain ⟨names, hnames, hquiet⟩ := ElementRange.namesOf_fetchCode hs hr hcode
  let index := indexName scope (n + 1)
  let start := labelName scope "loop" (n + 1 + 1)
  have hstart : ¬ IsIndex start := hlabel (by decide) (by decide)
  have hothers : ∀ name ∈ (index :: index :: names) ++ [index, index, start],
      name = index ∨ ¬ IsIndex name := fun name hname => by
    simp only [List.cons_append, List.mem_cons, List.mem_append, List.not_mem_nil, or_false] at hname
    rcases hname with rfl | rfl | hname | rfl | rfl | rfl
    · exact .inl rfl
    · exact .inl rfl
    · exact .inr (hquiet name hname)
    · exact .inl rfl
    · exact .inl rfl
    · exact .inr hstart
  have hcount : ((index :: index :: names) ++ [index, index, start]).count index ≤ 4 := by
    have hnone : names.count index = 0 := List.count_eq_zero.2 fun hmem => hquiet _ hmem ⟨scope, n + 1, rfl⟩
    have hne : start ≠ index := fun heq => hstart (heq ▸ ⟨scope, n + 1, rfl⟩)
    simp [List.count_append, hnone, hne]
  simp only [entriesOf_append, namesOf_append, entriesOf_ops, ElementRange.namesOf_initCode,
    ElementRange.namesOf_stepCode, hnames]
  exact hspans.around (by omega) hothers hcount

theorem forLoop_spans (hs : env.symbols.IsPlain) {register : Option Register}
    {variableName : Option String} {iterable : Expr} {scope : String} {body : LoopLabels → Part}
    (hb : BodySpans body) : (Part.forLoop env register variableName iterable scope body).Spans := by
  refine .given fun (counter, t) hfind => ?_
  cases iterable with
  | range first last step =>
    cases h : ConstantRange.ofExprs? env.symbols first last step with
    | some r => simpa only [h] using constantLoop_spans (Counter.not_isIndex_name hs hfind) hb
    | none => simpa only [h] using variableLoop_spans hs hb
  | var name => exact elementLoop_spans hs hb
  | _ => exact fun _ _ _ h => h.elim

theorem whileLoop_spans (hs : env.symbols.IsPlain) {condition : Expr} {scope : String}
    {body : LoopLabels → Part} (hb : BodySpans body) : (Part.whileLoop env condition scope body).Spans :=
  .fresh (by decide) (by decide) fun _ hstart => .fresh (by decide) (by decide) fun _ hleave =>
    .fresh (by decide) (by decide) fun _ hnext => .given fun _ _ => .given fun _ _ =>
      .append (.op hnext) (.append .place (.append (hb _ hnext hleave) (.append .place
        (.append (.act hs _) (.append (.op hstart) .closing)))))

theorem repeatLoop_spans (hs : env.symbols.IsPlain) {condition : Expr} {scope : String}
    {body : LoopLabels → Part} (hb : BodySpans body) : (Part.repeatLoop env condition scope body).Spans :=
  frame_spans fun _ hstart hnext hleave => .given fun _ _ => .given fun _ _ => .append .place
    (.append (hb _ hnext hleave) (.append .place (.append (.act hs _) (.append (.op hstart) .closing))))

/-! ## Other statements -/

theorem exit_spans {kind : LoopExit} (hq : ctx.IsQuiet) : (Part.exit ctx kind).Spans := by
  rintro n ps n' ⟨labels, hlabels, hps⟩
  cases kind with
  | leave => exact Part.Spans.op (hq labels hlabels).2 hps
  | next => exact Part.Spans.op (hq labels hlabels).1 hps

theorem gives_spans (hs : symbols.IsPlain) {values : List (Expr × DataType)} :
    (Part.gives symbols values).Spans := by
  induction values with
  | nil => exact .nothing
  | cons value values ih => exact .append (.act hs _) ih

theorem ret_spans (hs : env.symbols.IsPlain) {values : List Expr} : (Part.ret env ctx values).Spans :=
  fun _ _ _ h => ((gives_spans hs).append (.plain _)) h.2

theorem subroutine_spans {s : Signature} {body : List Statement} {part : Part} (hp : part.Spans) :
    (Part.subroutine s body part).Spans := by
  unfold Part.subroutine
  split
  · exact fun _ _ _ h => Part.Spans.nothing h.2
  · refine .append (.of_still nofun) (.append (.plain _) (.append ?_ (.plain _)))
    unfold Part.subroutineBody
    split
    · exact .verbatim
    · exact hp

/-! ## Statements -/

/-- A jump of the source does not go to a label that stands for itself. -/
def Statement.HasOwnTarget : Statement → Prop
  | .jump target _ => target.IsOfSource
  | _ => True

theorem Scope.isOfSource_of_jump {s : Scope} {target : JumpTarget} {position : Position}
    (hs : ∀ x ∈ s.inner, x.HasOwnTarget)
    (h : ∃ rest, s.statements = .jump target position :: rest) : target.IsOfSource := by
  obtain ⟨rest, h⟩ := h
  exact hs (.jump target position) (mem_inner_of_cons h)

mutual

/-- **The indices that a statement names are made up while it is lowered**, and each is named four times at
most. -/
theorem Statement.emits_spans (hsymbols : env.symbols.IsPlain) : ∀ (s : Statement) {ctx : Context},
    (∀ x ∈ s.withInner, x.HasOwnTarget) → ctx.IsQuiet → (s.emits env ctx).Spans
  | .varDecl _, _, _, _ | .nop, _, _, _ => .nothing
  | .label _ _, _, _, _ => .place
  | .assign p value _, _, _, _ => .act hsymbols (.assign p value)
  | .step p op _, _, _, _ => .act hsymbols (.step p op)
  | .jump _ _, _, hs, _ => jump_spans hsymbols fun l hl => absurd hl (hs _ List.mem_cons_self l)
  | .call target args _, _, _, _ => .act hsymbols (.call target args)
  | .cond _ thenPart elsePart _, _, hs, hq => by
    have hthen := fun x hx => hs x (List.mem_cons_of_mem _ (List.mem_append_left _ hx))
    have helse := fun x hx => hs x (List.mem_cons_of_mem _ (List.mem_append_right _ hx))
    exact conditional_spans hsymbols (thenPart.emits_spans hsymbols hthen hq)
      (elsePart.emits_spans hsymbols helse hq)
      fun _ _ h => Scope.isOfSource_of_jump hthen ⟨[], Scope.onlyJump?_ok h⟩
  | .branch _ thenPart elsePart _, _, hs, hq => by
    have hthen := fun x hx => hs x (List.mem_cons_of_mem _ (List.mem_append_left _ hx))
    have helse := fun x hx => hs x (List.mem_cons_of_mem _ (List.mem_append_right _ hx))
    exact flagBranch_spans hsymbols (thenPart.emits_spans hsymbols hthen hq)
      (elsePart.emits_spans hsymbols helse hq)
      (fun _ _ h => Scope.isOfSource_of_jump hthen (Scope.leadingJump?_ok h))
      fun _ _ h => Scope.isOfSource_of_jump helse (Scope.leadingJump?_ok h)
  | .exit _ _, _, _, hq => exit_spans hq
  | .forEach _ _ _ body _, ctx, hs, _ => by
    have hbody : BodySpans fun labels => body.emits env (ctx.inLoop labels) :=
      .of_scope (body.emits_spans hsymbols fun x hx => hs x (List.mem_cons_of_mem _ hx))
    unfold Statement.emits
    split
    · exact .nothing
    · exact forLoop_spans hsymbols hbody
  | .whileLoop _ body _, ctx, hs, _ => by
    have hbody : BodySpans fun labels => body.emits env (ctx.inLoop labels) :=
      .of_scope (body.emits_spans hsymbols fun x hx => hs x (List.mem_cons_of_mem _ hx))
    rw [Statement.emits]
    exact whileLoop_spans hsymbols hbody
  | .repeatLoop body _ _, ctx, hs, _ => by
    have hbody : BodySpans fun labels => body.emits env (ctx.inLoop labels) :=
      .of_scope (body.emits_spans hsymbols fun x hx => hs x (List.mem_cons_of_mem _ hx))
    rw [Statement.emits]
    exact repeatLoop_spans hsymbols hbody
  | .scope s, _, hs, hq => s.emits_spans hsymbols (fun x hx => hs x (List.mem_cons_of_mem _ hx)) hq
  | .ret _ _, _, _, _ => ret_spans hsymbols
  | .returnFromIrq _, _, _, _ => .plain _
  | .directive _ _ _, _, _, _ | .assembly _ _, _, _, _ => .verbatim
  | .subroutine s body _, _, hs, _ =>
    subroutine_spans (Statement.emitsAll_spans hsymbols body (fun x hx => hs x (List.mem_cons_of_mem _ hx))
      (Context.isQuiet_of_loop rfl))
  | .choose _ choices _, _, hs, hq =>
    choose_spans hsymbols (Choice.emits_spans hsymbols choices
      (fun x hx => hs x (List.mem_cons_of_mem _ hx)) hq)

theorem Scope.emits_spans (hsymbols : env.symbols.IsPlain) : ∀ (s : Scope) {ctx : Context},
    (∀ x ∈ s.inner, x.HasOwnTarget) → ctx.IsQuiet → (s.emits env ctx).Spans
  | ⟨_, statements, _⟩, _, hs, hq => Statement.emitsAll_spans hsymbols statements hs hq

theorem Choice.emits_spans (hsymbols : env.symbols.IsPlain) : ∀ (choices : List Choice) {ctx : Context},
    (∀ x ∈ Choice.innerOf choices, x.HasOwnTarget) → ctx.IsQuiet →
    ∀ c ∈ Choice.emits env ctx choices, c.2.Spans
  | [], _, _, _ => nofun
  | ⟨_, body⟩ :: rest, _, hs, hq => by
    have hbody := body.emits_spans hsymbols (fun x hx => hs x (List.mem_append_left _ hx)) hq
    have hrest := Choice.emits_spans hsymbols rest (fun x hx => hs x (List.mem_append_right _ hx)) hq
    exact List.forall_mem_cons.2 ⟨hbody, hrest⟩

theorem Statement.emitsAll_spans (hsymbols : env.symbols.IsPlain) : ∀ (ss : List Statement) {ctx : Context},
    (∀ x ∈ Statement.allOf ss, x.HasOwnTarget) → ctx.IsQuiet → (Statement.emitsAll env ctx ss).Spans
  | [], _, _, _ => .nothing
  | s :: rest, _, hs, hq => by
    have hfirst := s.emits_spans hsymbols (fun x hx => hs x (List.mem_append_left _ hx)) hq
    have hrest := Statement.emitsAll_spans hsymbols rest (fun x hx => hs x (List.mem_append_right _ hx)) hq
    exact hfirst.append hrest

end

/-! ## Programs -/

/-- The text of a program, line markers left out. -/
def Program.text (p : Program) : List Entry := p.blocks.flatMap fun b => b.entries.filter (!·.isLine)

theorem Program.labelsOf_text (p : Program) : labelsOf p.text = p.labels := by
  rw [labelsOf, text, List.filterMap_flatMap, labels]
  exact List.flatMap_congr fun b _ => labelsOf_filter_isLine b.entries

/-- Text that has been written names indices that were made up meanwhile. -/
def AddsNames (out out' : Output) : Prop :=
  ∃ es, out'.sink.program.text = out.sink.program.text ++ es ∧ Spans out.generated (namesOf es) out'.generated

theorem AddsNames.append {out mid out' : Output} (h : AddsNames out mid) (h' : AddsNames mid out') :
    AddsNames out out' := by
  obtain ⟨es, hes, hspans⟩ := h
  obtain ⟨es', hes', hspans'⟩ := h'
  refine ⟨es ++ es', by rw [hes', hes, List.append_assoc], ?_⟩
  rw [namesOf_append]
  exact hspans.append hspans'

theorem Tree.Block.lower_names {source : String} {b : Tree.Block} {out out' : Output} {u : Unit}
    (hs : env.symbols.IsPlain) (hb : ∀ x ∈ Statement.allOf b.statements, x.HasOwnTarget)
    (h : b.lower { env with source } out = .ok (u, out')) : AddsNames out out' := by
  obtain ⟨ps, block, hps, hblocks, hentries, -⟩ := lower_writes h
  refine ⟨entriesOf ps, ?_, ?_⟩
  · rw [Program.text, hblocks, List.flatMap_append, List.flatMap_singleton, hentries, Program.text]
  · have hsymbols : { env with source }.symbols.IsPlain := hs
    exact Statement.emitsAll_spans hsymbols b.statements hb (Context.isQuiet_of_loop rfl) hps

theorem Tree.HasOwnTargets.hasOwnTarget {t : Tree} (h : t.HasOwnTargets) {b : Tree.Block} (hb : b ∈ t.blocks) :
    ∀ x ∈ Statement.allOf b.statements, x.HasOwnTarget := fun x hx => by
  cases x with
  | jump target position =>
    rintro l rfl
    exact h b hb l position hx
  | _ => trivial

/-- **In a whole program four instructions at most name the same index**, if the names in the source do not
look like made-up ones. -/
theorem Tree.count_index_le {t : Tree} {c : Configuration} {loader : IncludeLoader} {p : Program}
    (hs : (SymbolTable.ofTree t).IsPlain) (hown : t.HasOwnTargets) (h : t.program c loader = .ok p)
    (scope : String) (n : Nat) : (namesOf p.text).count (indexName scope n) ≤ 4 := by
  rw [program_eq] at h
  obtain ⟨out, hrun, rfl⟩ := lower_ok_iff.1 h
  have hadds := steps_relates (R := fun bs out out' =>
      (∀ b ∈ bs, ∀ x ∈ Statement.allOf b.statements, x.HasOwnTarget) → AddsNames out out')
    (fun out _ => ⟨[], (List.append_nil _).symm, .still nofun⟩)
    (fun hfirst hrest hall => (hfirst fun b hb => hall b (List.mem_append_left _ hb)).append
      (hrest fun b hb => hall b (List.mem_append_right _ hb)))
    (fun hb hall => Tree.Block.lower_names hs (hall _ (List.mem_singleton_self _)) hb) hrun
  obtain ⟨es, hes, hspans⟩ := hadds fun b hb => hown.hasOwnTarget hb
  rw [hes]
  exact hspans.count_le scope n

end StackCode
