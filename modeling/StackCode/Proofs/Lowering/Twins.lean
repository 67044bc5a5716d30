/-
Lowering with and without line markers. Both runs of a program take the same steps, but
for the marks that one of them sets. `Twins` tells these steps apart: what is taken from
the program is without fault, and what is written, marks apart, is sound. Whatever holds
for the two runs of a statement is an induction over its steps.
-/
import StackCode.Proofs.Lowering.Emits
import StackCode.Proofs.Lowering.Fault

namespace StackCode

/-! ## Steps -/

/-- The environment of the run that marks no lines. -/
def Environment.unmarked (env : Environment) : Environment := { env with markLines := false }

/-- The same steps in a run that may mark lines, and in one that marks none. -/
inductive Writer.Twins (casts : Prop) : {α : Type} → Writer α → Writer α → Prop
  | lifted {α : Type} {x : Lowered α} (hx : x.Faultless) : Twins casts (liftM x) (liftM x)
  | fresh (scope suffix : String) : Twins casts (freshLabel scope suffix) (freshLabel scope suffix)
  | write {i : Instruction} (hi : i.IsSound casts) (hm : i.isLine = false) :
    Twins casts (perform (Sink.instruction i)) (perform (Sink.instruction i))
  | label (name : String) (isSubroutine : Bool) :
    Twins casts (perform (Sink.label name isSubroutine)) (perform (Sink.label name isSubroutine))
  | declare (name : String) (t : DataType) (storage : Storage) (length : Option UInt16) :
    Twins casts (perform (Sink.declare name t storage length))
      (perform (Sink.declare name t storage length))
  | pointer (name : String) (address : UInt16) (t : DataType) :
    Twins casts (perform (Sink.pointer name address t)) (perform (Sink.pointer name address t))
  | removeLatest : Twins casts (perform Sink.removeLatest) (perform Sink.removeLatest)
  | mark (env : Environment) (p : Position) : Twins casts (env.mark p) (env.unmarked.mark p)
  | bind {α β : Type} {w w' : Writer α} {f f' : α → Writer β} (hw : Twins casts w w')
    (hf : ∀ a, Twins casts (f a) (f' a)) : Twins casts (w >>= f) (w' >>= f')
  | lift {α β : Type} {x : Lowered α} {f f' : α → Writer β} (hx : x.Faultless)
    (hf : ∀ a, x = .ok a → Twins casts (f a) (f' a)) : Twins casts (liftM x >>= f) (liftM x >>= f')

/-- The instruction is sound, and no mark of a line. -/
def Instruction.IsWritable (casts : Prop) (i : Instruction) : Prop :=
  i.IsSound casts ∧ i.isLine = false

theorem SymbolTable.Makes.writable {symbols : SymbolTable} {casts : Prop} {i : Instruction}
    (h : symbols.Makes casts i) : i.IsWritable casts := by
  refine ⟨h.sound, decide_eq_false fun hline => ?_⟩
  have hstraight := symbols.admits_isStraight.of_makes h
  simp [Instruction.IsStraight, hline, Opcode.effect?] at hstraight

namespace Instruction.IsWritable

variable {casts : Prop} {op : Opcode}

theorem plain (h : op.operands = .nothing) (hcast : op.isCast = false) : op.plain.IsWritable casts :=
  ⟨.plain h hcast, by cases op <;> first | rfl | cases h⟩

theorem named {name : String} (h : op.operands = .name) (hline : op ≠ .line) :
    (op.named name).IsWritable casts :=
  ⟨.named h name, decide_eq_false hline⟩

theorem push (v : Value) : ((Opcode.push v.type.size).given v).IsWritable casts := ⟨.push v, rfl⟩

theorem compare {t : IntType} {v : Value} (h : v.type = .int t) :
    ((Opcode.compare t).given v).IsWritable casts :=
  ⟨.of_not_isCast (Opcode.compare_isWellFormed h) rfl, rfl⟩

/-- A jump to a label. -/
theorem jump (h : op.isJump) (name : String) : (op.named name).IsWritable casts := by
  cases op with
  | branch => exact named rfl nofun
  | jump | jumpZero | jumpNonzero =>
    exact ⟨.of_not_isCast (Opcode.named_target_isWellFormed rfl name) rfl, rfl⟩
  | _ => cases h

/-- A jump to an address, which is none on a status flag. -/
theorem jumpTo (h : op.isJump) (hb : op.isBranch = false) (address : UInt16) :
    (op.addressed address).IsWritable casts := by
  cases op with
  | branch => cases hb
  | jump | jumpZero | jumpNonzero =>
    exact ⟨.of_not_isCast (Opcode.addressed_target_isWellFormed rfl address) rfl, rfl⟩
  | _ => cases h

end Instruction.IsWritable

namespace Writer.Twins

variable {casts : Prop} {α β : Type} {w w' : Writer α} {f f' : α → Writer β}

theorem pure (a : α) : Twins casts (Pure.pure a) (Pure.pure a) := lifted (.ok a)

theorem throw {e : LowerError} (he : e.isFault = false) :
    Twins casts (MonadExcept.throw e : Writer α) (MonadExcept.throw e) :=
  lifted (.error he)

theorem throw_bind {e : LowerError} (he : e.isFault = false) :
    Twins casts ((MonadExcept.throw e : Writer α) >>= f) ((MonadExcept.throw e : Writer α) >>= f') :=
  lift (.error he) fun _ h => by cases h

theorem emit {code : Code} (h : code.All (·.IsWritable casts)) :
    Twins casts (StackCode.emit code) (StackCode.emit code) := by
  induction code with
  | nil => exact pure ()
  | cons i code ih =>
    rw [emit_cons]
    obtain ⟨hi, hm⟩ := h i List.mem_cons_self
    exact (write hi hm).bind fun _ => ih fun j hj => h j (List.mem_cons_of_mem _ hj)

theorem emitLowered {x : Lowered Code} (hx : x.Faultless) (h : x.All (·.IsWritable casts)) :
    Twins casts (StackCode.emitLowered x) (StackCode.emitLowered x) :=
  lift hx fun code hcode => emit (h code hcode)

/-- Code of expressions and of single statements. -/
theorem made {symbols : SymbolTable} {x : Lowered Code} (hx : x.Faultless)
    (h : x.All (symbols.Makes casts)) :
    Twins casts (StackCode.emitLowered x) (StackCode.emitLowered x) :=
  emitLowered hx (h.mono fun _ hi => hi.writable)

theorem place (name : String) : Twins casts (placeLabel name) (placeLabel name) := label name false

theorem close (name : String) : Twins casts (closeAt name) (closeAt name) :=
  (place name).bind fun _ => emit (.single (.plain rfl rfl))

theorem frame {scope : String} {f f' : LoopFrame → Writer Unit}
    (hf : ∀ frame, Twins casts (f frame) (f' frame)) :
    Twins casts (freshFrame scope >>= f) (freshFrame scope >>= f') := by
  simp only [freshFrame, bind_assoc, pure_bind]
  exact (fresh scope "loop").bind fun _ => (fresh scope "continue").bind fun _ =>
    (fresh scope "break").bind fun _ => hf _

theorem forM {γ : Type} {f f' : γ → Writer Unit} {xs : List γ}
    (h : ∀ x ∈ xs, Twins casts (f x) (f' x)) : Twins casts (xs.forM f) (xs.forM f') := by
  induction xs with
  | nil => exact pure ()
  | cons x xs ih =>
    exact (h x List.mem_cons_self).bind fun _ => ih fun y hy => h y (List.mem_cons_of_mem _ hy)

end Writer.Twins

open Writer

variable {casts : Prop} {env : Environment} {ctx : Context}

/-! ## Choices -/

theorem jump_twins {op : Opcode} {target : JumpTarget} {position : Position} (hop : op.isJump)
    (htarget : op.isBranch → ∀ address, target ≠ .address address) :
    Twins casts (env.jump op target position) (env.unmarked.jump op target position) := by
  refine (Twins.mark env position).bind fun _ => .lift (jumpInstruction_faultless htarget)
    fun i hi => .emit (.single ?_)
  obtain ⟨a, rfl, rfl⟩ | ⟨l, -, rfl⟩ := Environment.jumpInstruction_ok hi
  · cases hbranch : op.isBranch with
    | false => exact .jumpTo hop hbranch a
    | true => exact absurd rfl (htarget hbranch a)
  · exact .jump hop l

theorem alternatives_twins {away : Opcode} {elseLabel endLabel : String} {elseIdle : Bool}
    {thenWriter thenWriter' elseWriter elseWriter' : Writer Unit} (haway : away.isJump)
    (ht : Twins casts thenWriter thenWriter') (he : Twins casts elseWriter elseWriter') :
    Twins casts (alternatives away elseLabel endLabel elseIdle thenWriter elseWriter)
      (alternatives away elseLabel endLabel elseIdle thenWriter' elseWriter') := by
  unfold alternatives
  split
  · exact (Twins.emit (.single (.jump haway _))).bind fun _ => ht.bind fun _ => .close _
  · exact (Twins.emit (.single (.jump haway _))).bind fun _ => ht.bind fun _ =>
      (Twins.emit (.single (.jump rfl _))).bind fun _ => (Twins.place _).bind fun _ =>
      he.bind fun _ => .close _

theorem conditional_twins {condition : Expr} {thenScope elseScope : Scope} {position : Position}
    {thenWriter thenWriter' elseWriter elseWriter' : Writer Unit} (hc : condition.hasCast → casts)
    (ht : Twins casts thenWriter thenWriter') (he : Twins casts elseWriter elseWriter') :
    Twins casts (conditional env ctx condition thenScope elseScope position thenWriter elseWriter)
      (conditional env.unmarked ctx condition thenScope elseScope position thenWriter' elseWriter') := by
  refine (Twins.mark env position).bind fun _ => .lift Expr.needType_faultless fun type _ =>
    (Twins.made condition.code_faultless (condition.code_makes hc)).bind fun _ => ?_
  cases hjump : thenScope.onlyJump? with
  | some jump =>
    refine .lift orInvalid_faultless fun op hop => ?_
    obtain ⟨n, -, rfl⟩ := Opcode.jumpNonzeroFor_ok hop
    exact (jump_twins rfl fun h => by cases h).bind fun _ => he
  | none =>
    refine .lift orInvalid_faultless fun away haway => (Twins.fresh _ _).bind fun endLabel => ?_
    have haway := Opcode.jumpZeroFor_isJump haway
    cases elseScope.isIdle with
    | true => exact (Twins.pure endLabel).bind fun _ => alternatives_twins haway ht he
    | false => exact (Twins.fresh _ _).bind fun _ => alternatives_twins haway ht he

theorem flagBranch_twins {test : FlagTest} {thenScope elseScope : Scope} {position : Position}
    {thenWriter thenWriter' elseWriter elseWriter' : Writer Unit}
    (ht : Twins casts thenWriter thenWriter') (he : Twins casts elseWriter elseWriter') :
    Twins casts (flagBranch env ctx test thenScope elseScope position thenWriter elseWriter)
      (flagBranch env.unmarked ctx test thenScope elseScope position thenWriter' elseWriter') := by
  unfold flagBranch
  by_cases hidle : (thenScope.isIdle && elseScope.isIdle) = true
  · rw [if_pos hidle, if_pos hidle]
    exact .pure ()
  · rw [if_neg hidle, if_neg hidle]
    refine (Twins.mark env position).bind fun _ => ?_
    cases hjumps : branchJumps? thenScope elseScope with
    | some jumps =>
      obtain ⟨⟨target, p⟩, elseJump⟩ := jumps
      obtain ⟨hthen, helse⟩ := branchJumps?_ok hjumps
      refine (jump_twins rfl fun _ => Scope.leadingJump?_ne_address hthen).bind fun _ => ?_
      obtain ⟨-, rfl⟩ | ⟨⟨target', p'⟩, hjump, rfl⟩ := helse
      · exact .pure ()
      · exact jump_twins rfl fun _ => Scope.leadingJump?_ne_address hjump
    | none =>
      exact (Twins.fresh _ _).bind fun _ => (Twins.fresh _ _).bind fun _ =>
        alternatives_twins rfl ht he

/-! ## Many parts -/

/-- The choices that are handed to the two runs. -/
def ChoicesTwins (casts : Prop) (choices choices' : List ChoicePart) : Prop :=
  List.Forall₂ (fun c c' => c.values = c'.values ∧ Twins casts c.part c'.part) choices choices'

/-- The parts that are left for later, behind the same labels. -/
def PartsTwins (casts : Prop) (parts parts' : List (String × Writer Unit)) : Prop :=
  List.Forall₂ (fun p p' => p.1 = p'.1 ∧ Twins casts p.2 p'.2) parts parts'

theorem choiceValues_type {symbols : SymbolTable} {t : IntType} {es : List Expr} {vs : List Value}
    (h : choiceValues symbols t es = .ok vs) {v : Value} (hv : v ∈ vs) : v.type = .int t := by
  obtain ⟨e, -, he⟩ := Lowered.exists_of_mem_mapM h hv
  split at he
  · cases he
  · split at he <;> cases he
    next hcast => exact DataType.num.inj (Value.type_of_cast hcast)

theorem choiceTests_writable {t : IntType} {label : String} {vs : List Value}
    (h : ∀ v ∈ vs, v.type = .int t) : Code.All (·.IsWritable casts) (choiceTests t label vs) := by
  intro i hi
  obtain ⟨v, hv, hi⟩ := List.mem_flatMap.1 hi
  simp only [List.mem_cons, List.not_mem_nil, or_false] at hi
  rcases hi with rfl | rfl | rfl
  · exact .plain rfl rfl
  · exact .compare (h v hv)
  · exact .jump rfl label

/-- Writers of parts are no values that both runs have in common, so what follows is part of the
statement. -/
theorem choiceHeads_twins {α : Type} {t : IntType} {choices choices' : List ChoicePart}
    (hc : ChoicesTwins casts choices choices') :
    ∀ {rest rest' : List (String × Writer Unit) → Writer α},
      (∀ parts parts', PartsTwins casts parts parts' → Twins casts (rest parts) (rest' parts')) →
      Twins casts (choiceHeads env ctx t choices >>= rest)
        (choiceHeads env.unmarked ctx t choices' >>= rest') := by
  induction hc with
  | nil =>
    intro rest rest' hrest
    simpa only [choiceHeads, pure_bind] using hrest [] [] .nil
  | @cons choice choice' choices choices' hpart _ ih =>
    intro rest rest' hrest
    obtain ⟨values, part⟩ := choice
    obtain ⟨values', part'⟩ := choice'
    obtain ⟨rfl, hpart⟩ := hpart
    cases values with
    | none =>
      rw [choiceHeads, choiceHeads, bind_assoc, bind_assoc]
      exact hpart.bind fun _ => ih hrest
    | some values =>
      rw [choiceHeads, choiceHeads, bind_assoc, bind_assoc]
      refine .lift choiceValues_faultless fun vs hvs => ?_
      cases vs with
      | nil => exact .throw_bind rfl
      | cons v vs =>
        simp only [bind_assoc, pure_bind]
        refine (Twins.fresh _ _).bind fun label =>
          (Twins.emit (choiceTests_writable fun _ => choiceValues_type hvs)).bind fun _ => ih ?_
        exact fun parts parts' hparts => hrest _ _ (.cons ⟨rfl, hpart⟩ hparts)

theorem choiceBodies_twins {endLabel : String} {parts parts' : List (String × Writer Unit)}
    (hparts : PartsTwins casts parts parts') :
    Twins casts
      (parts.forM fun (label, part) => do
        placeLabel label
        part
        emit [Opcode.jump.named endLabel])
      (parts'.forM fun (label, part) => do
        placeLabel label
        part
        emit [Opcode.jump.named endLabel]) := by
  induction hparts with
  | nil => exact .pure ()
  | @cons p p' parts parts' hpart _ ih =>
    obtain ⟨label, part⟩ := p
    obtain ⟨label', part'⟩ := p'
    obtain ⟨rfl, hpart⟩ := hpart
    exact ((Twins.place label).bind fun _ => hpart.bind fun _ =>
      .emit (.single (.jump rfl endLabel))).bind fun _ => ih

theorem choose_twins {condition : Expr} {choices choices' : List ChoicePart} {position : Position}
    (hcond : condition.hasCast → casts) (hc : ChoicesTwins casts choices choices') :
    Twins casts (choose env ctx condition choices position)
      (choose env.unmarked ctx condition choices' position) := by
  have hdrop (t : IntType) :
      Code.All (·.IsWritable casts) [(Opcode.discard (.int t.size)).plain] := .single (.plain rfl rfl)
  have hempty : choices.isEmpty = choices'.isEmpty := by cases hc <;> rfl
  refine (Twins.mark env position).bind fun _ => .lift Expr.needType_faultless fun type _ =>
    .lift orInvalid_faultless fun t _ =>
    (Twins.made condition.code_faultless (condition.code_makes hcond)).bind fun _ => ?_
  rw [hempty]
  split
  · exact .emit (hdrop t)
  · exact (Twins.fresh _ _).bind fun endLabel => choiceHeads_twins hc fun parts parts' hparts =>
      (Twins.emit (.single (.jump rfl endLabel))).bind fun _ => (choiceBodies_twins hparts).bind fun _ =>
      Twins.removeLatest.bind fun _ => (Twins.place endLabel).bind fun _ => .emit (hdrop t)

/-! ## Loops -/

variable {body body' : LoopBody}

namespace ConstantRange

variable {r : ConstantRange} {t : IntType} {counter start : String}

theorem initCode_writable : (r.initCode t counter).All (·.IsWritable casts) :=
  (Code.All.single (.push _)).append (.single (.named rfl nofun))

theorem stepCode_writable : (r.stepCode t counter).All (·.IsWritable casts) := fun code h => by
  unfold stepCode at h
  split at h
  · cases h
    intro i hi
    rw [List.eq_of_mem_replicate hi]
    split <;> exact .named rfl nofun
  · split at h <;> cases h
    next amount _ =>
      have hop : Code.All (·.IsWritable casts)
          [(if 0 < r.step then Opcode.add (.int t) else Opcode.sub (.int t)).plain] := by
        refine .single ?_
        split <;> exact .plain rfl rfl
      exact ((Code.All.single (.named rfl nofun)).append (.single (.push amount))).append
        (hop.append (.single (.named rfl nofun)))

theorem testCode_writable : (r.testCode t counter start).All (·.IsWritable casts) := by
  unfold testCode
  split
  · exact .single (.jump rfl start)
  · exact (Code.All.single (.named rfl nofun)).append
      ((Code.All.single (.compare rfl)).append (.single (.jump rfl start)))

end ConstantRange

theorem constantLoop_twins {r : ConstantRange} {counter : Counter} {t : DataType} {scope : String}
    (hb : ∀ labels, Twins casts (body labels) (body' labels)) :
    Twins casts (constantLoop r counter t scope body) (constantLoop r counter t scope body') :=
  .lift r.check_faultless fun _ _ => .frame fun _ =>
    (Twins.emit ConstantRange.initCode_writable).bind fun _ => (Twins.place _).bind fun _ =>
    (hb _).bind fun _ => (Twins.place _).bind fun _ =>
    (Twins.emitLowered r.stepCode_faultless ConstantRange.stepCode_writable).bind fun _ =>
    (Twins.emit ConstantRange.testCode_writable).bind fun _ => .close _

theorem Place.step_writable {symbols : SymbolTable} {op : Increment} {p : Place}
    (hp : p.read.hasCast → casts) :
    (p.step symbols op (p.inner symbols)).All (·.IsWritable casts) :=
  Place.step_makes (fun _ hi => hi.writable) (p.inner_makes hp) fun name _ _ _ _ _ =>
    .named (by cases op <;> rfl) (by cases op <;> nofun)

theorem variableLoop_twins {first last step : Expr} {counter : Counter} {t : DataType} {scope : String}
    {position : Position} (hfirst : first.hasCast → casts) (hlast : last.hasCast → casts)
    (hb : ∀ labels, Twins casts (body labels) (body' labels)) :
    Twins casts (variableLoop env first last step counter t scope position body)
      (variableLoop env.unmarked first last step counter t scope position body') := by
  have hcounter : counter.place.read.hasCast → casts := by simp [counter.hasCast_read]
  refine .lift variableStep_faultless fun op _ => .lift orInvalid_faultless fun _ hgo =>
    (Twins.made assignCode_faultless (assignCode_makes hcounter hfirst)).bind fun _ =>
    .frame fun _ => (Twins.place _).bind fun _ => (Twins.mark env position).bind fun _ =>
    .lift Expr.needType_faultless fun _ _ => (Twins.made (Expr.code_faultless _)
      (Expr.code_makes _ ?_)).bind fun _ => .lift orInvalid_faultless fun leave hleave => ?_
  · simpa [Expr.hasCast, counter.hasCast_read] using hlast
  · obtain ⟨n, -, rfl⟩ := Opcode.jumpNonzeroFor_ok hleave
    exact (jump_twins rfl fun h => by cases h).bind fun _ => (hb _).bind fun _ =>
      (Twins.place _).bind fun _ => (Twins.emitLowered (Place.step_faultless counter.place.inner_faultless)
        (Place.step_writable hcounter)).bind fun _ =>
      (Twins.made (Expr.code_faultless _) (Expr.code_makes _ hcounter)).bind fun _ =>
      (Twins.emit (.single (.jump (Opcode.jumpNonzeroFor_isJump hgo) _))).bind fun _ => .close _

namespace ElementRange

variable {r : ElementRange} {index start : String}

theorem initCode_writable : (r.initCode index).All (·.IsWritable casts) :=
  (Code.All.single (.push _)).append (.single (.named rfl nofun))

theorem fetchCode_writable {symbols : SymbolTable} {counter : Counter} {t : DataType} :
    (r.fetchCode symbols index counter t).All (·.IsWritable casts) := fun code h => by
  obtain ⟨e, rest, rfl, hrest⟩ := fetchCode_makes casts h
  exact (Code.All.single (.named rfl nofun)).append ((Code.All.single (.named rfl nofun)).append
    (hrest.mono fun _ hi => hi.writable))

theorem stepCode_writable : (r.stepCode index start).All (·.IsWritable casts) :=
  (Code.All.single (.named rfl nofun)).append
    ((Code.All.single (.named rfl nofun)).append
      ((Code.All.single (.compare rfl)).append (.single (.jump rfl start))))

end ElementRange

theorem elementLoop_twins {symbols : SymbolTable} {array : String} {counter : Counter} {t : DataType}
    {scope : String} (hb : ∀ labels, Twins casts (body labels) (body' labels)) :
    Twins casts (elementLoop symbols array counter t scope body)
      (elementLoop symbols array counter t scope body') := by
  unfold elementLoop
  split
  · exact .throw_bind rfl
  · exact .lift ElementRange.find_faultless fun r _ => (Twins.fresh _ _).bind fun index =>
      (Twins.declare _ _ _ _).bind fun _ => .frame fun _ =>
      (Twins.emit ElementRange.initCode_writable).bind fun _ => (Twins.place _).bind fun _ =>
      (Twins.emitLowered r.fetchCode_faultless ElementRange.fetchCode_writable).bind fun _ =>
      (hb _).bind fun _ => (Twins.place _).bind fun _ =>
      (Twins.emit ElementRange.stepCode_writable).bind fun _ => .close _

theorem forLoop_twins {register : Option Register} {variableName : Option String} {iterable : Expr}
    {scope : String} {position : Position} (hc : iterable.hasCast → casts)
    (hb : ∀ labels, Twins casts (body labels) (body' labels)) :
    Twins casts (forLoop env register variableName iterable scope position body)
      (forLoop env.unmarked register variableName iterable scope position body') := by
  refine (Twins.mark env position).bind fun _ => .lift Counter.find_faultless fun found _ => ?_
  obtain ⟨counter, t⟩ := found
  cases iterable with
  | range first last step =>
    cases h : ConstantRange.ofExprs? env.symbols first last step with
    | some r => simpa only [Environment.unmarked, h] using constantLoop_twins hb
    | none =>
      simpa only [Environment.unmarked, h] using variableLoop_twins
        (fun h => hc (by simp [Expr.hasCast, h])) (fun h => hc (by simp [Expr.hasCast, h])) hb
  | var name => exact elementLoop_twins hb
  | _ => exact .throw rfl

theorem whileLoop_twins {condition : Expr} {scope : String} {position : Position}
    (hc : condition.hasCast → casts) (hb : ∀ labels, Twins casts (body labels) (body' labels)) :
    Twins casts (whileLoop env condition scope position body)
      (whileLoop env.unmarked condition scope position body') :=
  (Twins.fresh _ _).bind fun start => (Twins.fresh _ _).bind fun leave =>
    (Twins.fresh _ _).bind fun next => (Twins.mark env position).bind fun _ =>
    .lift Expr.needType_faultless fun _ _ => .lift orInvalid_faultless fun _ hgo =>
    (Twins.emit (.single (.jump rfl next))).bind fun _ => (Twins.place start).bind fun _ =>
    (hb _).bind fun _ => (Twins.place next).bind fun _ =>
    (Twins.made condition.code_faultless (condition.code_makes hc)).bind fun _ =>
    (Twins.emit (.single (.jump (Opcode.jumpNonzeroFor_isJump hgo) start))).bind fun _ => .close leave

theorem repeatLoop_twins {condition : Expr} {scope : String} {position : Position}
    (hc : condition.hasCast → casts) (hb : ∀ labels, Twins casts (body labels) (body' labels)) :
    Twins casts (repeatLoop env condition scope position body)
      (repeatLoop env.unmarked condition scope position body') :=
  .frame fun _ => (Twins.mark env position).bind fun _ =>
    .lift Expr.needType_faultless fun _ _ => .lift orInvalid_faultless fun _ hgo =>
    (Twins.place _).bind fun _ => (hb _).bind fun _ => (Twins.place _).bind fun _ =>
    (Twins.made condition.code_faultless (condition.code_makes hc)).bind fun _ =>
    (Twins.emit (.single (.jump (Opcode.jumpZeroFor_isJump hgo) _))).bind fun _ => .close _

/-! ## Other statements -/

theorem assign_twins {p : Place} {value : Expr} {position : Position} (hp : p.read.hasCast → casts)
    (hv : value.hasCast → casts) :
    Twins casts (env.assign p value position) (env.unmarked.assign p value position) := by
  refine (Twins.mark env position).bind fun _ => ?_
  cases value with
  | structLiteral values => exact .made structAssignCode_faultless (structAssignCode_makes hv)
  | _ => exact .made assignCode_faultless (assignCode_makes hp hv)

theorem exit_twins {kind : LoopExit} {position : Position} :
    Twins casts (env.exit ctx kind position) (env.unmarked.exit ctx kind position) := by
  unfold Environment.exit
  split
  · exact .throw rfl
  · exact (Twins.mark env position).bind fun _ => .emit (.single (.jump rfl _))

theorem gives_twins {values : List (Expr × DataType)} (hv : ∀ v ∈ values, v.1.hasCast → casts) :
    Twins casts
      (values.forM fun (value, t) =>
        emitLowered ((value.operand env.symbols).pushAs env.symbols t))
      (values.forM fun (value, t) =>
        emitLowered ((value.operand env.symbols).pushAs env.symbols t)) :=
  .forM fun v hmem => .made (Operand.pushAs_faultless (Expr.operand_faultless _))
    (Expr.operand_makes v.1 (hv v hmem)).pushAs

theorem ret_twins {values : List Expr} {position : Position} (hv : Expr.anyCast values → casts) :
    Twins casts (env.ret ctx values position) (env.unmarked.ret ctx values position) := by
  unfold Environment.ret
  split
  · exact .throw_bind rfl
  · refine (gives_twins fun v hmem hcast => ?_).bind fun _ => (Twins.mark env position).bind fun _ =>
      .emit (.single (.plain rfl rfl))
    have hvalue := (List.of_mem_zip (List.mem_reverse.1 hmem)).1
    exact hv (Expr.hasCast_of_mem hvalue hcast)

theorem assembly_twins {text : String} {label : Option String} {position : Position} :
    Twins casts (env.assembly text label position) (env.unmarked.assembly text label position) :=
  (Twins.mark env position).bind fun _ =>
    .emit (.single ⟨.of_not_isCast ⟨text, rfl, rfl⟩ rfl, rfl⟩)

theorem wordArgument_type {directive : String} {args : List DirectiveArg} {i : Nat} {v : Value}
    (h : Environment.wordArgument directive args i = .ok (some v)) : v.type = .int .uword := by
  unfold Environment.wordArgument at h
  split at h
  · cases h
  · cases h
  · split at h <;> cases h
    next hv => exact DataType.num.inj (Value.type_of_ofInt hv)

/-- An argument that is there stands behind all those before it. -/
theorem wordArgument_isSome {directive : String} {args : List DirectiveArg} {i j : Nat} {v : Value}
    {first : Option Value} (hij : i ≤ j)
    (hfirst : Environment.wordArgument directive args i = .ok first)
    (h : Environment.wordArgument directive args j = .ok (some v)) : first.isSome := by
  have hj : j < args.length := by
    by_contra hlen
    simp [Environment.wordArgument, List.getElem?_eq_none (Nat.le_of_not_lt hlen)] at h
  have hi : i < args.length := Nat.lt_of_le_of_lt hij hj
  unfold Environment.wordArgument at hfirst
  rw [List.getElem?_eq_getElem hi] at hfirst
  split at hfirst
  next hnone => cases hnone
  next => cases hfirst
  next =>
    split at hfirst <;> cases hfirst
    rfl

theorem includeFile_twins {directive : String} {args : List DirectiveArg} {position : Position} :
    Twins casts (env.includeFile directive args position)
      (env.unmarked.includeFile directive args position) := by
  refine .lift fileArgument_faultless fun name _ => .lift wordArgument_faultless fun offset hoffset =>
    .lift wordArgument_faultless fun length hlength => (Twins.mark env position).bind fun _ =>
    .emit (.single ⟨.of_not_isCast ⟨⟨name, rfl, rfl⟩, ?_, ?_⟩ rfl, rfl⟩)
  · rintro v ⟨⟩
    exact wordArgument_type hoffset
  · rintro v ⟨⟩
    exact ⟨wordArgument_type hlength, wordArgument_isSome (by decide) hoffset hlength⟩

theorem includeText_twins {directive : String} {args : List DirectiveArg} {position : Position} :
    Twins casts (env.includeText directive args position)
      (env.unmarked.includeText directive args position) := by
  refine .lift fileArgument_faultless fun name _ => .lift includeScope_faultless fun scope _ => ?_
  have hloader : env.unmarked.loader name env.unmarked.source = env.loader name env.source := rfl
  rw [hloader]
  cases env.loader name env.source with
  | error fault => exact .throw rfl
  | ok text => exact assembly_twins

theorem directive_twins {name : String} {args : List DirectiveArg} {position : Position} :
    Twins casts (env.directive name args position) (env.unmarked.directive name args position) := by
  unfold Environment.directive
  split
  · exact includeText_twins
  · exact includeFile_twins
  · exact (Twins.mark env position).bind fun _ => .emit (.single (.plain rfl rfl))
  · exact .pure ()

theorem subroutineDefinition_twins {s : Signature} {statements : List Statement} {position : Position}
    {writer writer' : Writer Unit} (hb : Twins casts writer writer') :
    Twins casts (subroutineDefinition env s statements position writer)
      (subroutineDefinition env.unmarked s statements position writer') := by
  have hend : Code.All (·.IsWritable casts) [Opcode.endProc.plain] := .single (.plain rfl rfl)
  unfold subroutineDefinition
  cases s.address? with
  | some address =>
    by_cases hidle : statements.all (·.isNop)
    · simp only [hidle, Bool.not_true, Bool.false_eq_true, if_false]
      exact .pointer _ _ _
    · simp only [hidle, Bool.not_false, if_true]
      exact .throw_bind rfl
  | none =>
    refine (Twins.label _ _).bind fun _ => (Twins.emit (.single (.plain rfl rfl))).bind fun _ =>
      (Twins.mark env position).bind fun _ => ?_
    cases soleAssembly? statements with
    | some sole => exact assembly_twins.bind fun _ => .emit hend
    | none => exact hb.bind fun _ => .emit hend

/-! ## Statements -/

mutual

/-- **The steps of a statement are the same with and without markers.** -/
theorem Statement.lower_twins (env : Environment) : ∀ (ctx : Context) (s : Statement),
    (s.hasCast → casts) → Twins casts (s.lower env ctx) (s.lower env.unmarked ctx)
  | _, .varDecl _, _ | _, .nop, _ => .pure ()
  | _, .label name position, _ => (Twins.mark env position).bind fun _ => .place name
  | _, .assign _ _ _, hc =>
    assign_twins (fun h => hc (by simp [Statement.hasCast, h]))
      fun h => hc (by simp [Statement.hasCast, h])
  | _, .step p _ position, hc => (Twins.mark env position).bind fun _ =>
    .emitLowered (Place.step_faultless p.inner_faultless) (Place.step_writable hc)
  | _, .jump _ _, _ => jump_twins rfl fun h => by cases h
  | _, .call _ _ position, hc => (Twins.mark env position).bind fun _ =>
    .made callStatementCode_faultless (callStatementCode_makes hc)
  | ctx, .cond _ thenPart elsePart _, hc =>
    conditional_twins (fun h => hc (by simp [Statement.hasCast, h]))
      (thenPart.lower_twins env ctx fun h => hc (by simp [Statement.hasCast, h]))
      (elsePart.lower_twins env ctx fun h => hc (by simp [Statement.hasCast, h]))
  | ctx, .branch _ thenPart elsePart _, hc =>
    flagBranch_twins (thenPart.lower_twins env ctx fun h => hc (by simp [Statement.hasCast, h]))
      (elsePart.lower_twins env ctx fun h => hc (by simp [Statement.hasCast, h]))
  | _, .exit _ _, _ => exit_twins
  | ctx, .forEach _ _ _ body _, hc => by
    unfold Statement.lower
    split
    · exact .pure ()
    · exact forLoop_twins (fun h => hc (by simp [Statement.hasCast, h])) fun labels =>
        body.lower_twins env (ctx.inLoop labels) fun h => hc (by simp [Statement.hasCast, h])
  | ctx, .whileLoop _ body _, hc => by
    rw [Statement.lower, Statement.lower]
    exact whileLoop_twins (fun h => hc (by simp [Statement.hasCast, h])) fun labels =>
      body.lower_twins env (ctx.inLoop labels) fun h => hc (by simp [Statement.hasCast, h])
  | ctx, .repeatLoop body _ _, hc => by
    rw [Statement.lower, Statement.lower]
    exact repeatLoop_twins (fun h => hc (by simp [Statement.hasCast, h])) fun labels =>
      body.lower_twins env (ctx.inLoop labels) fun h => hc (by simp [Statement.hasCast, h])
  | ctx, .scope s, hc => s.lower_twins env ctx hc
  | _, .ret _ _, hc => ret_twins hc
  | _, .returnFromIrq position, _ => (Twins.mark env position).bind fun _ =>
    .emit (.single (.plain rfl rfl))
  | _, .directive _ _ _, _ => by
    rw [Statement.lower, Statement.lower]
    exact directive_twins
  | _, .subroutine s body _, hc =>
    subroutineDefinition_twins
      (Statement.lowerAll_twins env { scope := s.name, returnTypes := s.returnTypes } body hc)
  | _, .assembly _ _, _ => assembly_twins
  | ctx, .choose _ choices _, hc =>
    choose_twins (fun h => hc (by simp [Statement.hasCast, h]))
      (Choice.parts_twins env ctx choices fun h => hc (by simp [Statement.hasCast, h]))

theorem Scope.lower_twins (env : Environment) : ∀ (ctx : Context) (s : Scope),
    (s.hasCast → casts) → Twins casts (s.lower env ctx) (s.lower env.unmarked ctx)
  | ctx, ⟨name, statements, position⟩, hc =>
    Statement.lowerAll_twins env (ctx.inside ⟨name, statements, position⟩) statements hc

theorem Choice.parts_twins (env : Environment) (ctx : Context) : ∀ choices : List Choice,
    (Choice.anyCast choices → casts) →
      ChoicesTwins casts (Choice.parts env ctx choices) (Choice.parts env.unmarked ctx choices)
  | [], _ => .nil
  | ⟨_, body⟩ :: rest, hc =>
    .cons ⟨rfl, body.lower_twins env ctx fun h => hc (by simp [Choice.anyCast, h])⟩
      (Choice.parts_twins env ctx rest fun h => hc (by simp [Choice.anyCast, h]))

theorem Statement.lowerAll_twins (env : Environment) : ∀ (ctx : Context) (ss : List Statement),
    (Statement.anyCast ss → casts) →
      Twins casts (Statement.lowerAll env ctx ss) (Statement.lowerAll env.unmarked ctx ss)
  | _, [], _ => .pure ()
  | ctx, s :: rest, hc =>
    (s.lower_twins env ctx fun h => hc (by simp [Statement.anyCast, h])).bind fun _ =>
      Statement.lowerAll_twins env ctx rest fun h => hc (by simp [Statement.anyCast, h])

end

/-! ## Blocks -/

theorem declareVars_twins (ds : List Declaration) : Twins casts (declareVars ds) (declareVars ds) := by
  refine .forM fun d _ => ?_
  cases d with
  | var d =>
    simp only
    split
    · exact .pure ()
    · exact .declare _ _ _ _
  | parameter s p => exact .declare _ _ _ _
  | label | subroutine => exact .pure ()

/-- What is written into a block when it has been opened. -/
def Tree.Block.fill (env : Environment) (b : Tree.Block) : Writer Unit := do
  declareVars (Declaration.ofList b.statements)
  env.mark b.position
  Statement.lowerAll env { scope := b.name } b.statements

theorem Tree.Block.lower_eq (env : Environment) (b : Tree.Block) : b.lower env =
    perform (Sink.openBlock b.name b.address b.options) >>= fun _ => b.fill env := rfl

theorem Tree.Block.fill_twins (env : Environment) (b : Tree.Block)
    (hc : Statement.anyCast b.statements → casts) :
    Twins casts (b.fill env) (b.fill env.unmarked) :=
  (declareVars_twins _).bind fun _ => (Twins.mark env b.position).bind fun _ =>
    Statement.lowerAll_twins env { scope := b.name } b.statements hc

end StackCode
