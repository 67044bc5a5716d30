/-
What statements hand over: a value to the place that it is assigned to, a result to the
caller, the first value of a range and the elements of an array to a counter. Like the
arguments of calls they are no wider than where they go, in all of a program that is lowered.
-/
import StackCode.Proofs.Lowering.Shape
import StackCode.Proofs.Lowering.Sound
import StackCode.Proofs.Widening.Transfer

namespace StackCode

open Writer

/-! ## The transfers of a statement -/

/-- An assignment hands the value over to the place. The values of a struct literal go to the members of
a struct, one after the other. -/
def Place.assigned (symbols : SymbolTable) : Place → Expr → List Transfer
  | .var name, .structLiteral values =>
    match symbols.var? name with
    | some info => (info.members.zip values).map fun x =>
      ⟨x.2.type? symbols, (Place.var (memberName name x.1)).type? symbols⟩
    | none => []
  | p, value => [⟨value.type? symbols, p.type? symbols⟩]

/-- A call whose results nobody uses. A label takes no arguments. -/
def Expr.called (symbols : SymbolTable) (target : String) (args : List Expr) : List Transfer :=
  match symbols.find? target with
  | some .label => []
  | _ => handed symbols target args ++ allTransfers symbols args

/-- The type of what a loop counts in. -/
def SymbolTable.counterType? (symbols : SymbolTable) : Option Register → Option String → Option DataType
  | some _, _ => some .ubyte
  | none, some name => (symbols.var? name).map (·.type)
  | none, none => none

/-- What a loop hands over to its counter: the first value, or each element. The numbers of a constant
range are no values of their types any more: they are checked against the type of the counter. -/
def Expr.counted (symbols : SymbolTable) (counter : Option DataType) : Expr → List Transfer
  | .range first last step =>
    if (ConstantRange.ofExprs? symbols first last step).isSome then []
    else [⟨first.type? symbols, counter⟩]
  | .var name => [⟨symbols.elementType? name, counter⟩]
  | _ => []

mutual

/-- The transfers in the code of a statement. A choice on a status flag that is written as its jumps
makes none, nor does a loop with nothing in it. -/
def Statement.transfers (symbols : SymbolTable) (results : List DataType) : Statement → List Transfer
  | .assign p value _ =>
    p.read.transfers symbols ++ (value.transfers symbols ++ p.assigned symbols value)
  | .step p _ _ => p.read.transfers symbols
  | .call target args _ => Expr.called symbols target args
  | .cond condition thenPart elsePart _ =>
    condition.transfers symbols ++
      (thenPart.transfers symbols results ++ elsePart.transfers symbols results)
  | .branch _ thenPart elsePart _ =>
    if (branchJumps? thenPart elsePart).isSome then []
    else thenPart.transfers symbols results ++ elsePart.transfers symbols results
  | .forEach register variableName iterable body _ =>
    if body.isIdle then []
    else iterable.counted symbols (symbols.counterType? register variableName) ++
      (iterable.transfers symbols ++ body.transfers symbols results)
  | .whileLoop condition body _ | .repeatLoop body condition _ =>
    body.transfers symbols results ++ condition.transfers symbols
  | .scope s => s.transfers symbols results
  | .ret values _ =>
    (values.zip results).map (fun x => ⟨x.1.type? symbols, some x.2⟩) ++
      Expr.allTransfers symbols values
  | .subroutine s body _ => Statement.allTransfers symbols s.returnTypes body
  | .choose condition choices _ =>
    condition.transfers symbols ++ Choice.transfers symbols results choices
  | _ => []

def Scope.transfers (symbols : SymbolTable) (results : List DataType) : Scope → List Transfer
  | ⟨_, statements, _⟩ => Statement.allTransfers symbols results statements

def Choice.transfers (symbols : SymbolTable) (results : List DataType) : List Choice → List Transfer
  | [] => []
  | ⟨_, body⟩ :: rest => body.transfers symbols results ++ Choice.transfers symbols results rest

def Statement.allTransfers (symbols : SymbolTable) (results : List DataType) :
    List Statement → List Transfer
  | [] => []
  | s :: rest => s.transfers symbols results ++ Statement.allTransfers symbols results rest

end

/-- The transfers of a program. What stands outside of subroutines returns nothing. -/
def Tree.transfers (symbols : SymbolTable) (t : Tree) : List Transfer :=
  t.blocks.flatMap fun b => Statement.allTransfers symbols [] b.statements

variable {symbols : SymbolTable} {results : List DataType}

theorem Statement.allTransfers_eq_nil {ss : List Statement}
    (h : ∀ s ∈ ss, s.transfers symbols results = []) : allTransfers symbols results ss = [] := by
  induction ss with
  | nil => rfl
  | cons s ss ih =>
    rw [allTransfers, h s List.mem_cons_self, List.nil_append]
    exact ih fun x hx => h x (List.mem_cons_of_mem _ hx)

theorem Statement.allTransfers_of_nops {ss : List Statement} (h : ss.all (·.isNop)) :
    allTransfers symbols results ss = [] :=
  allTransfers_eq_nil fun _ hs => by rw [eq_nop_of_all h hs]; rfl

theorem Scope.transfers_of_isIdle : ∀ {s : Scope}, s.isIdle → s.transfers symbols results = []
  | ⟨_, _, _⟩, h => Statement.allTransfers_of_nops h

theorem Scope.transfers_of_onlyJump {s : Scope} {jump : JumpTarget × Position}
    (h : s.onlyJump? = some jump) : s.transfers symbols results = [] := by
  have hs : s.statements = [.jump jump.1 jump.2] := onlyJump?_ok h
  obtain ⟨name, statements, position⟩ := s
  subst hs
  rfl

/-- A subroutine that is all assembly hands nothing over. -/
theorem Statement.allTransfers_of_soleAssembly {body : List Statement} {sole : String × Position}
    (h : soleAssembly? body = some sole) : allTransfers symbols results body = [] := by
  refine allTransfers_eq_nil fun s hs => ?_
  obtain ⟨d, rfl⟩ | rfl | ⟨text, position, rfl⟩ := soleAssembly?_ok h hs <;> rfl

/-! ## Steps -/

/-- If the steps come to their end, then all of the transfers widen. -/
structure Writer.Widens {α : Type} (w : Writer α) (xs : List Transfer) : Prop where
  done : ∀ {out a out'}, w out = .ok (a, out') → ∀ x ∈ xs, x.Widens

namespace Writer.Widens

variable {α β γ : Type} {w : Writer α} {f : α → Writer β} {xs ys : List Transfer}

theorem nil : w.Widens [] := ⟨fun _ => List.forall_mem_nil _⟩

theorem mono (h : w.Widens xs) (hsub : ys ⊆ xs) : w.Widens ys :=
  ⟨fun hrun x hx => h.done hrun x (hsub hx)⟩

/-- One transfer at a time. -/
theorem of_each (h : ∀ x ∈ xs, w.Widens [x]) : w.Widens xs where
  done hrun x hx := (h x hx).done hrun x (List.mem_singleton_self x)

theorem append (h : w.Widens xs) (h' : w.Widens ys) : w.Widens (xs ++ ys) where
  done hrun x hx := (List.mem_append.1 hx).elim (h.done hrun x) (h'.done hrun x)

/-- Before steps that hand nothing over. -/
theorem before (hw : w.Widens xs) : (w >>= f).Widens xs where
  done hrun := by
    obtain ⟨_, _, hfirst, -⟩ := Writer.bind_ok_iff.1 hrun
    exact hw.done hfirst

/-- Behind steps that hand nothing over. -/
theorem after (hf : ∀ a, (f a).Widens xs) : (w >>= f).Widens xs where
  done hrun := by
    obtain ⟨a, _, -, hrest⟩ := Writer.bind_ok_iff.1 hrun
    exact (hf a).done hrest

theorem bind (hw : w.Widens xs) (hf : ∀ a, (f a).Widens ys) : (w >>= f).Widens (xs ++ ys) :=
  hw.before.append (after hf)

theorem lift {x : Lowered α} (hf : ∀ a, x = .ok a → (f a).Widens xs) : (liftM x >>= f).Widens xs where
  done hrun := by
    obtain ⟨a, _, hx, hrest⟩ := Writer.bind_ok_iff.1 hrun
    exact (hf a (Writer.lift_ok_iff.1 hx).1).done hrest

theorem throw {e : LowerError} : (MonadExcept.throw e : Writer α).Widens xs where
  done hrun := (Writer.throw_ok_iff.1 hrun).elim

theorem emitLowered {x : Lowered Code} (h : ∀ c, x = .ok c → ∀ y ∈ xs, y.Widens) :
    (StackCode.emitLowered x).Widens xs where
  done hrun := by
    obtain ⟨c, hc, -⟩ := emitLowered_ok_iff.1 hrun
    exact h c hc

/-- The code of an expression. -/
theorem code (e : Expr) : (StackCode.emitLowered (e.code symbols)).Widens (e.transfers symbols) :=
  emitLowered fun _ => Expr.transfers_widen

theorem forM {f : γ → Writer Unit} {g : γ → List Transfer} {cs : List γ}
    (h : ∀ c ∈ cs, (f c).Widens (g c)) : (cs.forM f).Widens (cs.flatMap g) := by
  induction cs with
  | nil => exact nil
  | cons c cs ih =>
    rw [List.flatMap_cons]
    exact (h c List.mem_cons_self).bind fun _ => ih fun y hy => h y (List.mem_cons_of_mem _ hy)

end Writer.Widens

/-! ## Choices -/

variable {env : Environment} {ctx : Context} {xs ys : List Transfer}

theorem alternatives_widens {away : Opcode} {elseLabel endLabel : String} {elseIdle : Bool}
    {thenWriter elseWriter : Writer Unit} (ht : thenWriter.Widens xs) (he : elseWriter.Widens ys)
    (hidle : elseIdle → ys = []) :
    (alternatives away elseLabel endLabel elseIdle thenWriter elseWriter).Widens (xs ++ ys) := by
  unfold alternatives
  split
  next h =>
    rw [hidle h, List.append_nil]
    exact .after fun _ => ht.before
  next => exact .after fun _ => ht.bind fun _ => .after fun _ => .after fun _ => he.before

theorem conditional_widens {condition : Expr} {thenScope elseScope : Scope} {position : Position}
    {thenWriter elseWriter : Writer Unit}
    (ht : thenWriter.Widens (thenScope.transfers env.symbols results))
    (he : elseWriter.Widens (elseScope.transfers env.symbols results)) :
    (conditional env ctx condition thenScope elseScope position thenWriter elseWriter).Widens
      (condition.transfers env.symbols ++
        (thenScope.transfers env.symbols results ++ elseScope.transfers env.symbols results)) := by
  refine .after fun _ => .after fun _ => (Widens.code condition).bind fun _ => ?_
  cases hjump : thenScope.onlyJump? with
  | some jump =>
    rw [Scope.transfers_of_onlyJump hjump]
    exact .after fun _ => .after fun _ => he
  | none =>
    refine .after fun away => .after fun endLabel => ?_
    cases hidle : elseScope.isIdle with
    | true => exact .after fun _ => alternatives_widens ht he fun _ => Scope.transfers_of_isIdle hidle
    | false => exact .after fun _ => alternatives_widens ht he nofun

theorem flagBranch_widens {test : FlagTest} {thenScope elseScope : Scope} {position : Position}
    {thenWriter elseWriter : Writer Unit}
    (ht : thenWriter.Widens (thenScope.transfers symbols results))
    (he : elseWriter.Widens (elseScope.transfers symbols results)) :
    (flagBranch env ctx test thenScope elseScope position thenWriter elseWriter).Widens
      (if (branchJumps? thenScope elseScope).isSome then []
        else thenScope.transfers symbols results ++ elseScope.transfers symbols results) := by
  unfold flagBranch
  by_cases hidle : (thenScope.isIdle && elseScope.isIdle) = true
  · rw [Bool.and_eq_true] at hidle
    rw [Scope.transfers_of_isIdle hidle.1, Scope.transfers_of_isIdle hidle.2, List.append_nil, ite_self]
    exact .nil
  · rw [if_neg hidle]
    refine .after fun _ => ?_
    cases branchJumps? thenScope elseScope with
    | some jumps => exact .nil
    | none =>
      exact .after fun _ => .after fun _ =>
        alternatives_widens ht he fun hidle => Scope.transfers_of_isIdle hidle

/-! ## Many parts -/

/-- Some parts are written among the tests, and the other ones behind them. -/
theorem choiceHeads_widens {α : Type} {t : IntType} {choices : List ChoicePart} {c : ChoicePart}
    (hc : c ∈ choices) (hpart : c.part.Widens xs) :
    ∀ {rest : List (String × Writer Unit) → Writer α},
      (∀ parts, (∃ p ∈ parts, p.2.Widens xs) → (rest parts).Widens xs) →
      (choiceHeads env ctx t choices >>= rest).Widens xs := by
  induction choices with
  | nil => cases hc
  | cons choice choices ih =>
    intro rest hrest
    obtain ⟨_ | values, part⟩ := choice
    · rw [choiceHeads, bind_assoc]
      rcases List.mem_cons.1 hc with rfl | hc
      · exact hpart.before
      · exact .after fun _ => ih hc hrest
    · rw [choiceHeads, bind_assoc]
      refine .after fun vs => ?_
      cases vs with
      | nil => exact .before .throw
      | cons v vs =>
        simp only [bind_assoc, pure_bind]
        refine .after fun label => .after fun _ => ?_
        rcases List.mem_cons.1 hc with rfl | hc
        · exact .after fun parts => hrest _ ⟨_, List.mem_cons_self, hpart⟩
        · refine ih hc fun parts hparts => ?_
          obtain ⟨p, hp, hw⟩ := hparts
          exact hrest _ ⟨p, List.mem_cons_of_mem _ hp, hw⟩

theorem choiceBodies_widens {endLabel : String} {parts : List (String × Writer Unit)}
    {p : String × Writer Unit} (hp : p ∈ parts) (hw : p.2.Widens xs) :
    (parts.forM fun (label, part) => do
      placeLabel label
      part
      emit [Opcode.jump.named endLabel]).Widens xs := by
  induction parts with
  | nil => cases hp
  | cons q parts ih =>
    rcases List.mem_cons.1 hp with rfl | hp
    · exact .before (.after fun _ => hw.before)
    · exact .after fun _ => ih hp

/-- What one of the choices hands over. -/
theorem choose_widens {condition : Expr} {choices : List ChoicePart} {position : Position}
    (h : ∀ x ∈ xs, ∃ c ∈ choices, c.part.Widens [x]) :
    (choose env ctx condition choices position).Widens (condition.transfers env.symbols ++ xs) := by
  refine .after fun _ => .after fun _ => .after fun t => (Widens.code condition).bind fun _ =>
    .of_each fun x hx => ?_
  obtain ⟨c, hc, hpart⟩ := h x hx
  split
  next hempty =>
    rw [List.isEmpty_iff.1 hempty] at hc
    cases hc
  next =>
    refine .after fun endLabel => choiceHeads_widens hc hpart fun parts hparts => ?_
    obtain ⟨p, hp, hw⟩ := hparts
    exact .after fun _ => (choiceBodies_widens hp hw).before

/-! ## Places -/

/-- An address that is not fixed is computed. -/
theorem Expr.address_widens {address : Expr} {fixed : Option UInt16}
    (h : address.fixedAddress? symbols = .ok fixed)
    (hcode : fixed = none → ∃ c, address.code symbols = .ok c) :
    ∀ x ∈ address.transfers symbols, x.Widens := by
  cases fixed with
  | some a =>
    rw [transfers_of_fixedAddress h]
    exact List.forall_mem_nil _
  | none =>
    obtain ⟨c, hc⟩ := hcode rfl
    exact transfers_widen hc

/-- The index or the address of a place that is written. -/
theorem Place.write_widens {p : Place} {code : Code}
    (h : p.write symbols (p.inner symbols) = .ok code) : ∀ x ∈ p.read.transfers symbols, x.Widens := by
  cases p with
  | var | register => exact List.forall_mem_nil _
  | element array index =>
    simp only [write, inner, read, Expr.operand, Lowered.bind_ok_iff] at h
    obtain ⟨_, -, _, -, c, hc, -⟩ := h
    rw [read, Expr.transfers]
    exact Expr.transfers_widen hc
  | memory address =>
    simp only [write, inner, read, Expr.operand, Lowered.bind_ok_iff] at h
    obtain ⟨fixed, hfixed, h⟩ := h
    rw [read, Expr.transfers]
    refine Expr.address_widens hfixed fun hnone => ?_
    subst hnone
    obtain ⟨c, hc, -⟩ := Lowered.bind_ok_iff.1 h
    exact ⟨c, hc⟩

/-- The index or the address of a place that is stepped. -/
theorem Place.step_widens {p : Place} {op : Increment} {code : Code}
    (h : p.step symbols op (p.inner symbols) = .ok code) :
    ∀ x ∈ p.read.transfers symbols, x.Widens := by
  cases p with
  | var | register => exact List.forall_mem_nil _
  | element array index =>
    simp only [step, inner, read, Expr.operand, Lowered.bind_ok_iff] at h
    obtain ⟨_, -, _, -, c, hc, -⟩ := h
    rw [read, Expr.transfers]
    exact Expr.transfers_widen hc
  | memory address =>
    simp only [step, inner, read, Expr.operand, Lowered.bind_ok_iff] at h
    obtain ⟨fixed, hfixed, h⟩ := h
    rw [read, Expr.transfers]
    refine Expr.address_widens hfixed fun hnone => ?_
    subst hnone
    obtain ⟨c, hc, -⟩ := Lowered.bind_ok_iff.1 h
    exact ⟨c, hc⟩

/-- The value of an expression that is asked for as a value of some type. -/
theorem Expr.pushAs_widens {e : Expr} {t : DataType} {code : Code}
    (h : (e.operand symbols).pushAs symbols t = .ok code) :
    (∀ x ∈ e.transfers symbols, x.Widens) ∧ (Transfer.mk (e.type? symbols) (some t)).Widens := by
  obtain ⟨⟨c, hc⟩, hwidens⟩ := Operand.pushAs_ok h
  rw [expr_operand] at hwidens
  exact ⟨transfers_widen hc, hwidens⟩

theorem assignCode_widens {p : Place} {value : Expr} {code : Code}
    (h : assignCode symbols p value = .ok code) :
    (∀ x ∈ p.read.transfers symbols, x.Widens) ∧ (∀ x ∈ value.transfers symbols, x.Widens) ∧
      (Transfer.mk (value.type? symbols) (p.type? symbols)).Widens := by
  simp only [assignCode, Operand.assign, Lowered.bind_ok_iff, Place.needType_ok_iff] at h
  obtain ⟨t, ht, _, hpush, _, hwrite, -⟩ := h
  obtain ⟨hvalue, hwidens⟩ := Expr.pushAs_widens hpush
  exact ⟨Place.write_widens hwrite, hvalue, ht ▸ hwidens⟩

/-- Each value of a struct literal has a member of its own. -/
theorem structAssignCode_widens {p : Place} {values : List Expr} {code : Code}
    (h : structAssignCode symbols p values = .ok code) :
    ∀ x ∈ p.read.transfers symbols ++ ((Expr.structLiteral values).transfers symbols ++
      p.assigned symbols (.structLiteral values)), x.Widens := by
  unfold structAssignCode at h
  split at h
  next name =>
    split at h
    next members hvar =>
      simp only [Lowered.check_ok_iff, Lowered.bind_ok_iff, not_not] at h
      obtain ⟨hlen, codes, hcodes, -⟩ := h
      have hown {member : String} {value : Expr} (hmem : (member, value) ∈ members.zip values) :
          (∀ x ∈ value.transfers symbols, x.Widens) ∧ (Transfer.mk (value.type? symbols)
            ((Place.var (memberName name member)).type? symbols)).Widens := by
        obtain ⟨c, hc⟩ := Lowered.ok_of_mem_mapM hcodes hmem
        exact (assignCode_widens hc).2
      intro x hx
      simp only [Place.read, Expr.transfers, List.nil_append, List.mem_append, Expr.mem_allTransfers,
        Place.assigned, hvar, List.mem_map, Prod.exists] at hx
      rcases hx with ⟨value, hvalue, hx⟩ | ⟨member, value, hmem, rfl⟩
      · rw [← List.map_snd_zip (Nat.le_of_eq hlen.symm)] at hvalue
        obtain ⟨⟨member, _⟩, hmem, rfl⟩ := List.mem_map.1 hvalue
        exact (hown hmem).1 x hx
      · exact (hown hmem).2
    next => simp only [Lowered.throw_ok_iff] at h
  next => simp only [Lowered.throw_ok_iff] at h

theorem assign_widens {p : Place} {value : Expr} {position : Position} :
    (env.assign p value position).Widens (p.read.transfers env.symbols ++
      (value.transfers env.symbols ++ p.assigned env.symbols value)) := by
  refine .after fun _ => ?_
  cases value with
  | structLiteral values => exact .emitLowered fun _ => structAssignCode_widens
  | _ =>
    refine .emitLowered fun c hc x hx => ?_
    obtain ⟨hplace, hvalue, hown⟩ := assignCode_widens hc
    rcases List.mem_append.1 hx with hx | hx
    · exact hplace x hx
    · rcases List.mem_append.1 hx with hx | hx
      · exact hvalue x hx
      · cases p <;> rw [List.mem_singleton.1 hx] <;> exact hown

/-! ## Loops -/

variable {body : LoopBody}

/-- The numbers of a constant range are known beforehand. -/
theorem ConstantRange.transfers_of_ofExprs? {first last step : Expr} {r : ConstantRange}
    (h : ofExprs? symbols first last step = some r) :
    (Expr.range first last step).transfers symbols = [] := by
  simp only [ofExprs?, Option.bind_eq_bind, Option.bind_eq_some_iff] at h
  obtain ⟨_, hfirst, _, hlast, _, hstep, -⟩ := h
  simp only [Expr.transfers, Expr.transfers_of_constantInt hfirst, Expr.transfers_of_constantInt hlast,
    Expr.transfers_of_constantInt hstep, List.append_nil]

theorem constantLoop_widens {r : ConstantRange} {counter : Counter} {t : DataType} {scope : String}
    (hb : ∀ labels, (body labels).Widens xs) : (constantLoop r counter t scope body).Widens xs :=
  .after fun _ => .after fun _ => .after fun _ => .after fun _ => (hb _).before

theorem variableStep_transfers {step : Expr} {op : Increment} (h : variableStep symbols step = .ok op) :
    step.transfers symbols = [] := by
  unfold variableStep at h
  split at h <;> first | cases h; done | exact Expr.transfers_of_constantInt (by assumption)

theorem variableLoop_widens {first last step : Expr} {counter : Counter} {t : DataType} {scope : String}
    {position : Position} (hb : ∀ labels, (body labels).Widens xs) :
    (variableLoop env first last step counter t scope position body).Widens
      ([⟨first.type? env.symbols, counter.place.type? env.symbols⟩] ++
        ((Expr.range first last step).transfers env.symbols ++ xs)) := by
  have hinit : (emitLowered (assignCode env.symbols counter.place first)).Widens
      (⟨first.type? env.symbols, counter.place.type? env.symbols⟩ ::
        first.transfers env.symbols) := .emitLowered fun c hc x hx => by
    obtain ⟨-, hfirst, hown⟩ := assignCode_widens hc
    rcases List.mem_cons.1 hx with rfl | hx
    · exact hown
    · exact hfirst x hx
  refine .lift fun op hop => .after fun goOn => Widens.mono (hinit.bind fun _ => .after fun frame =>
    .after fun _ => .after fun _ => .after fun _ => (Widens.code _).bind fun _ => .after fun _ =>
    .after fun _ => (hb frame.labels).before) fun x hx => ?_
  simp only [Expr.transfers, variableStep_transfers hop, List.append_nil, List.mem_append,
    List.mem_cons, List.not_mem_nil, or_false] at hx ⊢
  tauto

theorem elementLoop_widens {array : String} {counter : Counter} {t : DataType} {scope : String}
    (hb : ∀ labels, (body labels).Widens xs) :
    (elementLoop symbols array counter t scope body).Widens
      ([⟨symbols.elementType? array, some t⟩] ++ xs) := by
  unfold elementLoop
  split
  · exact .before .throw
  · refine .lift fun r hr => .after fun index => .after fun _ => .after fun frame => .after fun _ =>
      .after fun _ => Widens.bind (.emitLowered fun c hc x hx => ?_) fun _ => (hb frame.labels).before
    simp only [ElementRange.fetchCode, Lowered.bind_ok_iff] at hc
    obtain ⟨_, -, op, hop, -⟩ := hc
    obtain rfl := List.mem_singleton.1 hx
    exact ⟨_, t, (ElementRange.find_ok hr).2, rfl, DataType.isWiderThan_of_widening hop⟩

/-- A loop counts in a place of the type that its counter is found with. -/
theorem Counter.type?_of_find {register : Option Register} {variableName : Option String}
    {counter : Counter} {t : DataType}
    (h : Counter.find symbols register variableName = .ok (counter, t)) :
    counter.place.type? symbols = some t ∧ symbols.counterType? register variableName = some t := by
  obtain ⟨r, rfl, rfl, rfl⟩ | ⟨name, info, rfl, rfl, rfl, hinfo, rfl⟩ := Counter.find_cases h
  · exact ⟨rfl, rfl⟩
  · simp [place, Place.type?, SymbolTable.counterType?, hinfo]

theorem forLoop_widens {register : Option Register} {variableName : Option String} {iterable : Expr}
    {scope : String} {position : Position} (hb : ∀ labels, (body labels).Widens xs) :
    (forLoop env register variableName iterable scope position body).Widens
      (iterable.counted env.symbols (env.symbols.counterType? register variableName) ++
        (iterable.transfers env.symbols ++ xs)) := by
  refine .after fun _ => .lift fun found hfound => ?_
  obtain ⟨counter, t⟩ := found
  obtain ⟨hplace, htype⟩ := Counter.type?_of_find hfound
  cases iterable with
  | range first last step =>
    cases h : ConstantRange.ofExprs? env.symbols first last step with
    | some r =>
      simp only [Expr.counted, h, ConstantRange.transfers_of_ofExprs? h, Option.isSome_some, if_true,
        List.nil_append]
      exact constantLoop_widens hb
    | none =>
      simp only [Expr.counted, h, htype, ← hplace, Option.isSome_none, Bool.false_eq_true, if_false]
      exact variableLoop_widens hb
  | var name =>
    rw [Expr.counted, htype]
    exact elementLoop_widens hb
  | _ => exact .throw

theorem whileLoop_widens {condition : Expr} {scope : String} {position : Position}
    (hb : ∀ labels, (body labels).Widens xs) :
    (whileLoop env condition scope position body).Widens (xs ++ condition.transfers env.symbols) :=
  .after fun _ => .after fun _ => .after fun _ => .after fun _ => .after fun _ => .after fun _ =>
    .after fun _ => .after fun _ => (hb _).bind fun _ => .after fun _ => (Widens.code condition).before

theorem repeatLoop_widens {condition : Expr} {scope : String} {position : Position}
    (hb : ∀ labels, (body labels).Widens xs) :
    (repeatLoop env condition scope position body).Widens (xs ++ condition.transfers env.symbols) :=
  .after fun _ => .after fun _ => .after fun _ => .after fun _ => .after fun _ =>
    (hb _).bind fun _ => .after fun _ => (Widens.code condition).before

/-! ## Other statements -/

theorem callStatementCode_widens {target : String} {args : List Expr} {code : Code}
    (h : callStatementCode symbols target args = .ok code) :
    ∀ x ∈ Expr.called symbols target args, x.Widens := by
  have hargs (hown : (∀ x ∈ Expr.handed symbols target args, x.Widens) ∧
      ∀ o ∈ Expr.operands symbols args, o.IsEvaluated symbols) :
      ∀ x ∈ Expr.handed symbols target args ++ Expr.allTransfers symbols args, x.Widens := fun x hx =>
    (List.mem_append.1 hx).elim (hown.1 x) (Expr.allTransfers_widen hown.2 x)
  unfold callStatementCode at h
  unfold Expr.called
  split at h
  next s hs =>
    simp only [hs]
    obtain ⟨_, hcall, -⟩ := Lowered.bind_ok_iff.1 h
    exact hargs (Expr.handed_widen_of_subroutine hs hcall)
  next hs =>
    simp only [hs]
    exact List.forall_mem_nil _
  next => simp only [Lowered.throw_ok_iff] at h
  next hn =>
    simp only [hn]
    split at h
    next => simp only [Lowered.throw_ok_iff] at h
    next b hb =>
      simp only [Lowered.bind_ok_iff] at h
      obtain ⟨_, -, _, hcall, -⟩ := h
      exact hargs (Expr.handed_widen_of_builtin hn hb hcall)

theorem ret_widens {values : List Expr} {position : Position} :
    (env.ret ctx values position).Widens
      ((values.zip ctx.returnTypes).map (fun x => ⟨x.1.type? env.symbols, some x.2⟩) ++
        Expr.allTransfers env.symbols values) := by
  have hgives : (values.zip ctx.returnTypes).reverse.forM (fun x =>
      emitLowered ((x.1.operand env.symbols).pushAs env.symbols x.2)) |>.Widens
        ((values.zip ctx.returnTypes).reverse.flatMap fun x =>
          ⟨x.1.type? env.symbols, some x.2⟩ :: x.1.transfers env.symbols) :=
    .forM fun x _ => .emitLowered fun c hc y hy => by
      obtain ⟨hvalue, hown⟩ := Expr.pushAs_widens hc
      rcases List.mem_cons.1 hy with rfl | hy
      · exact hown
      · exact hvalue y hy
  unfold Environment.ret
  split
  · exact .before .throw
  next hlen =>
    replace hlen := not_not.1 hlen
    refine Widens.mono hgives.before fun y hy => ?_
    simp only [List.mem_append, List.mem_map, Expr.mem_allTransfers, List.mem_flatMap,
      List.mem_reverse, List.mem_cons] at hy ⊢
    rcases hy with ⟨x, hx, rfl⟩ | ⟨value, hvalue, hy⟩
    · exact ⟨x, hx, .inl rfl⟩
    · rw [← List.map_fst_zip (Nat.le_of_eq hlen)] at hvalue
      obtain ⟨x, hx, rfl⟩ := List.mem_map.1 hvalue
      exact ⟨x, hx, .inr hy⟩

theorem subroutineDefinition_widens {s : Signature} {statements : List Statement} {position : Position}
    {writer : Writer Unit} (hb : writer.Widens (Statement.allTransfers symbols results statements)) :
    (subroutineDefinition env s statements position writer).Widens
      (Statement.allTransfers symbols results statements) := by
  unfold subroutineDefinition
  cases s.address? with
  | some address =>
    by_cases hidle : statements.all (·.isNop)
    · rw [Statement.allTransfers_of_nops hidle]
      exact .nil
    · simp only [hidle, Bool.not_false, if_true]
      exact .before .throw
  | none =>
    refine .after fun _ => .after fun _ => .after fun _ => ?_
    cases hsole : soleAssembly? statements with
    | some sole =>
      rw [Statement.allTransfers_of_soleAssembly hsole]
      exact .nil
    | none => exact hb.before

/-! ## Statements -/

mutual

/-- **What a statement hands over is not wider than where it goes.** -/
theorem Statement.lower_widens (env : Environment) : ∀ (ctx : Context) (s : Statement),
    (s.lower env ctx).Widens (s.transfers env.symbols ctx.returnTypes)
  | _, .varDecl _ | _, .label _ _ | _, .jump _ _ | _, .exit _ _ | _, .returnFromIrq _
  | _, .directive _ _ _ | _, .assembly _ _ | _, .nop => .nil
  | _, .assign _ _ _ => assign_widens
  | _, .step _ _ _ => .after fun _ => .emitLowered fun _ => Place.step_widens
  | _, .call _ _ _ => .after fun _ => .emitLowered fun _ => callStatementCode_widens
  | ctx, .cond _ thenPart elsePart _ =>
    conditional_widens (thenPart.lower_widens env ctx) (elsePart.lower_widens env ctx)
  | ctx, .branch _ thenPart elsePart _ =>
    flagBranch_widens (thenPart.lower_widens env ctx) (elsePart.lower_widens env ctx)
  | ctx, .forEach _ _ _ body _ => by
    unfold Statement.lower Statement.transfers
    split
    · exact .nil
    · exact forLoop_widens fun labels => body.lower_widens env (ctx.inLoop labels)
  | ctx, .whileLoop _ body _ => by
    rw [Statement.lower, Statement.transfers]
    exact whileLoop_widens fun labels => body.lower_widens env (ctx.inLoop labels)
  | ctx, .repeatLoop body _ _ => by
    rw [Statement.lower, Statement.transfers]
    exact repeatLoop_widens fun labels => body.lower_widens env (ctx.inLoop labels)
  | ctx, .scope s => s.lower_widens env ctx
  | _, .ret _ _ => ret_widens
  | _, .subroutine s body _ =>
    subroutineDefinition_widens
      (Statement.lowerAll_widens env { scope := s.name, returnTypes := s.returnTypes } body)
  | ctx, .choose _ choices _ => choose_widens (Choice.parts_widen env ctx choices)

theorem Scope.lower_widens (env : Environment) : ∀ (ctx : Context) (s : Scope),
    (s.lower env ctx).Widens (s.transfers env.symbols ctx.returnTypes)
  | ctx, ⟨name, statements, position⟩ =>
    Statement.lowerAll_widens env (ctx.inside ⟨name, statements, position⟩) statements

theorem Choice.parts_widen (env : Environment) (ctx : Context) : ∀ choices : List Choice,
    ∀ x ∈ Choice.transfers env.symbols ctx.returnTypes choices,
      ∃ c ∈ Choice.parts env ctx choices, c.part.Widens [x]
  | [] => List.forall_mem_nil _
  | ⟨values, body⟩ :: rest => by
    intro x hx
    rcases List.mem_append.1 hx with hx | hx
    · exact ⟨_, List.mem_cons_self, (body.lower_widens env ctx).mono (by simpa using hx)⟩
    · obtain ⟨c, hc, hpart⟩ := Choice.parts_widen env ctx rest x hx
      exact ⟨c, List.mem_cons_of_mem _ hc, hpart⟩

theorem Statement.lowerAll_widens (env : Environment) : ∀ (ctx : Context) (ss : List Statement),
    (Statement.lowerAll env ctx ss).Widens
      (Statement.allTransfers env.symbols ctx.returnTypes ss)
  | _, [] => .nil
  | ctx, s :: rest =>
    (s.lower_widens env ctx).bind fun _ => Statement.lowerAll_widens env ctx rest

end

/-! ## Programs -/

theorem Tree.Block.lower_widens (env : Environment) (b : Tree.Block) :
    (b.lower env).Widens (Statement.allTransfers env.symbols [] b.statements) :=
  .after fun _ => .after fun _ => .after fun _ =>
    Statement.lowerAll_widens env { scope := b.name } b.statements

theorem Tree.steps_widen (env : Environment) (t : Tree) :
    (t.steps env).Widens (t.transfers env.symbols) := by
  rw [transfers, blocks, List.flatMap_assoc]
  exact .forM fun m _ => .forM fun b _ => b.lower_widens { env with source := m.source }

/-- **Unasked, a program only ever widens.** Whatever it hands over is not wider than where it goes.
If it has no casts, then each conversion in its code is to a wider type. -/
theorem Tree.lower_only_widens {t : Tree} {env : Environment} {p : Program} (h : t.lower env = .ok p) :
    (t.hasCast = false → ∀ b ∈ p.blocks, ∀ i ∈ b.instructions, i.opcode.Widens) ∧
      ∀ x ∈ t.transfers env.symbols, x.Widens := by
  constructor
  · intro hcast b hb i hi
    have hnone : t.hasCast → False := by simp [hcast]
    have hsound := (t.lower_sound env hnone).2 p h i (List.mem_flatMap.2 ⟨b, hb, hi⟩)
    exact hsound.widens.resolve_left id
  · obtain ⟨out, hrun, -⟩ := lower_ok_iff.1 h
    exact (t.steps_widen env).done hrun

/-- A byte and a word, whose sum goes to a word. -/
def mixedSum : Tree where
  name := "sample"
  loadAddress := none
  modules :=
    [{ name := "main"
       source := "main"
       blocks :=
        [{ name := "main"
           address := none
           options := []
           statements :=
            [.varDecl ⟨"main.low", .ubyte, .plain, none, [], {}⟩,
              .varDecl ⟨"main.sum", .uword, .plain, none, [], {}⟩,
              .assign (.var "main.sum")
                (.binary (.var "main.low") (.arithmetic .add) (.number (.wrapped .uword 1000))) {},
              .assign (.var "main.sum") (.var "main.low") {}]
           position := {} }] }]

theorem mixedSum_only_widens : mixedSum.hasCast = false ∧
    mixedSum.transfers (.ofTree mixedSum) =
      [⟨some .uword, some .uword⟩, ⟨some .ubyte, some .uword⟩] ∧
    ∃ p, mixedSum.program {} (.ofTexts []) = .ok p ∧
      (p.instructions.filter (·.opcode.isCast)).length = 2 ∧
      (∀ b ∈ p.blocks, ∀ i ∈ b.instructions, i.opcode.Widens) ∧
      ∀ x ∈ mixedSum.transfers (.ofTree mixedSum), x.Widens := by
  have hcast : mixedSum.hasCast = false := by decide +kernel
  have htransfers : mixedSum.transfers (.ofTree mixedSum) =
      [⟨some .uword, some .uword⟩, ⟨some .ubyte, some .uword⟩] := by decide +kernel
  have hlowered : (mixedSum.program {} (.ofTexts [])).toOption.map
      (fun p => (p.instructions.filter (·.opcode.isCast)).length) = some 2 := by decide +kernel
  refine ⟨hcast, htransfers, ?_⟩
  cases h : mixedSum.program {} (.ofTexts []) with
  | error e => simp [h, Except.toOption] at hlowered
  | ok p =>
    have hcasts : (p.instructions.filter (·.opcode.isCast)).length = 2 := by
      simpa [h, Except.toOption] using hlowered
    rw [Tree.program_eq] at h
    obtain ⟨hwidens, hhanded⟩ := Tree.lower_only_widens h
    exact ⟨p, rfl, hcasts, hwidens hcast, hhanded⟩

end StackCode
