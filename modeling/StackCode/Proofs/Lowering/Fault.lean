/-
Who is to blame when a program is not lowered. Code of expressions and of single
statements is made without the sink, and only jumps have a place to go to. So whatever
is wrong with such code is wrong with the program: it is never a wrong use of the sink,
nor a jump on a status flag that goes to an address.
-/
import StackCode.Lowering.Tree
import StackCode.Proofs.Lowered

namespace StackCode

/-- The lowering may fail, but not by a wrong use of the sink. -/
def Lowered.SinkFree {α : Type} (x : Lowered α) : Prop := ∀ f, x ≠ .error (.sink f)

/-- The lowering is to blame for the error, not the program. -/
@[grind] def LowerError.isFault : LowerError → Bool
  | sink _ | branchToAddress _ => true
  | _ => false

/-- The lowering may fail, but then the program is to blame. -/
def Lowered.Faultless {α : Type} (x : Lowered α) : Prop := ∀ e, x = .error e → e.isFault = false

namespace Lowered.SinkFree

variable {α β : Type}

theorem ok (a : α) : SinkFree (.ok a) := fun _ h => by cases h

theorem pure (a : α) : SinkFree (Pure.pure a) := ok a

theorem error {e : LowerError} (h : ∀ f, e ≠ .sink f) : SinkFree (.error e : Lowered α) :=
  fun f h' => h f (Except.error.inj h')

theorem bind {x : Lowered α} {f : α → Lowered β} (hx : SinkFree x) (hf : ∀ a, SinkFree (f a)) :
    SinkFree (x >>= f) := by
  cases x with
  | error e => exact error fun g h => hx g (congrArg _ h)
  | ok a => exact hf a

end Lowered.SinkFree

namespace Lowered.Faultless

variable {α β : Type}

theorem sinkFree {x : Lowered α} (hx : Faultless x) : SinkFree x := fun f h => by
  cases hx (.sink f) h

@[grind ←] theorem ok (a : α) : Faultless (.ok a) := fun _ h => by cases h

@[grind ←] theorem pure (a : α) : Faultless (Pure.pure a) := ok a

@[grind ←] theorem error {e : LowerError} (h : e.isFault = false) :
    Faultless (.error e : Lowered α) :=
  fun _ h' => Except.error.inj h' ▸ h

@[grind ←] theorem throw {e : LowerError} (h : e.isFault = false) :
    Faultless (MonadExcept.throw e : Lowered α) :=
  error h

@[grind ←] theorem bind {x : Lowered α} {f : α → Lowered β} (hx : Faultless x)
    (hf : ∀ a, Faultless (f a)) : Faultless (x >>= f) := by
  cases x with
  | error e => exact error (hx e rfl)
  | ok a => exact hf a

/-- A check that has failed. -/
@[grind ←] theorem throw_bind {e : LowerError} {f : α → Lowered β} (h : e.isFault = false) :
    Faultless ((MonadExcept.throw e : Lowered α) >>= f) :=
  error h

/-- A check in front of the rest. -/
theorem check {p : Prop} [Decidable p] {e : LowerError} {f : α → Lowered β} {x : Lowered β}
    (h : e.isFault = false) (hx : Faultless x) :
    Faultless (if p then (MonadExcept.throw e : Lowered α) >>= f else x) := by
  split
  · exact throw_bind h
  · exact hx

theorem mapM {f : α → Lowered β} {xs : List α} (h : ∀ x ∈ xs, Faultless (f x)) :
    Faultless (xs.mapM f) := by
  induction xs with
  | nil => exact pure []
  | cons x xs ih =>
    rw [List.mapM_cons]
    exact (h x List.mem_cons_self).bind fun _ =>
      (ih fun y hy => h y (List.mem_cons_of_mem _ hy)).bind fun _ => pure _

theorem forM {f : α → Lowered Unit} {xs : List α} (h : ∀ x ∈ xs, Faultless (f x)) :
    Faultless (xs.forM f) := by
  induction xs with
  | nil => exact pure ()
  | cons x xs ih =>
    exact (h x List.mem_cons_self).bind fun _ => ih fun y hy => h y (List.mem_cons_of_mem _ hy)

theorem option_mapM {f : α → Lowered β} {x : Option α} (h : ∀ a, Faultless (f a)) :
    Faultless (x.mapM f) := by
  cases x with
  | none => exact pure none
  | some a =>
    rw [Option.mapM_some]
    exact (h a).bind fun _ => pure _

end Lowered.Faultless

open Lowered

variable {symbols : SymbolTable}

/-! ## Look-ups and opcodes -/

@[grind ←] theorem orInvalid_faultless {α : Type} {operation : String} {t : DataType} {x : Option α} :
    Faultless (orInvalid operation t x) := by
  cases x <;> grind [orInvalid]

@[grind ←] theorem needVar_faultless {name : String} : Faultless (symbols.needVar name) := by
  grind [SymbolTable.needVar]

@[grind ←] theorem Expr.needType_faultless {e : Expr} : Faultless (e.needType symbols) := by
  grind [Expr.needType]

@[grind ←] theorem Place.needType_faultless {p : Place} : Faultless (p.needType symbols) := by
  grind [Place.needType]

@[grind ←] theorem fixedAddress?_faultless {e : Expr} : Faultless (e.fixedAddress? symbols) := by
  grind [Expr.fixedAddress?]

@[grind ←] theorem pushVarFor_faultless {t : DataType} : Faultless (Opcode.pushVarFor t) := by
  cases t <;> grind [Opcode.pushVarFor]

@[grind ←] theorem stepVarFor_faultless {op : Increment} {t : DataType} :
    Faultless (Opcode.stepVarFor op t) :=
  orInvalid_faultless

@[grind ←] theorem stepIndexedFor_faultless {op : Increment} {t : DataType} :
    Faultless (Opcode.stepIndexedFor op t) := by
  cases op <;> cases t <;> grind [Opcode.stepIndexedFor]

@[grind ←] theorem unaryFor_faultless {op : UnaryOp} {t : DataType} :
    Faultless (Opcode.unaryFor op t) := by
  cases op <;> grind [Opcode.unaryFor]

@[grind ←] theorem bothNumeric_faultless {t u : DataType} : Faultless (t.bothNumeric u) := by
  cases t <;> cases u <;> grind [DataType.bothNumeric]

@[grind ←] theorem common_faultless {t u : DataType} : Faultless (t.common u) := by
  grind [DataType.common]

@[grind ←] theorem widening_faultless {t u : DataType} : Faultless (t.widening u) := by
  grind [DataType.widening]

@[grind ←] theorem castOpcode_faultless {t u : DataType} : Faultless (t.castOpcode u) := by
  grind [DataType.castOpcode]

/-! ## Places -/

@[grind ←] theorem readVar_faultless {name : String} : Faultless (readVar symbols name) := by
  grind [readVar, Opcode.pushMemFor]

@[grind ←] theorem readElement_faultless {array : String} {index : Lowered Code}
    (h : index.Faultless) : Faultless (readElement symbols array index) := by
  grind [readElement, Opcode.readIndexedFor]

@[grind ←] theorem readMemory_faultless {address : Expr} {inner : Lowered Code}
    (h : inner.Faultless) : Faultless (readMemory symbols address inner) := by
  grind [readMemory]

@[grind ←] theorem readAddress_faultless {name : String} : Faultless (readAddress symbols name) := by
  grind [readAddress]

@[grind ←] theorem writeVar_faultless {name : String} : Faultless (writeVar symbols name) := by
  grind [writeVar, Opcode.popVarFor, Opcode.popMemFor]

@[grind ←] theorem Place.write_faultless {p : Place} {inner : Lowered Code} (h : inner.Faultless) :
    Faultless (p.write symbols inner) := by
  cases p <;> grind [Place.write, Opcode.writeIndexedFor]

@[grind ←] theorem Place.step_faultless {op : Increment} {p : Place} {inner : Lowered Code}
    (h : inner.Faultless) : Faultless (p.step symbols op inner) := by
  cases p <;> grind [Place.step]

/-! ## Operands -/

/-- What goes wrong with an operand is in the program. -/
structure Operand.Faultless (o : Operand) : Prop where
  push : o.push.Faultless
  inner : o.inner.Faultless

@[grind ←] theorem Operand.pushAs_faultless {o : Operand} {t : DataType} (h : o.Faultless) :
    Lowered.Faultless (o.pushAs symbols t) := by
  have hpush := h.push
  grind [Operand.pushAs]

@[grind ←] theorem Operand.load_faultless {o : Operand} {r : Register} (h : o.Faultless) :
    Lowered.Faultless (o.load symbols r) := by
  grind [Operand.load]

@[grind ←] theorem Operand.assign_faultless {o : Operand} {p : Place} {inner : Lowered Code}
    (h : o.Faultless) (hi : inner.Faultless) : Lowered.Faultless (o.assign symbols p inner) := by
  grind [Operand.assign]

/-! ## Calls -/

theorem ordinaryCall_faultless {s : Signature} {args : List Operand} (h : ∀ a ∈ args, a.Faultless) :
    Faultless (ordinaryCall symbols s args) := by
  refine .check rfl (.bind (.mapM fun x hx => ?_) fun _ => .pure _)
  have harg := h x.2 (List.of_mem_zip hx).2
  grind [passParameter, Opcode.popVarFor]

theorem passCarrier_faultless {c : Carrier} {arg : Operand} (h : arg.Faultless) :
    Faultless (passCarrier symbols c arg) := by
  have hpush := h.push
  cases c with
  | flag f => cases f <;> grind [passCarrier]
  | _ => grind [passCarrier, passPair]

theorem takeResult_faultless {c : Carrier} : Faultless (takeResult c) := by
  cases c with
  | flag f => cases f <;> grind [takeResult]
  | _ => grind [takeResult]

theorem machineCall_faultless {s : Signature} {m : MachineConvention} {args : List Operand}
    (h : ∀ a ∈ args, a.Faultless) : Faultless (machineCall symbols s m args) := by
  have hresults : Faultless (m.returns.reverse.mapM takeResult) := .mapM fun _ _ => takeResult_faultless
  exact .check rfl (.bind (.mapM fun x hx => passCarrier_faultless (h x.2 (List.of_mem_zip hx).2))
    fun _ => hresults.bind fun _ => .pure _)

theorem subroutineCall_faultless {s : Signature} {args : List Operand} (h : ∀ a ∈ args, a.Faultless) :
    Faultless (subroutineCall symbols s args) := by
  unfold subroutineCall
  split
  · exact machineCall_faultless h
  · exact ordinaryCall_faultless h

/-! ## Builtins -/

@[grind ←] theorem serviceCall_faultless {function : String} : Faultless (serviceCall function) := by
  grind [serviceCall]

@[grind ←] theorem pushLength_faultless {length : UInt16} : Faultless (pushLength length) := by
  grind [pushLength]

@[grind ←] theorem declaredArray_faultless {e : Expr} : Faultless (declaredArray symbols e) := by
  cases e <;> grind [declaredArray]

@[grind ←] theorem pushArguments_faultless {params : List BuiltinParam} {args : List Operand}
    (h : ∀ a ∈ args, a.Faultless) : Faultless (pushArguments symbols params args) := by
  refine .bind (.mapM fun x hx => ?_) fun _ => .pure _
  have harg := h x.2 (List.of_mem_zip hx).2
  have hpush := harg.push
  grind

@[grind ←] theorem reduction_faultless {name : String} {byType : Bool} {arg : Operand}
    (h : arg.Faultless) : Faultless (reduction symbols name byType arg) := by
  have hpush := h.push
  grind [reduction]

theorem shiftInPlace_faultless {name : String} {shift : InPlaceShift} {arg : Operand}
    (h : arg.Faultless) : Faultless (shiftInPlace symbols name shift arg) := by
  have hpush := h.push
  have hinner := h.inner
  grind [shiftInPlace, Opcode.inPlaceFor]

theorem swapPlaces_faultless {args : List Operand} (h : ∀ a ∈ args, a.Faultless) :
    Faultless (swapPlaces symbols args) := by
  unfold swapPlaces
  split
  next first second =>
    obtain ⟨hpush, hinner⟩ := h first (by simp)
    obtain ⟨hpush', hinner'⟩ := h second (by simp)
    refine .check rfl (.check rfl (Expr.needType_faultless.bind fun t =>
      Expr.needType_faultless.bind fun u => .check rfl (.check rfl ?_)))
    grind
  next => grind

theorem checkArguments_faultless {b : Builtin} {args : List Operand} :
    Faultless (checkArguments symbols b args) := by
  refine .check rfl (.forM fun x _ => ?_)
  grind [checkArgument]

theorem checkedCall_faultless {b : Builtin} {args : List Operand} (h : ∀ a ∈ args, a.Faultless) :
    Faultless (checkedCall symbols b args) := by
  unfold checkedCall
  split
  case h_6 => exact shiftInPlace_faultless (h _ List.mem_cons_self)
  case h_7 | h_8 => grind
  all_goals
    have harg := h _ List.mem_cons_self
    have hpush := harg.push
    grind [elementCount, average, absolute, highByte]

theorem builtinCall_faultless {b : Builtin} {args : List Operand} (h : ∀ a ∈ args, a.Faultless) :
    Faultless (builtinCall symbols b args) := by
  unfold builtinCall
  split
  · exact swapPlaces_faultless h
  · exact checkArguments_faultless.bind fun _ => checkedCall_faultless h

/-! ## Expressions -/

theorem unaryCode_faultless {op : UnaryOp} {o : Operand} (h : o.Faultless) :
    Faultless (unaryCode symbols op o) := by
  have hpush := h.push
  grind [unaryCode]

theorem castCode_faultless {o : Operand} {t : DataType} (h : o.Faultless) :
    Faultless (castCode symbols o t) := by
  have hpush := h.push
  grind [castCode]

theorem binaryCode_faultless {op : BinaryOp} {left right : Operand} (hl : left.Faultless)
    (hr : right.Faultless) : Faultless (binaryCode symbols op left right) := by
  have hpush := hl.push
  have hpush' := hr.push
  cases op with
  | shift op =>
    have hstep : ∀ t, Faultless (Opcode.shiftStepFor op t) := fun _ => orInvalid_faultless
    have hamount : Faultless (shiftAmount symbols op right.expr) := by grind [shiftAmount]
    grind [binaryCode, shiftCode]
  | _ =>
    refine Expr.needType_faultless.bind fun t => Expr.needType_faultless.bind fun u =>
      common_faultless.bind fun (common, _) => orInvalid_faultless.bind fun opcode => ?_
    grind

theorem callCode_faultless {target : String} {args : List Operand} (h : ∀ a ∈ args, a.Faultless) :
    Faultless (callCode symbols target args) := by
  have hsubroutine : ∀ s, Faultless (subroutineCall symbols s args) := fun s =>
    subroutineCall_faultless h
  have hbuiltin : ∀ b, Faultless (builtinCall symbols b args) := fun b => builtinCall_faultless h
  grind [callCode]

mutual

theorem Expr.operand_faultless : ∀ e : Expr, (e.operand symbols).Faultless
  | .number _ => ⟨.ok _, .ok _⟩
  | .register _ => ⟨.ok _, .ok _⟩
  | .unary _ e => ⟨unaryCode_faultless (operand_faultless e), .ok _⟩
  | .binary left _ right =>
    ⟨binaryCode_faultless (operand_faultless left) (operand_faultless right), .ok _⟩
  | .call _ args => ⟨callCode_faultless (operands_faultless args), .ok _⟩
  | .var _ => ⟨readVar_faultless, .ok _⟩
  | .element _ index =>
    ⟨readElement_faultless (operand_faultless index).push, (operand_faultless index).push⟩
  | .cast e _ => ⟨castCode_faultless (operand_faultless e), .ok _⟩
  | .memory address =>
    ⟨readMemory_faultless (operand_faultless address).push, (operand_faultless address).push⟩
  | .addressOf _ => ⟨readAddress_faultless, .ok _⟩
  | .range _ _ _ => ⟨.error rfl, .ok _⟩
  | .structLiteral _ => ⟨.error rfl, .ok _⟩

theorem Expr.operands_faultless : ∀ es : List Expr, ∀ o ∈ operands symbols es, o.Faultless
  | [], o, ho => by cases ho
  | e :: es, o, ho => by
    rw [operands, List.mem_cons] at ho
    rcases ho with rfl | ho
    · exact operand_faultless e
    · exact operands_faultless es o ho

end

theorem Expr.code_faultless (e : Expr) : (e.code symbols).Faultless := e.operand_faultless.push

theorem Place.inner_faultless (p : Place) : (p.inner symbols).Faultless :=
  (Expr.operand_faultless _).inner

theorem assignCode_faultless {p : Place} {value : Expr} : Faultless (assignCode symbols p value) :=
  Operand.assign_faultless (Expr.operand_faultless value) p.inner_faultless

theorem structAssignCode_faultless {p : Place} {values : List Expr} :
    Faultless (structAssignCode symbols p values) := by
  unfold structAssignCode
  split
  · split
    · exact .check rfl (.bind (.mapM fun _ _ => assignCode_faultless) fun _ => .pure _)
    · exact .throw rfl
  · exact .throw rfl

theorem callStatementCode_faultless {target : String} {args : List Expr} :
    Faultless (callStatementCode symbols target args) := by
  have hdiscard : ∀ t, Faultless (Opcode.discardFor t) := fun _ => orInvalid_faultless
  have hsubroutine : ∀ s, Faultless (subroutineCall symbols s (Expr.operands symbols args)) :=
    fun _ => subroutineCall_faultless (Expr.operands_faultless args)
  have hbuiltin : ∀ b, Faultless (builtinCall symbols b (Expr.operands symbols args)) :=
    fun _ => builtinCall_faultless (Expr.operands_faultless args)
  unfold callStatementCode
  split
  · exact (hsubroutine _).bind fun _ => .bind (.mapM fun _ _ => hdiscard _) fun _ => .pure _
  · exact .pure _
  · exact .throw rfl
  · split
    · exact .throw rfl
    · exact .bind (.option_mapM fun _ => Expr.needType_faultless) fun _ => (hbuiltin _).bind fun _ =>
        .bind (.option_mapM fun _ => hdiscard _) fun _ => .pure _

/-! ## Statements -/

variable {env : Environment}

theorem jumpInstruction_sinkFree {op : Opcode} {target : JumpTarget} :
    SinkFree (env.jumpInstruction op target) := by
  unfold Environment.jumpInstruction
  split
  · split
    · exact .error (by simp)
    · exact .ok _
  · exact .ok _
  · split
    · exact .ok _
    · exact .ok _
    · exact .error (by simp)

/-- A jump on a status flag must not go to an address. -/
theorem jumpInstruction_faultless {op : Opcode} {target : JumpTarget}
    (h : op.isBranch → ∀ address, target ≠ .address address) :
    Faultless (env.jumpInstruction op target) := by
  cases target with
  | address address =>
    have hop : op.isBranch = false := by
      cases hop : op.isBranch with
      | false => rfl
      | true => exact absurd rfl (h hop address)
    simp only [Environment.jumpInstruction, hop, Bool.false_eq_true, if_false]
    exact .ok _
  | named name => grind [Environment.jumpInstruction]
  | generated label => exact .ok _

theorem choiceValues_faultless {t : IntType} {values : List Expr} :
    Faultless (choiceValues symbols t values) :=
  .mapM fun _ _ => by grind

theorem Counter.find_faultless {register : Option Register} {variableName : Option String} :
    Faultless (Counter.find symbols register variableName) := by
  cases register <;> cases variableName <;> grind [Counter.find]

theorem ConstantRange.check_faultless {r : ConstantRange} {t : DataType} : Faultless (r.check t) := by
  grind [ConstantRange.check]

theorem ConstantRange.stepCode_faultless {r : ConstantRange} {t : IntType} {counter : String} :
    Faultless (r.stepCode t counter) := by
  grind [ConstantRange.stepCode]

theorem variableStep_faultless {step : Expr} : Faultless (variableStep symbols step) := by
  grind [variableStep]

theorem ElementRange.find_faultless {name : String} : Faultless (ElementRange.find symbols name) := by
  grind [ElementRange.find]

theorem ElementRange.fetchCode_faultless {r : ElementRange} {index : String} {counter : Counter}
    {t : DataType} : Faultless (r.fetchCode symbols index counter t) := by
  have hinner : Faultless (counter.place.inner symbols) := counter.place.inner_faultless
  grind [ElementRange.fetchCode, Opcode.readIndexedFor]

theorem fileArgument_faultless {directive : String} {args : List DirectiveArg} {i : Nat} :
    Faultless (Environment.fileArgument directive args i) := by
  grind [Environment.fileArgument]

theorem wordArgument_faultless {directive : String} {args : List DirectiveArg} {i : Nat} :
    Faultless (Environment.wordArgument directive args i) := by
  grind [Environment.wordArgument]

theorem includeScope_faultless {args : List DirectiveArg} :
    Faultless (Environment.includeScope args) := by
  grind [Environment.includeScope]

end StackCode
