/-
Counting loops that are lowered in 64 bits. The check of a constant range, the size of its steps
and the value behind its last one are computed as the compiler does, behind the checks that stand
in front of them. Nothing fails, because the bounds and the step are integers of constants.
-/
import StackCode.Proofs.Arithmetic.Long
import StackCode.Proofs.Lowering.Output
import StackCode.Lowering.Loop.Basic

namespace StackCode

/-! ## Lowering in 64 bits -/

/-- Steps that write, and compute in 64 bits. -/
abbrev LongWriter := StateT Output (ExceptT LowerError Checked)

/-- What was lowered without a fault. -/
def lowered {α : Type} (x : Lowered α) : ExceptT LowerError Checked α := ExceptT.mk (.ok x)

/-- Steps that compute nothing. -/
def Writer.long {α : Type} (w : Writer α) : LongWriter α := fun out => lowered (w out)

namespace ConstantRange

/-- The range, if all three numbers are constants. All of them are computed. -/
def longOfExprs? (symbols : SymbolTable) (first last step : Expr) : Checked (Option ConstantRange) := do
  let first ← (first.longConstant? symbols).run
  let last ← (last.longConstant? symbols).run
  let step ← (step.longConstant? symbols).run
  return do
    some { first := ← first.bind (·.int?), last := ← last.bind (·.int?), step := ← step.bind (·.int?) }

/-- The check of a range. The distance of its bounds is divided by the step. -/
def longCheck (r : ConstantRange) (t : DataType) : ExceptT LowerError Checked IntType := do
  if r.step = 0 ∨ (0 < r.step ∧ r.last < r.first) ∨ (r.step < 0 ∧ r.first < r.last) then
    throw (.malformed (.emptyRange r.first r.last r.step))
  if r.first = r.last then throw (.malformed (.singleValueRange r.first))
  let distance ← Long.sub r.last r.first
  let rest ← Long.rem distance r.step
  if rest ≠ 0 then throw (.malformed (.inexactRange r.first r.last r.step))
  let counter ← lowered (orInvalid "for loop counter" t t.int?)
  if ¬ counter.Holds r.first ∨ ¬ counter.Holds r.last then
    throw (.loopRange r.first r.last t)
  return counter

/-- Adds the step to the counter. -/
def longStepCode (r : ConstantRange) (t : IntType) (counter : String) : ExceptT LowerError Checked Code :=
  if 0 < r.step ∧ r.step ≤ maxUnrolled then
    return List.replicate r.step.toNat ((Opcode.stepVar .up (.int t)).named counter)
  else if -maxUnrolled ≤ r.step ∧ r.step < 0 then do
    let count ← Long.neg r.step
    return List.replicate count.toNat ((Opcode.stepVar .down (.int t)).named counter)
  else do
    match Value.ofInt (← Long.abs r.step) (.int t) with
    | .error e => throw (.value e)
    | .ok amount =>
      let op := if 0 < r.step then Opcode.add (.int t) else Opcode.sub (.int t)
      let size : Size := .int t.size
      return [(Opcode.pushVar size).named counter] ++ amount.push ++
        [op.plain, (Opcode.popVar size).named counter]

/-- Goes back to the start unless the last value has been reached. The value behind the last one is
computed if the count does not end at zero. -/
def longTestCode (r : ConstantRange) (t : IntType) (counter start : String) : Checked Code :=
  if r.last = 0 then return r.testCode t counter start
  else do
    let behind ← Long.add r.last r.step
    return [(Opcode.pushVar (.int t.size)).named counter,
      (Opcode.compare t).given (.wrapped t behind), (Opcode.branch .notZero).named start]

end ConstantRange

/-- The loop over a constant range. -/
def longConstantLoop (r : ConstantRange) (counter : Counter) (t : DataType) (scope : String)
    (body : LoopBody) : LongWriter Unit := do
  let t ← r.longCheck t
  let frame ← (freshFrame scope).long
  (emit (r.initCode t counter.name)).long
  (placeLabel frame.start).long
  (body frame.labels).long
  (placeLabel frame.next).long
  (emit (← r.longStepCode t counter.name)).long
  (emit (← r.longTestCode t counter.name frame.start)).long
  (closeAt frame.leave).long

/-- The loop over a range or over the elements of a variable. -/
def longForLoop (env : Environment) (register : Option Register) (variableName : Option String)
    (iterable : Expr) (scope : String) (position : Position) (body : LoopBody) : LongWriter Unit := do
  (env.mark position).long
  let (counter, t) ← lowered (Counter.find env.symbols register variableName)
  match iterable with
  | .range first last step =>
    match ← ConstantRange.longOfExprs? env.symbols first last step with
    | some r => longConstantLoop r counter t scope body
    | none => (variableLoop env first last step counter t scope position body).long
  | .var name => (elementLoop env.symbols name counter t scope body).long
  | e => throw (.malformed (.loopOver e))

/-! ## Nothing fails -/

theorem lift_ok {α : Type} (a : α) :
    (liftM (Except.ok a : Checked α) : ExceptT LowerError Checked α) = pure a :=
  rfl

/-- The bounds and the step are no greater than the integers of values. -/
structure ConstantRange.IsSmall (r : ConstantRange) : Prop where
  first : StackCode.IsSmall r.first
  last : StackCode.IsSmall r.last
  step : StackCode.IsSmall r.step

namespace ConstantRange

variable {r : ConstantRange} {symbols : SymbolTable} {first last step : Expr}

theorem isSmall_of_ofExprs? (h : ofExprs? symbols first last step = some r) : r.IsSmall := by
  unfold ofExprs? at h
  simp only [Option.bind_eq_bind, Option.bind_eq_some_iff, Option.some.injEq] at h
  obtain ⟨m, hm, n, hn, k, hk, rfl⟩ := h
  exact ⟨Expr.isSmall_constantInt? hm, Expr.isSmall_constantInt? hn, Expr.isSmall_constantInt? hk⟩

theorem longOfExprs?_eq (symbols : SymbolTable) (first last step : Expr) :
    longOfExprs? symbols first last step = .ok (ofExprs? symbols first last step) := by
  unfold longOfExprs?
  rw [Expr.longConstant?_eq, Expr.longConstant?_eq, Expr.longConstant?_eq]
  rfl

theorem longCheck_eq (hr : r.IsSmall) (t : DataType) : r.longCheck t = lowered (r.check t) := by
  unfold longCheck check
  by_cases hempty : r.step = 0 ∨ (0 < r.step ∧ r.last < r.first) ∨ (r.step < 0 ∧ r.first < r.last)
  · rw [if_pos hempty, if_pos hempty]
    rfl
  rw [if_neg hempty, if_neg hempty]
  by_cases hsingle : r.first = r.last
  · rw [if_pos hsingle, if_pos hsingle]
    rfl
  rw [if_neg hsingle, if_neg hsingle]
  have hdistance : (r.last - r.first).natAbs < Long.modulus / 2 := by
    have hfirst := hr.first
    have hlast := hr.last
    unfold StackCode.IsSmall at hfirst hlast
    exact Long.lt_half (by omega)
  -- The first check keeps the step from being zero, so the remainder can be taken.
  have hstep : r.step ≠ 0 := fun h => hempty (.inl h)
  simp only [Long.sub_small hr.last hr.first, Long.rem_eq hdistance hstep, lift_ok, pure_bind]
  by_cases hrest : (r.last - r.first).tmod r.step ≠ 0
  · rw [if_pos hrest, if_pos hrest]
    rfl
  rw [if_neg hrest, if_neg hrest]
  cases orInvalid "for loop counter" t t.int? with
  | error e => rfl
  | ok counter =>
    change (if _ then _ else _) = lowered (if _ then _ else _)
    split <;> rfl

theorem longStepCode_eq (hr : r.IsSmall) (hstep : r.step ≠ 0) (t : IntType) (counter : String) :
    r.longStepCode t counter = lowered (r.stepCode t counter) := by
  have hneg := Long.neg_small hr.step
  have habs := Long.abs_small hr.step
  unfold longStepCode stepCode
  by_cases hup : 0 < r.step ∧ r.step ≤ maxUnrolled
  · have hcount : r.step.toNat = r.step.natAbs := by omega
    rw [if_pos hup, if_pos (by omega), if_pos hup.1, hcount]
    rfl
  rw [if_neg hup]
  by_cases hdown : -maxUnrolled ≤ r.step ∧ r.step < 0
  · have hcount : (-r.step).toNat = r.step.natAbs := by omega
    have hsign : ¬ 0 < r.step := by omega
    simp only [if_pos hdown, if_pos (show r.step.natAbs ≤ maxUnrolled by omega), if_neg hsign, hneg,
      lift_ok, pure_bind, hcount]
    rfl
  · have hlarge : ¬ r.step.natAbs ≤ maxUnrolled := by omega
    simp only [if_neg hdown, if_neg hlarge, habs, lift_ok, pure_bind]
    cases Value.ofInt r.step.natAbs (.int t) <;> rfl

theorem longTestCode_eq (hr : r.IsSmall) (t : IntType) (counter start : String) :
    r.longTestCode t counter start = .ok (r.testCode t counter start) := by
  unfold longTestCode
  split
  next => rfl
  next h =>
    rw [Long.add_small hr.last hr.step, testCode, if_neg h]
    rfl

theorem step_ne_zero {t : DataType} {counter : IntType} (h : r.check t = .ok counter) : r.step ≠ 0 := by
  intro hstep
  rw [check, if_pos (.inl hstep)] at h
  cases h

end ConstantRange

section Steps

variable {α β : Type} {out : Output}

/-- Behind steps that fail nowhere what comes next is computed from what they have come to. -/
theorem long_bind {w : Writer α} {f : α → LongWriter β} {g : α → Writer β}
    (h : ∀ a mid, w out = .ok (a, mid) → f a mid = (g a).long mid) :
    (w.long >>= f) out = (w >>= g).long out := by
  change (lowered (w out) >>= fun p => f p.1 p.2) = lowered (w out >>= fun p => g p.1 p.2)
  cases hw : w out with
  | error e => rfl
  | ok p => exact h p.1 p.2 hw

theorem long_lift (x : Lowered α) : (liftM (lowered x) : LongWriter α) = (liftM x : Writer α).long := by
  cases x <;> rfl

theorem long_lift_ok (a : α) : (liftM (Except.ok a : Checked α) : LongWriter α) = pure a := rfl

end Steps

theorem longConstantLoop_eq {r : ConstantRange} (hr : r.IsSmall) (counter : Counter) (t : DataType)
    (scope : String) (body : LoopBody) :
    longConstantLoop r counter t scope body = (constantLoop r counter t scope body).long := by
  funext out
  unfold longConstantLoop constantLoop
  rw [ConstantRange.longCheck_eq hr, long_lift]
  refine long_bind fun t' mid ht => ?_
  have hstep := ConstantRange.step_ne_zero (Writer.lift_ok_iff.1 ht).1
  simp only [ConstantRange.longStepCode_eq hr hstep, ConstantRange.longTestCode_eq hr, long_lift,
    long_lift_ok, pure_bind, emitLowered, bind_assoc]
  exact long_bind fun frame _ _ => long_bind fun _ _ _ => long_bind fun _ _ _ => long_bind fun _ _ _ =>
    long_bind fun _ _ _ => long_bind fun _ _ _ => long_bind fun _ _ _ => long_bind fun _ _ _ => rfl

theorem longForLoop_eq (env : Environment) (register : Option Register) (variableName : Option String)
    (iterable : Expr) (scope : String) (position : Position) (body : LoopBody) :
    longForLoop env register variableName iterable scope position body =
      (forLoop env register variableName iterable scope position body).long := by
  funext out
  unfold longForLoop forLoop
  rw [long_lift]
  refine long_bind fun _ _ _ => long_bind fun (counter, t) _ _ => ?_
  cases iterable with
  | range first last step =>
    simp only [ConstantRange.longOfExprs?_eq, long_lift_ok, pure_bind]
    cases h : ConstantRange.ofExprs? env.symbols first last step with
    | some r =>
      exact congrFun (longConstantLoop_eq (ConstantRange.isSmall_of_ofExprs? h) counter t scope body) _
    | none => rfl
  | _ => rfl

/-- **What is computed while a program is compiled has room in 64 bits**: in no constant, however it is
nested, and in no loop over a range does an operation overflow, divide by zero or shift too far, and
what comes out is what the exact integers give. -/
theorem computes_in_long (env : Environment) :
    (∀ e : Expr, (e.longConstant? env.symbols).run = .ok (e.constant? env.symbols)) ∧
    ∀ register variableName iterable scope position body out,
      ((longForLoop env register variableName iterable scope position body).run out).run =
        .ok (forLoop env register variableName iterable scope position body out) := by
  refine ⟨fun e => ?_, fun register variableName iterable scope position body out => ?_⟩
  · rw [Expr.longConstant?_eq]
    rfl
  · rw [longForLoop_eq]
    rfl

end StackCode
