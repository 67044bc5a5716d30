/-
Loops over ranges.

With three constants all is known beforehand: the range is checked, and the loop tests
its counter behind the body. Otherwise the bounds are evaluated when the loop runs, and
the counter is tested before each round.
-/
import StackCode.Lowering.Loop.Frame

namespace StackCode

/-- A range from the first value to the last one, in steps of a constant size. -/
structure ConstantRange where
  first : Int
  last : Int
  step : Int

namespace ConstantRange

/-- The range, if all three numbers are constants. -/
def ofExprs? (symbols : SymbolTable) (first last step : Expr) : Option ConstantRange := do
  some {
    first := ← first.constantInt? symbols
    last := ← last.constantInt? symbols
    step := ← step.constantInt? symbols }

/-- Checks that the range has several values, that the steps lead exactly to the last one, and that
the counter can hold them all. -/
def check (r : ConstantRange) (t : DataType) : Lowered IntType := do
  if r.step = 0 ∨ (0 < r.step ∧ r.last < r.first) ∨ (r.step < 0 ∧ r.first < r.last) then
    throw (.malformed (.emptyRange r.first r.last r.step))
  if r.first = r.last then throw (.malformed (.singleValueRange r.first))
  if (r.last - r.first).tmod r.step ≠ 0 then
    throw (.malformed (.inexactRange r.first r.last r.step))
  let counter ← orInvalid "for loop counter" t t.int?
  if ¬ counter.Holds r.first ∨ ¬ counter.Holds r.last then
    throw (.loopRange r.first r.last t)
  return counter

/-- Steps up to this size are made of single increments or decrements. -/
def maxUnrolled : Nat := 8

/-- Adds the step to the counter. -/
def stepCode (r : ConstantRange) (t : IntType) (counter : String) : Lowered Code :=
  if r.step.natAbs ≤ maxUnrolled then
    let op : Increment := if 0 < r.step then .up else .down
    .ok (List.replicate r.step.natAbs ((Opcode.stepVar op (.int t)).named counter))
  else
    match Value.ofInt r.step.natAbs (.int t) with
    | .error e => .error (.value e)
    | .ok amount =>
      let op := if 0 < r.step then Opcode.add (.int t) else Opcode.sub (.int t)
      let size : Size := .int t.size
      .ok ([(Opcode.pushVar size).named counter] ++ amount.push ++
        [op.plain, (Opcode.popVar size).named counter])

/-- Goes back to the start unless the last value has been reached. A count that ends at zero looks at
the sign of the counter; any other compares the counter with the value behind the last one, which
may have wrapped around. -/
def testCode (r : ConstantRange) (t : IntType) (counter start : String) : Code :=
  if r.last = 0 then
    let test : FlagTest := if 0 < r.first then .positive else .negative
    [(Opcode.branch test).named start]
  else
    [(Opcode.pushVar (.int t.size)).named counter,
      (Opcode.compare t).given (.wrapped t (r.last + r.step)), (Opcode.branch .notZero).named start]

/-- Sets the counter to the first value. -/
def initCode (r : ConstantRange) (t : IntType) (counter : String) : Code :=
  (Value.wrapped t r.first).push ++ [(Opcode.popVar (.int t.size)).named counter]

end ConstantRange

/-- The loop over a constant range. -/
def constantLoop (r : ConstantRange) (counter : Counter) (t : DataType) (scope : String)
    (body : LoopBody) : Writer Unit := do
  let t ← r.check t
  let frame ← freshFrame scope
  emit (r.initCode t counter.name)
  placeLabel frame.start
  body frame.labels
  placeLabel frame.next
  emitLowered (r.stepCode t counter.name)
  emit (r.testCode t counter.name frame.start)
  closeAt frame.leave

/-! ## Bounds that are not constant -/

/-- The step of a range with bounds that are not constant: one up or one down. -/
def variableStep (symbols : SymbolTable) (step : Expr) : Lowered Increment :=
  match step.constantInt? symbols with
  | some 1 => .ok .up
  | some (-1) => .ok .down
  | some n => .error (.unsupported (.rangeStep n))
  | none => .error (.unsupported .variableRangeStep)

/-- The comparison that tells that a counter is past the last value. -/
def Increment.pastLast : Increment → Comparison
  | up => .greater
  | down => .less

/-- The loop over a range with bounds that are not constant. The counter is checked before each
round. A counter that steps to zero has wrapped around, which ends the loop. -/
def variableLoop (env : Environment) (first last step : Expr) (counter : Counter) (t : DataType)
    (scope : String) (position : Position) (body : LoopBody) : Writer Unit := do
  let symbols := env.symbols
  let op ← variableStep symbols step
  let goOn ← Opcode.jumpNonzeroFor t
  emitLowered (assignCode symbols counter.place first)
  let frame ← freshFrame scope
  placeLabel frame.start
  let isPast := Expr.binary counter.place.read (.comparison op.pastLast) last
  env.mark position
  let conditionType ← isPast.needType symbols
  emitLowered (isPast.code symbols)
  env.jump (← Opcode.jumpNonzeroFor conditionType) (.generated frame.leave) position
  body frame.labels
  placeLabel frame.next
  emitLowered (counter.place.step symbols op (counter.place.inner symbols))
  emitLowered (counter.place.read.code symbols)
  emit [goOn.named frame.start]
  closeAt frame.leave

end StackCode
