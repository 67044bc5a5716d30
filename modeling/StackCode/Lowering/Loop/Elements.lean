/-
Loops over the elements of arrays and strings, which count in an index of their own.
-/
import StackCode.Lowering.Loop.Frame

namespace StackCode

/-- What a loop over the elements of a variable needs to know of it. -/
structure ElementRange where
  name : String
  type : DataType
  element : NumType
  /-- The number of elements, which is not zero. -/
  length : UInt16

namespace ElementRange

def find (symbols : SymbolTable) (name : String) : Lowered ElementRange := do
  let info ← symbols.needVar name
  let element ← orInvalid "for loop iterable" info.type info.type.element?
  match info.length with
  | some length =>
    if length = 0 then throw (.malformed (.loopWithoutElements name))
    return { name, type := info.type, element, length }
  | none => throw (.malformed (.loopWithoutElements name))

/-- The smallest type that counts up to the length. -/
def indexType (r : ElementRange) : IntType := if r.length ≤ 255 then .ubyte else .uword

def initCode (r : ElementRange) (index : String) : Code :=
  (Value.wrapped r.indexType 0).push ++ [(Opcode.popVar (.int r.indexType.size)).named index]

/-- Stores the current element in the counter. -/
def fetchCode (r : ElementRange) (symbols : SymbolTable) (index : String) (counter : Counter)
    (t : DataType) : Lowered Code := do
  let read ← Opcode.readIndexedFor r.type
  let widening ← (DataType.num r.element).widening t
  let store ← counter.place.write symbols (counter.place.inner symbols)
  return [(Opcode.pushVar (.int r.indexType.size)).named index, read.named r.name] ++
    (widening.map Opcode.plain).toList ++ store

/-- Steps the index, and goes back to the start unless it has come to the length. -/
def stepCode (r : ElementRange) (index start : String) : Code :=
  [(Opcode.stepVar .up (.int r.indexType)).named index,
    (Opcode.pushVar (.int r.indexType.size)).named index,
    (Opcode.compare r.indexType).given (.wrapped r.indexType r.length.toNat),
    (Opcode.branch .notZero).named start]

end ElementRange

/-- The loop over the elements of an array or a string. It has an index variable of its own. -/
def elementLoop (symbols : SymbolTable) (array : String) (counter : Counter) (t : DataType)
    (scope : String) (body : LoopBody) : Writer Unit := do
  if let .register .x := counter then throw (.malformed .loopInX)
  let r ← ElementRange.find symbols array
  let index ← freshLabel scope "forloop_index"
  perform (Sink.declare index (.int r.indexType) .plain none)
  let frame ← freshFrame scope
  emit (r.initCode index)
  placeLabel frame.start
  emitLowered (r.fetchCode symbols index counter t)
  body frame.labels
  placeLabel frame.next
  emit (r.stepCode index frame.start)
  closeAt frame.leave

end StackCode
