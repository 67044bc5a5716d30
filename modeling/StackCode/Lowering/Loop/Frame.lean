/-
What all loops have: a counter, a body, and labels at the start, where a round ends, and
behind the loop.
-/
import StackCode.Lowering.Simple

namespace StackCode

/-- What a loop counts in. -/
inductive Counter where
  | register (r : Register)
  | var (name : String)

namespace Counter

/-- The name in instructions. -/
def name : Counter → String
  | register r => r.name
  | var name => name

def place : Counter → Place
  | register r => .register r
  | var name => .var name

/-- The counter of a loop and its type. A register counts in bytes. -/
def find (symbols : SymbolTable) : Option Register → Option String → Lowered (Counter × DataType)
  | some r, _ => .ok (register r, .ubyte)
  | none, some name => do return (var name, (← symbols.needVar name).type)
  | none, none => .error (.malformed .loopWithoutCounter)

end Counter

/-- The labels of a loop. -/
structure LoopFrame where
  start : String
  next : String
  leave : String

def LoopFrame.labels (f : LoopFrame) : LoopLabels where
  leave := f.leave
  next := f.next

def freshFrame (scope : String) : Writer LoopFrame := do
  let start ← freshLabel scope "loop"
  let next ← freshLabel scope "continue"
  let leave ← freshLabel scope "break"
  return { start, next, leave }

/-- The end of a construct: a label with an instruction to stand before. -/
def closeAt (label : String) : Writer Unit := do
  placeLabel label
  emit [Opcode.nop.plain]

/-- What a loop lowers as its body, once its labels are known. -/
abbrev LoopBody := LoopLabels → Writer Unit

end StackCode
