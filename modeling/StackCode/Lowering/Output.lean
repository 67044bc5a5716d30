/-
The output of lowering: a sink, and a count that makes generated labels distinct.
-/
import StackCode.LowerError

namespace StackCode

/-- What has been written so far. -/
structure Output where
  sink : Sink
  /-- The number of labels generated so far. -/
  generated : Nat := 0

/-- Steps that write, and may end the lowering. -/
abbrev Writer := StateT Output (Except LowerError)

/-- An operation on the sink. -/
def perform {α : Type} (op : SinkM α) : Writer α := fun out =>
  match op.run out.sink with
  | (.ok a, sink) => .ok (a, { out with sink })
  | (.error e, _) => .error (.sink e)

/-- Writes instructions. -/
def emit (code : List Instruction) : Writer Unit := perform (code.forM Sink.instruction)

/-- Writes the instructions of a part that was lowered by itself. -/
def emitLowered (code : Except LowerError (List Instruction)) : Writer Unit := do emit (← code)

/-- Defines a label at the current place. -/
def placeLabel (name : String) : Writer Unit := perform (Sink.label name false)

/-- The label with the given number and purpose. -/
def labelName (scope suffix : String) (number : Nat) : String :=
  s!"{scope}.<s-{number}-{suffix}>"

/-- A label that has not been generated before. -/
def freshLabel (scope suffix : String) : Writer String := fun out =>
  let number := out.generated + 1
  .ok (labelName scope suffix number, { out with generated := number })

end StackCode
