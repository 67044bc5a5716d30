/-
Conversions between types. Unasked, a value is only ever widened: byte to word,
and integer to float. A change of sign at one width reads the same bits
differently and takes no code. A cast that the program asks for may also narrow.
-/
import StackCode.Code.Selection
import StackCode.Typing.Join

namespace StackCode

/-- The operand that is narrower than the common type. -/
inductive Widened where
  | neither
  | left
  | right
deriving DecidableEq, Repr

def Widened.name : Widened → String
  | neither => "neither"
  | left => "left"
  | right => "right"

namespace DataType

/-- Both types as numeric types. The left one is checked first. -/
def bothNumeric : DataType → DataType → Except LowerError (NumType × NumType)
  | .num t, .num u => .ok (t, u)
  | .num _, u => .error (.nonNumeric u)
  | t, _ => .error (.nonNumeric t)

/-- The common type of two operands, and the operand that has to be widened to it. -/
def common (t u : DataType) : Except LowerError (NumType × Widened) := do
  let (t, u) ← bothNumeric t u
  let side :=
    if t.rank < u.rank then .left
    else if u.rank < t.rank then .right
    else .neither
  return (t.join u, side)

/-- The opcode that widens a value for a place of another type, if it takes one. -/
def widening (source target : DataType) : Except LowerError (Option Opcode) :=
  if source = target then .ok none
  else do
    let (t, u) ← bothNumeric source target
    if u.rank < t.rank then throw (.narrowing source target)
    else if t.rank = u.rank then return none
    else return Opcode.cast? t u

/-- The opcode of a cast, if it takes one. -/
def castOpcode (source target : DataType) : Except LowerError (Option Opcode) := do
  let (t, u) ← bothNumeric source target
  return Opcode.cast? t u

end DataType
end StackCode
