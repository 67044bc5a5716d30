/-
The common type of two numeric types: the wider size wins, and the result is
signed if one of the two is.
-/
import StackCode.DataType.Basic

namespace StackCode

/-- The integer type of a size and a signedness. -/
def IntType.of : IntSize → Bool → IntType
  | .byte, false => .ubyte
  | .byte, true => .byte
  | .word, false => .uword
  | .word, true => .word

/-- The size that holds integers of both sizes. -/
def IntSize.max : IntSize → IntSize → IntSize
  | .byte, .byte => .byte
  | _, _ => .word

/-- The type that both operands of an operator are brought to. -/
def NumType.join : NumType → NumType → NumType
  | .int t, .int u => .int (.of (t.size.max u.size) (t.isSigned || u.isSigned))
  | _, _ => .float

end StackCode
