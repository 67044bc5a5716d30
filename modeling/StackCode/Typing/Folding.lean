/-
Constants: the value that an expression has whatever the program does.

Integer operations give the low bits of the result, at the width of the common
type of the operands. An operation that has no value, such as a division by zero,
is left for the running program.
-/
import StackCode.Symbols.Table
import StackCode.Typing.Join

namespace StackCode

/-- One for true and zero for false. -/
def Value.ofBool (b : Bool) : Value := .wrapped .ubyte (if b then 1 else 0)

/-! ## Operators on values -/

/-- The value of an operator before a value. -/
def UnaryOp.fold? : UnaryOp → Value → Option Value
  | .plus, v => some v
  | .minus, .float x => some (.float (-x))
  | .minus, .int t n _ => if t.isSigned then some (.wrapped t (-n)) else none
  | .invert, .int t n _ => some (.wrapped t (-n - 1))
  | .not, .int t n _ => some (.wrapped t (if n = 0 then 1 else 0))
  | _, .float _ => none

def Comparison.ofInts : Comparison → Int → Int → Bool
  | .less, m, n => m < n
  | .greater, m, n => m > n
  | .lessEq, m, n => m ≤ n
  | .greaterEq, m, n => m ≥ n
  | .equal, m, n => m = n
  | .notEqual, m, n => m ≠ n

def Comparison.ofFloats : Comparison → Float → Float → Bool
  | .less, x, y => x < y
  | .greater, x, y => x > y
  | .lessEq, x, y => x ≤ y
  | .greaterEq, x, y => x ≥ y
  | .equal, x, y => x == y
  | .notEqual, x, y => x != y

/-- Comparison by the numbers alone: the types need not agree. -/
def Comparison.holds (op : Comparison) : Value → Value → Bool
  | .int _ m _, .int _ n _ => op.ofInts m n
  | v, w => op.ofFloats v.toFloat w.toFloat

def Connective.holds : Connective → Bool → Bool → Bool
  | .and, a, b => a && b
  | .or, a, b => a || b
  | .xor, a, b => a != b

/-- The shift of `n` by an amount. -/
def Shift.apply : Shift → Int → Nat → Int
  | .left, n, amount => n <<< amount
  | .right, n, amount => n >>> amount

/-- A shift keeps the type of what is shifted. The amount is less than the bits of a word. -/
def Shift.fold? (op : Shift) : Value → Value → Option Value
  | .int t n _, .int _ amount _ =>
    if 0 ≤ amount ∧ amount < 16 then some (.wrapped t (op.apply n amount.toNat)) else none
  | _, _ => none

/-- A bitwise operation on the low 16 bits, which are all that a word keeps. -/
def onBits (f : BitVec 16 → BitVec 16 → BitVec 16) (m n : Int) : Int :=
  (f (.ofInt 16 m) (.ofInt 16 n)).toInt

/-- The exact result of integer arithmetic in a type. Division cuts off towards zero; a remainder is
for unsigned integers only. -/
def Arithmetic.ofInts? (op : Arithmetic) (t : IntType) (m n : Int) : Option Int :=
  match op with
  | .add => some (m + n)
  | .sub => some (m - n)
  | .mul => some (m * n)
  | .div => if n = 0 then none else some (m.tdiv n)
  | .remainder => if n = 0 ∨ t.isSigned then none else some (m.tmod n)
  | .pow => none
  | .bitAnd => some (onBits (· &&& ·) m n)
  | .bitOr => some (onBits (· ||| ·) m n)
  | .bitXor => some (onBits (· ^^^ ·) m n)

def Arithmetic.ofFloats? : Arithmetic → Float → Float → Option Float
  | .add, x, y => some (x + y)
  | .sub, x, y => some (x - y)
  | .mul, x, y => some (x * y)
  | .div, x, y => if y == 0.0 then none else some (x / y)
  | .pow, x, y => some (x ^ y)
  | _, _, _ => none

/-- Arithmetic in the common type of the operands. -/
def Arithmetic.fold? (op : Arithmetic) : Value → Value → Option Value
  | .int t m _, .int u n _ =>
    let common := IntType.of (t.size.max u.size) (t.isSigned || u.isSigned)
    (op.ofInts? common m n).map (.wrapped common)
  | v, w => (op.ofFloats? v.toFloat w.toFloat).map .float

/-- The value of an operator between two values. -/
def BinaryOp.fold? : BinaryOp → Value → Value → Option Value
  | .arithmetic op, v, w => op.fold? v w
  | .connective op, v, w => some (.ofBool (op.holds v.isTrue w.isTrue))
  | .comparison op, v, w => some (.ofBool (op.holds v w))
  | .shift op, v, w => op.fold? v w

/-! ## Expressions -/

/-- The function whose value is the declared length of an array. -/
def lengthFunction : String := "len"

/-- The length of an array variable. A string has none of its own. -/
def SymbolTable.arrayLength? (symbols : SymbolTable) (name : String) : Option Value := do
  let info ← symbols.var? name
  guard info.type.isArray
  (Value.ofIntSmallest (← info.length).toNat).toOption

namespace Expr

/-- The value of a call that can be told from the declarations. -/
def callConstant? (symbols : SymbolTable) (target : String) : List Expr → Option Value
  | [var name] => if target = lengthFunction then symbols.arrayLength? name else none
  | _ => none

/-- The value of a constant expression. -/
def constant? (symbols : SymbolTable) : Expr → Option Value
  | number v => some v
  | cast operand type => do (← constant? symbols operand).cast type |>.toOption
  | unary op operand => do op.fold? (← constant? symbols operand)
  | binary left op right => do op.fold? (← constant? symbols left) (← constant? symbols right)
  | call target args => callConstant? symbols target args
  | _ => none

/-- The integer that a constant expression stands for. -/
def constantInt? (symbols : SymbolTable) (e : Expr) : Option Int :=
  (e.constant? symbols).bind (·.int?)

end Expr
end StackCode
