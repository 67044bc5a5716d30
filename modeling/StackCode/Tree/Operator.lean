/-
The operators of expressions and statements.

A binary operator belongs to one of four families, and the family decides the type
of the result: arithmetic works in a type that both operands have been brought to,
a comparison or a connective answers with a ubyte, and a shift keeps the type of
what is shifted.
-/
namespace StackCode

/-- An operator before its operand. -/
inductive UnaryOp where
  | plus
  | minus
  | invert
  | not
deriving DecidableEq, Repr

namespace UnaryOp

def all : List UnaryOp := [plus, minus, invert, not]

def symbol : UnaryOp → String
  | plus => "+"
  | minus => "-"
  | invert => "~"
  | not => "not"

def nodeName : UnaryOp → String
  | plus => "Plus"
  | minus => "Minus"
  | invert => "Invert"
  | not => "Not"

end UnaryOp

/-- An operation on two numbers of one type. -/
inductive Arithmetic where
  | add
  | sub
  | mul
  | div
  | remainder
  | pow
  | bitAnd
  | bitOr
  | bitXor
deriving DecidableEq, Repr

/-- An operation on two truth values. -/
inductive Connective where
  | and
  | or
  | xor
deriving DecidableEq, Repr

/-- A question about the order of two numbers. -/
inductive Comparison where
  | less
  | greater
  | lessEq
  | greaterEq
  | equal
  | notEqual
deriving DecidableEq, Repr

/-- A shift of the left operand by the right one. -/
inductive Shift where
  | left
  | right
deriving DecidableEq, Repr

/-- An operator between two operands. -/
inductive BinaryOp where
  | arithmetic (op : Arithmetic)
  | connective (op : Connective)
  | comparison (op : Comparison)
  | shift (op : Shift)
deriving DecidableEq, Repr

namespace BinaryOp

def all : List BinaryOp :=
  [.add, .sub, .mul, .div, .remainder, .pow, .bitAnd, .bitOr, .bitXor].map arithmetic ++
    [.and, .or, .xor].map connective ++
    [.less, .greater, .lessEq, .greaterEq, .equal, .notEqual].map comparison ++
    [.left, .right].map shift

def symbol : BinaryOp → String
  | arithmetic .add => "+"
  | arithmetic .sub => "-"
  | arithmetic .mul => "*"
  | arithmetic .div => "/"
  | arithmetic .remainder => "%"
  | arithmetic .pow => "**"
  | arithmetic .bitAnd => "&"
  | arithmetic .bitOr => "|"
  | arithmetic .bitXor => "^"
  | connective .and => "and"
  | connective .or => "or"
  | connective .xor => "xor"
  | comparison .less => "<"
  | comparison .greater => ">"
  | comparison .lessEq => "<="
  | comparison .greaterEq => ">="
  | comparison .equal => "=="
  | comparison .notEqual => "!="
  | shift .left => "<<"
  | shift .right => ">>"

instance : ToString BinaryOp := ⟨symbol⟩

def nodeName : BinaryOp → String
  | arithmetic .add => "Add"
  | arithmetic .sub => "Sub"
  | arithmetic .mul => "Mul"
  | arithmetic .div => "Div"
  | arithmetic .remainder => "Remainder"
  | arithmetic .pow => "Pow"
  | arithmetic .bitAnd => "BitAnd"
  | arithmetic .bitOr => "BitOr"
  | arithmetic .bitXor => "BitXor"
  | connective .and => "And"
  | connective .or => "Or"
  | connective .xor => "Xor"
  | comparison .less => "Less"
  | comparison .greater => "Greater"
  | comparison .lessEq => "LessEq"
  | comparison .greaterEq => "GreaterEq"
  | comparison .equal => "Equal"
  | comparison .notEqual => "NotEqual"
  | shift .left => "ShiftLeft"
  | shift .right => "ShiftRight"

end BinaryOp

/-- A step of a counter by one. -/
inductive Increment where
  | up
  | down
deriving DecidableEq, Repr

namespace Increment

def all : List Increment := [up, down]

def symbol : Increment → String
  | up => "++"
  | down => "--"

end Increment
end StackCode
