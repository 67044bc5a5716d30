/-
Expressions of the checked program tree, and the places that a value can be stored
in. All names are fully scoped.
-/
import StackCode.Tree.Operator
import StackCode.Tree.Register
import StackCode.Value

namespace StackCode

inductive Expr where
  | number (value : Value)
  | register (r : Register)
  | unary (op : UnaryOp) (operand : Expr)
  | binary (left : Expr) (op : BinaryOp) (right : Expr)
  | call (target : String) (args : List Expr)
  | var (name : String)
  | element (array : String) (index : Expr)
  | cast (operand : Expr) (type : DataType)
  /-- The byte at an address. -/
  | memory (address : Expr)
  | addressOf (name : String)
  | range (first last step : Expr)
  /-- Values for the members of a struct, in order. -/
  | structLiteral (values : List Expr)

instance : Inhabited Expr := ⟨.structLiteral []⟩

/-- Where a value can be stored. -/
inductive Place where
  | var (name : String)
  | register (r : Register)
  | element (array : String) (index : Expr)
  /-- The byte at an address. -/
  | memory (address : Expr)

/-- The place that an expression reads. -/
def Place.ofExpr? : Expr → Option Place
  | .var name => some (.var name)
  | .register r => some (.register r)
  | .element array index => some (.element array index)
  | .memory address => some (.memory address)
  | _ => none

/-- The expression that reads a place. -/
def Place.read : Place → Expr
  | .var name => .var name
  | .register r => .register r
  | .element array index => .element array index
  | .memory address => .memory address

namespace Expr

mutual

/-- The two expressions read the same. Numbers are compared by value, so no expression with a NaN is
the same as itself. -/
def same : Expr → Expr → Bool
  | number v, number w => v.same w
  | register r, register s => r = s
  | unary op e, unary op' e' => op = op' && e.same e'
  | binary l op r, binary l' op' r' => op = op' && l.same l' && r.same r'
  | call f args, call f' args' => f = f' && sameAll args args'
  | var name, var name' => name = name'
  | element array index, element array' index' => array = array' && index.same index'
  | cast e t, cast e' t' => t = t' && e.same e'
  | memory e, memory e' => e.same e'
  | addressOf name, addressOf name' => name = name'
  | range f l s, range f' l' s' => f.same f' && l.same l' && s.same s'
  | structLiteral es, structLiteral es' => sameAll es es'
  | _, _ => false

/-- The lists are of one length and the same item by item. -/
def sameAll : List Expr → List Expr → Bool
  | [], [] => true
  | e :: es, e' :: es' => e.same e' && sameAll es es'
  | _, _ => false

end

end Expr
end StackCode
