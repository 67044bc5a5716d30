/-
Expressions and places as JSON, written and read.
-/
import StackCode.Tree.Data.Node
import StackCode.Tree.Data.Part

namespace StackCode

namespace Expr

/-- The kinds in their order. -/
def kinds : List String :=
  ["number", "register", "prefix", "binary", "call", "identifier", "indexed", "typecast",
    "memory_read", "address_of", "range", "struct_literal"]

/-- The step of a range that tells none. -/
def unitStep : Expr := .number (.wrapped .ubyte 1)

/-- Reads the node of a known kind from its members. -/
def ofNode? : Nat → String → Json → Option Expr
  | 0, _, _ => none
  | depth + 1, kind, j =>
    let inner (j : Json) : Option Expr := do
      ofNode? depth (← (← j.member? "kind").innerKind? kinds) j
    match kind with
    | "number" => do some (number (← j.required? "value" (Value.ofJson? .inNode)))
    | "register" => do some (register (← j.required? "register" Register.ofJson?))
    | "prefix" => do
      some (unary (← j.required? "operator" UnaryOp.ofJson?) (← j.required? "operand" inner))
    | "binary" => do
      some (binary (← j.required? "left" inner) (← j.required? "operator" BinaryOp.ofJson?)
        (← j.required? "right" inner))
    | "call" => do
      some (call (← j.required? "target" Json.str?) (← j.defaulted? "args" (Json.listOf? inner) []))
    | "identifier" => do some (var (← j.required? "name" Json.str?))
    | "indexed" => do
      some (element (← j.required? "array" Json.str?) (← j.required? "index" inner))
    | "typecast" => do
      some (cast (← j.required? "expression" inner)
        (← j.required? "datatype" (DataType.ofJson? .inNode)))
    | "memory_read" => do some (memory (← j.required? "address" inner))
    | "address_of" => do some (addressOf (← j.required? "name" Json.str?))
    | "range" => do
      some (range (← j.required? "from" inner) (← j.required? "to" inner)
        (← j.defaulted? "step" inner unitStep))
    | "struct_literal" => do some (structLiteral (← j.required? "values" (Json.listOf? inner)))
    | _ => none

/-- Reads an expression that stands inside another node. -/
def ofInner? (j : Json) : Option Expr := do
  ofNode? j.height (← (← j.member? "kind").innerKind? kinds) j

/-- Reads an expression that stands alone. -/
def ofJson? (j : Json) : Option Expr := do
  ofNode? j.height (← j.required? "kind" Json.str?) j

mutual

def toJson : Expr → Json
  | number value => .node "number" [("value", value.toJson)]
  | register r => .node "register" [("register", r.toJson)]
  | unary op operand =>
    .node "prefix" [("operator", .str op.symbol), ("operand", operand.toJson)]
  | binary left op right =>
    .node "binary" [("left", left.toJson), ("operator", .str op.symbol), ("right", right.toJson)]
  | call target args => .node "call" [("target", .str target), ("args", .arr (listToJson args))]
  | var name => .node "identifier" [("name", .str name)]
  | element array index => .node "indexed" [("array", .str array), ("index", index.toJson)]
  | cast operand type =>
    .node "typecast" [("expression", operand.toJson), ("datatype", type.toJson)]
  | memory address => .node "memory_read" [("address", address.toJson)]
  | addressOf name => .node "address_of" [("name", .str name)]
  | range first last step =>
    .node "range" [("from", first.toJson), ("to", last.toJson), ("step", step.toJson)]
  | structLiteral values => .node "struct_literal" [("values", .arr (listToJson values))]

def listToJson : List Expr → List Json
  | [] => []
  | e :: es => e.toJson :: listToJson es

end

end Expr

namespace Place

/-- The kinds in their order. -/
def kinds : List String := ["variable", "register", "indexed", "memory"]

def ofJson? (j : Json) : Option Place := do
  match ← (← j.member? "kind").innerKind? kinds with
  | "variable" => some (var (← j.required? "name" Json.str?))
  | "register" => some (register (← j.required? "register" Register.ofJson?))
  | "indexed" =>
    some (element (← j.required? "array" Json.str?) (← j.required? "index" Expr.ofInner?))
  | "memory" => some (memory (← j.required? "address" Expr.ofInner?))
  | _ => none

def toJson : Place → Json
  | var name => .node "variable" [("name", .str name)]
  | register r => .node "register" [("register", r.toJson)]
  | element array index => .node "indexed" [("array", .str array), ("index", index.toJson)]
  | memory address => .node "memory" [("address", address.toJson)]

end Place

/-- The target and the arguments of a call statement. -/
def Json.call? (j : Json) : Option (String × List Expr) := do
  some (← j.required? "target" Json.str?, ← j.defaulted? "args" (Json.listOf? Expr.ofInner?) [])

end StackCode
