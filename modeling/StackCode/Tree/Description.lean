/-
Expressions and places as messages show them: the whole node on one line, with
the name of every part.
-/
import StackCode.Decimal.Layout
import StackCode.Text.Quoted
import StackCode.Tree.Expr

namespace StackCode

/-- A node with its parts in braces. -/
def node (name : String) (parts : List (String × String)) : String :=
  name ++ " \x7b " ++ ", ".intercalate (parts.map fun (part, text) => part ++ ": " ++ text) ++ " \x7d"

def IntType.nodeName : IntType → String
  | ubyte => "UByte"
  | byte => "Byte"
  | uword => "UWord"
  | word => "Word"

def NumType.nodeName : NumType → String
  | int t => t.nodeName
  | float => "Float"

def DataType.nodeName : DataType → String
  | num t => t.nodeName
  | str => "Str"
  | strS => "StrS"
  | array .float => "ArrayF"
  | array (.int .ubyte) => "ArrayUb"
  | array (.int .byte) => "ArrayB"
  | array (.int .uword) => "ArrayUw"
  | array (.int .word) => "ArrayW"
  | struct => "Struct"

def Value.description (v : Value) : String :=
  let number :=
    match v with
    | int _ n _ => toString n
    | float x => Decimal.tree.render x
  v.type.nodeName ++ "(" ++ number ++ ")"

def StatusFlag.nodeName : StatusFlag → String
  | carry => "Pc"
  | zero => "Pz"
  | overflow => "Pv"
  | negative => "Pn"

/-- The parts of an element of an array. -/
def elementDescription (array index : String) : String :=
  "Indexed(" ++ node "ArrayIndex" [("array", Text.quoted array), ("index", index)] ++ ")"

namespace Expr

mutual

def description : Expr → String
  | number value => node "Number" [("value", value.description)]
  | register r => node "Register" [("register", r.name)]
  | unary op operand =>
    node "Prefix" [("operator", op.nodeName), ("operand", operand.description)]
  | binary left op right =>
    node "Binary"
      [("left", left.description), ("operator", op.nodeName), ("right", right.description)]
  | call target args =>
    "Call(" ++
      node "FunctionCall" [("target", Text.quoted target), ("args", listDescription args)] ++ ")"
  | var name => node "Identifier" [("name", Text.quoted name)]
  | element array index => elementDescription array index.description
  | cast operand type =>
    node "Typecast" [("expression", operand.description), ("datatype", type.nodeName)]
  | memory address => node "MemoryRead" [("address", address.description)]
  | addressOf name => node "AddressOf" [("name", Text.quoted name)]
  | range first last step =>
    node "Range"
      [("from", first.description), ("to", last.description), ("step", step.description)]
  | structLiteral values => node "StructLiteral" [("values", listDescription values)]

def listDescription (es : List Expr) : String :=
  "[" ++ ", ".intercalate (descriptions es) ++ "]"

def descriptions : List Expr → List String
  | [] => []
  | e :: es => e.description :: descriptions es

end

end Expr

def Place.description : Place → String
  | var name => node "Variable" [("name", Text.quoted name)]
  | register r => node "Register" [("register", r.name)]
  | element array index => elementDescription array index.description
  | memory address => node "Memory" [("address", address.description)]

end StackCode
