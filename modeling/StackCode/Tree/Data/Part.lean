/-
The small parts of a program tree as JSON, written and read: everything that
holds no expression and no statement.
-/
import StackCode.Program.Data
import StackCode.Tree.Statement

namespace StackCode

def Register.ofJson? (j : Json) : Option Register := j.oneOf? .inNode name all

def Register.toJson (r : Register) : Json := .str r.name

/-- A carrier is told by its sort and its name. -/
def Carrier.ofJson? : Json → Option Carrier
  | .obj [("register", j)] => j.oneOf? .inNode name registers
  | .obj [("statusflag", j)] => (j.oneOf? .inNode (·.name) StatusFlag.all).map flag
  | _ => none

def Carrier.toJson : Carrier → Json
  | flag f => .obj [("statusflag", .str f.name)]
  | c => .obj [("register", .str c.name)]

def UnaryOp.ofJson? (j : Json) : Option UnaryOp := j.oneOf? .inNode symbol all

def BinaryOp.ofJson? (j : Json) : Option BinaryOp := j.oneOf? .inNode symbol all

def Increment.ofJson? (j : Json) : Option Increment := j.oneOf? .inNode symbol all

def FlagCondition.ofJson? (j : Json) : Option FlagCondition := j.oneOf? .inNode name all

def Position.ofJson? (j : Json) : Option Position := do
  guard j.isObject
  some {
    file := ← j.defaulted? "file" Json.str? ""
    line := UInt32.ofNat (← j.defaulted? "line" (Json.natUpTo? 4294967295) 0) }

def Position.toJson (p : Position) : Json :=
  .obj [("file", .str p.file), ("line", .int p.line.toNat)]

/-- The position of a node; an unknown one may be left out. -/
def Json.position? (j : Json) : Option Position := j.defaulted? "position" Position.ofJson? {}

def VarDecl.ofJson? (j : Json) : Option VarDecl := do
  some {
    name := ← j.required? "name" Json.str?
    type := ← j.required? "datatype" (DataType.ofJson? .inNode)
    storage := ← j.defaulted? "storage" (Storage.ofJson? .inNode) .plain
    length := ← j.optional? "length" Json.word?
    members := ← j.defaulted? "struct_members" (Json.listOf? Json.str?) []
    position := ← j.position? }

def VarDecl.parts (d : VarDecl) : List (String × Json) :=
  [("name", .str d.name), ("datatype", d.type.toJson), ("storage", d.storage.toJson),
    ("length", .ofOption .ofWord d.length), ("struct_members", .arr (d.members.map .str)),
    ("position", d.position.toJson)]

/-- A target is told by its sort. -/
def JumpTarget.ofJson? : Json → Option JumpTarget
  | .obj [("address", j)] => j.word?.map address
  | .obj [("identifier", j)] => j.str?.map named
  | .obj [("generated", j)] => j.str?.map generated
  | _ => none

def JumpTarget.toJson : JumpTarget → Json
  | address a => .obj [("address", .ofWord a)]
  | named name => .obj [("identifier", .str name)]
  | generated label => .obj [("generated", .str label)]

/-- An argument is an integer of 64 bits or a string. -/
def DirectiveArg.ofJson? : Json → Option DirectiveArg
  | .str s => some (.str s)
  | j => (j.intBetween? Int64.minValue.toInt Int64.maxValue.toInt).map fun n => int (Int64.ofInt n)

def DirectiveArg.toJson : DirectiveArg → Json
  | int n => .int n.toInt
  | str s => .str s

def Parameter.ofJson? (j : Json) : Option Parameter := do
  some {
    name := ← j.required? "name" Json.str?
    type := ← j.required? "datatype" (DataType.ofJson? .inNode) }

def Parameter.toJson (p : Parameter) : Json :=
  .obj [("name", .str p.name), ("datatype", p.type.toJson)]

def MachineConvention.ofJson? (j : Json) : Option MachineConvention := do
  guard j.isObject
  some {
    address := ← j.optional? "address" Json.word?
    parameters := ← j.defaulted? "parameters" (Json.listOf? Carrier.ofJson?) []
    returns := ← j.defaulted? "returns" (Json.listOf? Carrier.ofJson?) []
    clobbers := ← j.defaulted? "clobbers" (Json.listOf? Register.ofJson?) [] }

def MachineConvention.toJson (m : MachineConvention) : Json :=
  .obj [("address", .ofOption .ofWord m.address), ("parameters", .arr (m.parameters.map Carrier.toJson)),
    ("returns", .arr (m.returns.map Carrier.toJson)),
    ("clobbers", .arr (m.clobbers.map Register.toJson))]

def Signature.ofJson? (j : Json) : Option Signature := do
  some {
    name := ← j.required? "name" Json.str?
    parameters := ← j.defaulted? "parameters" (Json.listOf? Parameter.ofJson?) []
    returnTypes := ← j.defaulted? "return_types" (Json.listOf? (DataType.ofJson? .inNode)) []
    machine := ← j.optional? "asm" MachineConvention.ofJson? }

def Signature.parts (s : Signature) : List (String × Json) :=
  [("name", .str s.name), ("parameters", .arr (s.parameters.map Parameter.toJson)),
    ("return_types", .arr (s.returnTypes.map DataType.toJson)),
    ("asm", .ofOption MachineConvention.toJson s.machine)]

end StackCode
