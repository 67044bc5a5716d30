/-
Intermediate programs as JSON, written and read.
-/
import StackCode.Json.Member
import StackCode.Program.Basic

namespace StackCode

def DataType.toJson (t : DataType) : Json := .str t.key

def DataType.ofJson? (standing : Json.Standing) (j : Json) : Option DataType :=
  j.oneOf? standing key all

/-! ## Writing -/

def Instruction.members (i : Instruction) : List (String × Json) :=
  [("opcode", .str i.opcode.mnemonic)] ++ optionalMember "arg" Value.toJson i.arg ++
    optionalMember "arg2" Value.toJson i.arg2 ++ optionalMember "call_label" .str i.label ++
    optionalMember "call_label2" .str i.payload

def Entry.toJson : Entry → Json
  | instruction i => .obj (("kind", .str "instruction") :: i.members)
  | label name isSubroutine =>
    .obj [("kind", .str "label"), ("name", .str name), ("subroutine", .bool isSubroutine)]

def Variable.toJson (v : Variable) : Json :=
  .obj ([("name", .str v.name), ("datatype", v.datatype.toJson)] ++
    optionalMember "length" Json.ofWord v.length)

def MemoryPointer.toJson (p : MemoryPointer) : Json :=
  .obj [("name", .str p.name), ("address", .ofWord p.address), ("datatype", p.datatype.toJson)]

def Block.toJson (b : Block) : Json :=
  .obj [("name", .str b.name), ("address", .ofOption .ofWord b.address),
    ("options", .arr (b.options.map .str)), ("variables", .arr (b.vars.map Variable.toJson)),
    ("memory_pointers", .arr (b.pointers.map MemoryPointer.toJson)),
    ("entries", .arr (b.entries.map Entry.toJson))]

def Program.toJson (p : Program) : Json :=
  .obj [("name", .str p.name), ("load_address", .ofOption .ofWord p.loadAddress),
    ("blocks", .arr (p.blocks.map Block.toJson))]

/-! ## Reading -/

def Opcode.ofJson? (standing : Json.Standing) (j : Json) : Option Opcode :=
  j.oneOf? standing mnemonic all

def Instruction.ofJson? (standing : Json.Standing) (j : Json) : Option Instruction := do
  some {
    opcode := ← j.required? "opcode" (Opcode.ofJson? standing)
    arg := ← j.optional? "arg" (Value.ofJson? standing)
    arg2 := ← j.optional? "arg2" (Value.ofJson? standing)
    label := ← j.optional? "call_label" Json.str?
    payload := ← j.optional? "call_label2" Json.str? }

/-- An entry is a node, told by its kind. -/
def Entry.ofJson? (j : Json) : Option Entry := do
  match ← j.required? "kind" Json.str? with
  | "instruction" => (Instruction.ofJson? .inNode j).map instruction
  | "label" =>
    some (label (← j.required? "name" Json.str?) (← j.defaulted? "subroutine" Json.bool? false))
  | _ => none

def Variable.ofJson? (j : Json) : Option Variable := do
  some {
    name := ← j.required? "name" Json.str?
    datatype := ← j.required? "datatype" (DataType.ofJson? .alone)
    length := ← j.optional? "length" Json.word? }

def MemoryPointer.ofJson? (j : Json) : Option MemoryPointer := do
  some {
    name := ← j.required? "name" Json.str?
    address := ← j.required? "address" Json.word?
    datatype := ← j.required? "datatype" (DataType.ofJson? .alone) }

def Block.ofJson? (j : Json) : Option Block := do
  some {
    name := ← j.required? "name" Json.str?
    address := ← j.optional? "address" Json.word?
    options := ← j.required? "options" (Json.listOf? Json.str?)
    vars := ← j.required? "variables" (Json.listOf? Variable.ofJson?)
    pointers := ← j.required? "memory_pointers" (Json.listOf? MemoryPointer.ofJson?)
    entries := ← j.required? "entries" (Json.listOf? Entry.ofJson?) }

def Program.ofJson? (j : Json) : Option Program := do
  some {
    name := ← j.required? "name" Json.str?
    loadAddress := ← j.optional? "load_address" Json.word?
    blocks := ← j.required? "blocks" (Json.listOf? Block.ofJson?) }

/-! ## Storage -/

/-- `plain` and `const` are names alone, a fixed address stands behind `memory`. -/
def Storage.ofJson? (standing : Json.Standing) : Json → Option Storage
  | .obj [("memory", address)] => address.word?.map memory
  | j =>
    match j.alternative? standing with
    | some "plain" => some plain
    | some "const" => some const
    | _ => none

def Storage.toJson : Storage → Json
  | plain => .str "plain"
  | const => .str "const"
  | memory address => .obj [("memory", .ofWord address)]

end StackCode
