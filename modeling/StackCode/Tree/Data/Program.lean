/-
Whole program trees as JSON, and as JSON text.

In the text of a tree, members that are not known are passed over in the tree, its
modules, its blocks and their positions. A statement is read as a whole.
-/
import StackCode.Json.Parser
import StackCode.Tree.Data.Statement

namespace StackCode

def Tree.Block.ofJson? (j : Json) : Option Tree.Block := do
  some {
    name := ← j.required? "name" Json.str?
    address := ← j.optional? "address" Json.word?
    options := ← j.defaulted? "options" (Json.listOf? Json.str?) []
    statements := ← j.defaulted? "statements" (Json.listOf? Statement.ofJson?) []
    position := ← j.position? }

/-- What is looked at of a block. -/
def Tree.Block.outline : Json.Outline :=
  .record
    [("name", .whole), ("address", .whole), ("options", .whole), ("statements", .whole),
      ("position", .record [("file", .whole), ("line", .whole)])]

def Tree.Block.toJson (b : Tree.Block) : Json :=
  .obj [("name", .str b.name), ("address", .ofOption .ofWord b.address),
    ("options", .arr (b.options.map .str)),
    ("statements", .arr (b.statements.map Statement.toJson)), ("position", b.position.toJson)]

def Tree.Module.ofJson? (j : Json) : Option Tree.Module := do
  some {
    name := ← j.required? "name" Json.str?
    source := ← j.defaulted? "source" Json.str? ""
    blocks := ← j.required? "blocks" (Json.listOf? Tree.Block.ofJson?) }

/-- What is looked at of a module. -/
def Tree.Module.outline : Json.Outline :=
  .record [("name", .whole), ("source", .whole), ("blocks", .list Block.outline)]

def Tree.Module.toJson (m : Tree.Module) : Json :=
  .obj [("name", .str m.name), ("source", .str m.source),
    ("blocks", .arr (m.blocks.map Tree.Block.toJson))]

namespace Tree

def ofJson? (j : Json) : Option Tree := do
  some {
    name := ← j.required? "name" Json.str?
    loadAddress := ← j.optional? "load_address" Json.word?
    modules := ← j.required? "modules" (Json.listOf? Module.ofJson?) }

/-- What is looked at of a tree. -/
def outline : Json.Outline :=
  .record [("name", .whole), ("load_address", .whole), ("modules", .list Module.outline)]

def toJson (t : Tree) : Json :=
  .obj [("name", .str t.name), ("load_address", .ofOption .ofWord t.loadAddress),
    ("modules", .arr (t.modules.map Module.toJson))]

/-- The deepest nesting of lists and objects in the text of a tree. -/
def maxTextDepth : Nat := 127

/-- Reads the text of a tree. -/
def parse? (text : String) : Option Tree := do
  ofJson? (← Json.parse? outline maxTextDepth text)

end Tree
end StackCode
