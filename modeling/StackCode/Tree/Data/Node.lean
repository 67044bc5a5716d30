/-
The checked program tree as JSON, written and read.

The node that a JSON object stands for is told by its member `kind`. At the
statements of a block `kind` is a name; further inside, the number of the name in
the order of the kinds is taken as well.

A node is read with a bound on the depth of what stands inside it. The height of
the JSON value is such a bound, so reading stops for no other reason than a wrong
shape.
-/
import StackCode.Json.Basic

namespace StackCode

/-- A node: its kind and its parts. -/
def Json.node (kind : String) (parts : List (String × Json)) : Json :=
  .obj (("kind", .str kind) :: parts)

mutual

/-- The number of values that stand one inside the other, this one included. -/
def Json.height : Json → Nat
  | .arr items => itemsHeight items + 1
  | .obj members => membersHeight members + 1
  | _ => 1

def Json.itemsHeight : List Json → Nat
  | [] => 0
  | j :: rest => max j.height (itemsHeight rest)

def Json.membersHeight : List (String × Json) → Nat
  | [] => 0
  | (_, j) :: rest => max j.height (membersHeight rest)

end

/-- A kind inside another node: its name, or its number among the names. -/
def Json.innerKind? (kinds : List String) : Json → Option String
  | .str s => some s
  | .int n => if 0 ≤ n then kinds[n.toNat]? else none
  | _ => none

end StackCode
