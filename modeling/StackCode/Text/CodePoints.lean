/-
Sets of characters, as closed ranges of code points.
-/
namespace StackCode.Text

/-- Closed ranges of code points, ascending and apart. -/
abbrev CodePoints := List (Nat × Nat)

def CodePoints.contains (s : CodePoints) (c : Char) : Bool :=
  s.any fun (first, last) => first ≤ c.toNat && c.toNat ≤ last

end StackCode.Text
