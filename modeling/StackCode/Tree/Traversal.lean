/-
All statements of a statement list, those that stand inside others as well.
-/
import StackCode.Tree.Statement

namespace StackCode

mutual

/-- A statement and all statements inside it, in source order. -/
def Statement.withInner : Statement → List Statement
  | .cond condition thenPart elsePart position =>
    .cond condition thenPart elsePart position :: (thenPart.inner ++ elsePart.inner)
  | .branch condition thenPart elsePart position =>
    .branch condition thenPart elsePart position :: (thenPart.inner ++ elsePart.inner)
  | .forEach register variableName iterable body position =>
    .forEach register variableName iterable body position :: body.inner
  | .whileLoop condition body position => .whileLoop condition body position :: body.inner
  | .repeatLoop body condition position => .repeatLoop body condition position :: body.inner
  | .scope s => .scope s :: s.inner
  | .subroutine signature body position =>
    .subroutine signature body position :: Statement.allOf body
  | .choose condition choices position =>
    .choose condition choices position :: Choice.innerOf choices
  | s => [s]

/-- All statements inside a scope. -/
def Scope.inner : Scope → List Statement
  | ⟨_, statements, _⟩ => Statement.allOf statements

def Choice.innerOf : List Choice → List Statement
  | [] => []
  | ⟨_, body⟩ :: rest => body.inner ++ Choice.innerOf rest

/-- All statements of a list. -/
def Statement.allOf : List Statement → List Statement
  | [] => []
  | s :: rest => s.withInner ++ Statement.allOf rest

end

end StackCode
