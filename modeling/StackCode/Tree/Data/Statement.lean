/-
Statements as JSON, written and read.
-/
import StackCode.Tree.Data.Expr

namespace StackCode

namespace Statement

/-- The kinds in their order. -/
def kinds : List String :=
  ["var_decl", "label", "assignment", "post_incr_decr", "jump", "call", "if", "branch", "break",
    "continue", "for", "while", "repeat", "scope", "return", "return_from_irq", "directive",
    "subroutine", "inline_assembly", "when", "nop"]

/-- Reads the statement of a known kind from its members. -/
def ofNode? : Nat → String → Json → Option Statement
  | 0, _, _ => none
  | depth + 1, kind, j =>
    let inner (j : Json) : Option Statement := do
      ofNode? depth (← (← j.member? "kind").innerKind? kinds) j
    let list := Json.listOf? inner
    let scopeOf (j : Json) : Option Scope := do
      guard j.isObject
      some {
        name := ← j.defaulted? "name" Json.str? ""
        statements := ← j.defaulted? "statements" list []
        position := ← j.position? }
    let choiceOf (j : Json) : Option Choice := do
      some {
        values := ← j.optional? "values" (Json.listOf? Expr.ofInner?)
        body := ← j.required? "body" scopeOf }
    match kind with
    | "var_decl" => (VarDecl.ofJson? j).map varDecl
    | "label" => do some (label (← j.required? "name" Json.str?) (← j.position?))
    | "assignment" => do
      some (assign (← j.required? "target" Place.ofJson?) (← j.required? "value" Expr.ofInner?)
        (← j.position?))
    | "post_incr_decr" => do
      some (step (← j.required? "target" Place.ofJson?) (← j.required? "operator" Increment.ofJson?)
        (← j.position?))
    | "jump" => do some (jump (← j.required? "target" JumpTarget.ofJson?) (← j.position?))
    | "call" => do
      let (target, args) ← j.required? "call" Json.call?
      some (call target args (← j.position?))
    | "if" => do
      some (cond (← j.required? "condition" Expr.ofInner?) (← j.required? "true_part" scopeOf)
        (← j.defaulted? "else_part" scopeOf .empty) (← j.position?))
    | "branch" => do
      some (branch (← j.required? "condition" FlagCondition.ofJson?)
        (← j.required? "true_part" scopeOf) (← j.defaulted? "else_part" scopeOf .empty)
        (← j.position?))
    | "break" => do some (exit .leave (← j.position?))
    | "continue" => do some (exit .next (← j.position?))
    | "for" => do
      some (forEach (← j.optional? "loop_register" Register.ofJson?)
        (← j.optional? "loop_var" Json.str?) (← j.required? "iterable" Expr.ofInner?)
        (← j.required? "body" scopeOf) (← j.position?))
    | "while" => do
      some (whileLoop (← j.required? "condition" Expr.ofInner?) (← j.required? "body" scopeOf)
        (← j.position?))
    | "repeat" => do
      some (repeatLoop (← j.required? "body" scopeOf) (← j.required? "until" Expr.ofInner?)
        (← j.position?))
    | "scope" => (scopeOf j).map scope
    | "return" => do
      some (ret (← j.defaulted? "values" (Json.listOf? Expr.ofInner?) []) (← j.position?))
    | "return_from_irq" => do some (returnFromIrq (← j.position?))
    | "directive" => do
      some (directive (← j.required? "name" Json.str?)
        (← j.defaulted? "args" (Json.listOf? DirectiveArg.ofJson?) []) (← j.position?))
    | "subroutine" => do
      some (subroutine (← Signature.ofJson? j) (← j.defaulted? "statements" list [])
        (← j.position?))
    | "inline_assembly" => do
      some (assembly (← j.required? "assembly" Json.str?) (← j.position?))
    | "when" => do
      some (choose (← j.required? "condition" Expr.ofInner?)
        (← j.defaulted? "choices" (Json.listOf? choiceOf) []) (← j.position?))
    | "nop" => some nop
    | _ => none

/-- Reads a statement of a block. -/
def ofJson? (j : Json) : Option Statement := do
  ofNode? j.height (← j.required? "kind" Json.str?) j

end Statement

mutual

def Statement.toJson : Statement → Json
  | .varDecl d => .node "var_decl" d.parts
  | .label name position => .node "label" [("name", .str name), ("position", position.toJson)]
  | .assign place value position =>
    .node "assignment"
      [("target", place.toJson), ("value", value.toJson), ("position", position.toJson)]
  | .step place op position =>
    .node "post_incr_decr"
      [("target", place.toJson), ("operator", .str op.symbol), ("position", position.toJson)]
  | .jump target position =>
    .node "jump" [("target", target.toJson), ("position", position.toJson)]
  | .call target args position =>
    .node "call"
      [("call", .obj [("target", .str target), ("args", .arr (args.map Expr.toJson))]),
        ("position", position.toJson)]
  | .cond condition thenPart elsePart position =>
    .node "if"
      [("condition", condition.toJson), ("true_part", .obj thenPart.parts),
        ("else_part", .obj elsePart.parts), ("position", position.toJson)]
  | .branch condition thenPart elsePart position =>
    .node "branch"
      [("condition", .str condition.name), ("true_part", .obj thenPart.parts),
        ("else_part", .obj elsePart.parts), ("position", position.toJson)]
  | .exit kind position => .node kind.name [("position", position.toJson)]
  | .forEach register variableName iterable body position =>
    .node "for"
      [("loop_register", .ofOption Register.toJson register),
        ("loop_var", .ofOption .str variableName), ("iterable", iterable.toJson),
        ("body", .obj body.parts), ("position", position.toJson)]
  | .whileLoop condition body position =>
    .node "while"
      [("condition", condition.toJson), ("body", .obj body.parts), ("position", position.toJson)]
  | .repeatLoop body condition position =>
    .node "repeat"
      [("body", .obj body.parts), ("until", condition.toJson), ("position", position.toJson)]
  | .scope s => .node "scope" s.parts
  | .ret values position =>
    .node "return"
      [("values", .arr (values.map Expr.toJson)), ("position", position.toJson)]
  | .returnFromIrq position => .node "return_from_irq" [("position", position.toJson)]
  | .directive name args position =>
    .node "directive"
      [("name", .str name), ("args", .arr (args.map DirectiveArg.toJson)),
        ("position", position.toJson)]
  | .subroutine signature body position =>
    .node "subroutine"
      (signature.parts ++
        [("statements", .arr (Statement.listToJson body)), ("position", position.toJson)])
  | .assembly text position =>
    .node "inline_assembly" [("assembly", .str text), ("position", position.toJson)]
  | .choose condition choices position =>
    .node "when"
      [("condition", condition.toJson), ("choices", .arr (Choice.listToJson choices)),
        ("position", position.toJson)]
  | .nop => .node "nop" []

def Statement.listToJson : List Statement → List Json
  | [] => []
  | s :: rest => s.toJson :: Statement.listToJson rest

def Scope.parts : Scope → List (String × Json)
  | ⟨name, statements, position⟩ =>
    [("name", .str name), ("statements", .arr (Statement.listToJson statements)),
      ("position", position.toJson)]

def Choice.listToJson : List Choice → List Json
  | [] => []
  | ⟨values, body⟩ :: rest =>
    .obj [("values", .ofOption (fun es => .arr (es.map Expr.toJson)) values),
      ("body", .obj body.parts)] :: Choice.listToJson rest

end

end StackCode
