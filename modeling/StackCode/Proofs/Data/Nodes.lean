/-
Expressions and statements are read back from the JSON values that they are written as. A
node is found by its kind, which no other node has, and its parts by their names. The height
of a value is a bound on the depth of its parts, so none of them is left unread.
-/
import StackCode.Proofs.Data.Part
import StackCode.Tree.Data.Statement

namespace StackCode

namespace Expr

/-! ## Expressions -/

/-- Reads a node that stands inside another one, with a bound on its depth. -/
def atDepth? (depth : Nat) (j : Json) : Option Expr := do
  ofNode? depth (← (← j.member? "kind").innerKind? kinds) j

theorem atDepth?_node (depth : Nat) (kind : String) (parts : List (String × Json)) :
    atDepth? depth (.node kind parts) = ofNode? depth kind (.node kind parts) := rfl

mutual

/-- **An expression is read back**, with any bound that is no less than its height. -/
theorem atDepth?_toJson : ∀ (e : Expr) (depth : Nat), e.toJson.height ≤ depth →
    atDepth? depth e.toJson = some e
  | e, 0, h => by cases e <;> simp [toJson, Json.node, Json.height] at h
  | .number v, depth + 1, _ => by
    rw [toJson, atDepth?_node]
    show (do some (number (← Value.ofJson? .inNode v.toJson))) = _
    rw [Value.ofJson?_toJson]
    rfl
  | .register r, depth + 1, _ => by
    rw [toJson, atDepth?_node]
    show (do some (register (← Register.ofJson? r.toJson))) = _
    rw [Register.ofJson?_toJson]
    rfl
  | .unary op e, depth + 1, h => by
    simp only [toJson, Json.node, Json.height, Json.membersHeight] at h
    have he := atDepth?_toJson e depth (by omega)
    rw [toJson, atDepth?_node]
    show (do some (unary (← UnaryOp.ofJson? (.str op.symbol)) (← atDepth? depth e.toJson))) = _
    rw [UnaryOp.ofJson?_symbol, he]
    rfl
  | .binary left op right, depth + 1, h => by
    simp only [toJson, Json.node, Json.height, Json.membersHeight] at h
    have hleft := atDepth?_toJson left depth (by omega)
    have hright := atDepth?_toJson right depth (by omega)
    rw [toJson, atDepth?_node]
    show (do some (binary (← atDepth? depth left.toJson) (← BinaryOp.ofJson? (.str op.symbol))
      (← atDepth? depth right.toJson))) = _
    rw [hleft, BinaryOp.ofJson?_symbol, hright]
    rfl
  | .call target args, depth + 1, h => by
    simp only [toJson, Json.node, Json.height, Json.membersHeight] at h
    have hargs := listOf?_toJson args depth (by omega)
    rw [toJson, atDepth?_node]
    show (do some (call target (← Json.listOf? (atDepth? depth) (.arr (listToJson args))))) = _
    rw [hargs]
    rfl
  | .var name, depth + 1, _ => by
    rw [toJson, atDepth?_node]
    rfl
  | .element array index, depth + 1, h => by
    simp only [toJson, Json.node, Json.height, Json.membersHeight] at h
    have hindex := atDepth?_toJson index depth (by omega)
    rw [toJson, atDepth?_node]
    show (do some (element array (← atDepth? depth index.toJson))) = _
    rw [hindex]
    rfl
  | .cast e type, depth + 1, h => by
    simp only [toJson, Json.node, Json.height, Json.membersHeight] at h
    have he := atDepth?_toJson e depth (by omega)
    rw [toJson, atDepth?_node]
    show (do some (cast (← atDepth? depth e.toJson) (← DataType.ofJson? .inNode type.toJson))) = _
    rw [he, DataType.ofJson?_toJson]
    rfl
  | .memory address, depth + 1, h => by
    simp only [toJson, Json.node, Json.height, Json.membersHeight] at h
    have haddress := atDepth?_toJson address depth (by omega)
    rw [toJson, atDepth?_node]
    show (do some (memory (← atDepth? depth address.toJson))) = _
    rw [haddress]
    rfl
  | .addressOf name, depth + 1, _ => by
    rw [toJson, atDepth?_node]
    rfl
  | .range first last step, depth + 1, h => by
    simp only [toJson, Json.node, Json.height, Json.membersHeight] at h
    have hfirst := atDepth?_toJson first depth (by omega)
    have hlast := atDepth?_toJson last depth (by omega)
    have hstep := atDepth?_toJson step depth (by omega)
    rw [toJson, atDepth?_node]
    show (do some (range (← atDepth? depth first.toJson) (← atDepth? depth last.toJson)
      (← atDepth? depth step.toJson))) = _
    rw [hfirst, hlast, hstep]
    rfl
  | .structLiteral values, depth + 1, h => by
    simp only [toJson, Json.node, Json.height, Json.membersHeight] at h
    have hvalues := listOf?_toJson values depth (by omega)
    rw [toJson, atDepth?_node]
    show (do some (structLiteral (← Json.listOf? (atDepth? depth) (.arr (listToJson values))))) = _
    rw [hvalues]
    rfl

theorem listOf?_toJson : ∀ (es : List Expr) (depth : Nat),
    Json.itemsHeight (listToJson es) ≤ depth →
    Json.listOf? (atDepth? depth) (.arr (listToJson es)) = some es
  | [], _, _ => rfl
  | e :: es, depth, h => by
    rw [listToJson, Json.itemsHeight] at h
    have he := atDepth?_toJson e depth (by omega)
    have hes : (listToJson es).mapM (atDepth? depth) = some es := listOf?_toJson es depth (by omega)
    rw [listToJson, Json.listOf?, List.mapM_cons, he, hes]
    rfl

end

theorem ofInner?_toJson (e : Expr) : ofInner? e.toJson = some e :=
  atDepth?_toJson e e.toJson.height (Nat.le_refl _)

theorem listOf?_ofInner? (es : List Expr) :
    Json.listOf? ofInner? (.arr (es.map toJson)) = some es :=
  Json.listOf?_map fun e _ => e.ofInner?_toJson

end Expr

theorem Place.ofJson?_toJson (p : Place) : ofJson? p.toJson = some p := by
  cases p with
  | var name => rfl
  | register r =>
    show (do some (register (← Register.ofJson? r.toJson))) = _
    rw [Register.ofJson?_toJson]
    rfl
  | element array index =>
    show (do some (element array (← Expr.ofInner? index.toJson))) = _
    rw [Expr.ofInner?_toJson]
    rfl
  | memory address =>
    show (do some (memory (← Expr.ofInner? address.toJson))) = _
    rw [Expr.ofInner?_toJson]
    rfl

/-! ## Statements -/

def Statement.atDepth? (depth : Nat) (j : Json) : Option Statement := do
  ofNode? depth (← (← j.member? "kind").innerKind? kinds) j

/-- Reads a scope, with a bound on the depth of its statements. -/
def Scope.atDepth? (depth : Nat) (j : Json) : Option Scope := do
  guard j.isObject
  some {
    name := ← j.defaulted? "name" Json.str? ""
    statements := ← j.defaulted? "statements" (Json.listOf? (Statement.atDepth? depth)) []
    position := ← j.position? }

def Choice.atDepth? (depth : Nat) (j : Json) : Option Choice := do
  some {
    values := ← j.optional? "values" (Json.listOf? Expr.ofInner?)
    body := ← j.required? "body" (Scope.atDepth? depth) }

theorem Statement.atDepth?_node (depth : Nat) (kind : String) (parts : List (String × Json)) :
    atDepth? depth (.node kind parts) = ofNode? depth kind (.node kind parts) := rfl

theorem Choice.orNull?_values (values : Option (List Expr)) :
    (Json.ofOption (fun es => .arr (es.map Expr.toJson)) values).orNull? (Json.listOf? Expr.ofInner?) =
      some values :=
  Json.orNull?_ofOption Expr.listOf?_ofInner? fun _ h => by cases h

/-- A scope stands in a member of its own, or its parts are among those of a node. -/
theorem Scope.atDepth?_of_statements {name : String} {statements : List Statement} {position : Position}
    {depth : Nat} (h : Json.listOf? (Statement.atDepth? depth)
      (.arr (Statement.listToJson statements)) = some statements) :
    Scope.atDepth? depth (.obj (Scope.parts ⟨name, statements, position⟩)) =
        some ⟨name, statements, position⟩ ∧
      Scope.atDepth? depth (.node "scope" (Scope.parts ⟨name, statements, position⟩)) =
        some ⟨name, statements, position⟩ := by
  have hread : (do some (⟨name, ← Json.listOf? (Statement.atDepth? depth)
      (.arr (Statement.listToJson statements)), ← Position.ofJson? position.toJson⟩ : Scope)) =
      some ⟨name, statements, position⟩ := by
    rw [h, Position.ofJson?_toJson]
    rfl
  exact ⟨hread, hread⟩

mutual

/-- **A statement is read back**, with any bound that is no less than its height. -/
theorem Statement.atDepth?_toJson : ∀ (s : Statement) (depth : Nat), s.toJson.height ≤ depth →
    Statement.atDepth? depth s.toJson = some s
  | s, 0, h => by cases s <;> simp [Statement.toJson, Json.node, Json.height] at h
  | .varDecl d, depth + 1, _ => by
    rw [Statement.toJson, Statement.atDepth?_node]
    show (VarDecl.ofJson? (.node "var_decl" d.parts)).map Statement.varDecl = _
    rw [VarDecl.ofJson?_parts]
    rfl
  | .label name position, depth + 1, _ => by
    rw [Statement.toJson, Statement.atDepth?_node]
    show (do some (Statement.label name (← Position.ofJson? position.toJson))) = _
    rw [Position.ofJson?_toJson]
    rfl
  | .assign place value position, depth + 1, _ => by
    rw [Statement.toJson, Statement.atDepth?_node]
    show (do some (Statement.assign (← Place.ofJson? place.toJson) (← Expr.ofInner? value.toJson)
      (← Position.ofJson? position.toJson))) = _
    rw [Place.ofJson?_toJson, Expr.ofInner?_toJson, Position.ofJson?_toJson]
    rfl
  | .step place op position, depth + 1, _ => by
    rw [Statement.toJson, Statement.atDepth?_node]
    show (do some (Statement.step (← Place.ofJson? place.toJson) (← Increment.ofJson? (.str op.symbol))
      (← Position.ofJson? position.toJson))) = _
    rw [Place.ofJson?_toJson, Increment.ofJson?_symbol, Position.ofJson?_toJson]
    rfl
  | .jump target position, depth + 1, _ => by
    rw [Statement.toJson, Statement.atDepth?_node]
    show (do some (Statement.jump (← JumpTarget.ofJson? target.toJson)
      (← Position.ofJson? position.toJson))) = _
    rw [JumpTarget.ofJson?_toJson, Position.ofJson?_toJson]
    rfl
  | .call target args position, depth + 1, _ => by
    rw [Statement.toJson, Statement.atDepth?_node]
    show (do
      let (target, args) ←
        Json.call? (.obj [("target", .str target), ("args", .arr (args.map Expr.toJson))])
      some (Statement.call target args (← Position.ofJson? position.toJson))) = _
    have hcall : Json.call? (.obj [("target", .str target), ("args", .arr (args.map Expr.toJson))]) =
        some (target, args) := by
      show (do some (target, ← Json.listOf? Expr.ofInner? (.arr (args.map Expr.toJson)))) = _
      rw [Expr.listOf?_ofInner?]
      rfl
    rw [hcall, Position.ofJson?_toJson]
    rfl
  | .cond condition thenPart elsePart position, depth + 1, h => by
    simp only [Statement.toJson, Json.node, Json.height, Json.membersHeight] at h
    have hthen := Scope.atDepth?_parts thenPart depth (by omega)
    have helse := Scope.atDepth?_parts elsePart depth (by omega)
    rw [Statement.toJson, Statement.atDepth?_node]
    show (do some (Statement.cond (← Expr.ofInner? condition.toJson)
      (← Scope.atDepth? depth (.obj thenPart.parts)) (← Scope.atDepth? depth (.obj elsePart.parts))
      (← Position.ofJson? position.toJson))) = _
    rw [Expr.ofInner?_toJson, hthen, helse, Position.ofJson?_toJson]
    rfl
  | .branch condition thenPart elsePart position, depth + 1, h => by
    simp only [Statement.toJson, Json.node, Json.height, Json.membersHeight] at h
    have hthen := Scope.atDepth?_parts thenPart depth (by omega)
    have helse := Scope.atDepth?_parts elsePart depth (by omega)
    rw [Statement.toJson, Statement.atDepth?_node]
    show (do some (Statement.branch (← FlagCondition.ofJson? (.str condition.name))
      (← Scope.atDepth? depth (.obj thenPart.parts)) (← Scope.atDepth? depth (.obj elsePart.parts))
      (← Position.ofJson? position.toJson))) = _
    rw [FlagCondition.ofJson?_name, hthen, helse, Position.ofJson?_toJson]
    rfl
  | .exit kind position, depth + 1, _ => by
    rw [Statement.toJson, Statement.atDepth?_node]
    cases kind <;>
    · show (do some (Statement.exit _ (← Position.ofJson? position.toJson))) = _
      rw [Position.ofJson?_toJson]
      rfl
  | .forEach register variableName iterable body position, depth + 1, h => by
    simp only [Statement.toJson, Json.node, Json.height, Json.membersHeight] at h
    have hbody := Scope.atDepth?_parts body depth (by omega)
    have hregister : (Json.ofOption Register.toJson register).orNull? Register.ofJson? = some register :=
      Json.orNull?_ofOption Register.ofJson?_toJson fun _ h => by cases h
    have hvariable : (Json.ofOption Json.str variableName).orNull? Json.str? = some variableName :=
      Json.orNull?_ofOption Json.str?_str fun _ h => by cases h
    rw [Statement.toJson, Statement.atDepth?_node]
    show (do some (Statement.forEach (← (Json.ofOption Register.toJson register).orNull? Register.ofJson?)
      (← (Json.ofOption Json.str variableName).orNull? Json.str?) (← Expr.ofInner? iterable.toJson)
      (← Scope.atDepth? depth (.obj body.parts)) (← Position.ofJson? position.toJson))) = _
    rw [hregister, hvariable, Expr.ofInner?_toJson, hbody, Position.ofJson?_toJson]
    rfl
  | .whileLoop condition body position, depth + 1, h => by
    simp only [Statement.toJson, Json.node, Json.height, Json.membersHeight] at h
    have hbody := Scope.atDepth?_parts body depth (by omega)
    rw [Statement.toJson, Statement.atDepth?_node]
    show (do some (Statement.whileLoop (← Expr.ofInner? condition.toJson)
      (← Scope.atDepth? depth (.obj body.parts)) (← Position.ofJson? position.toJson))) = _
    rw [Expr.ofInner?_toJson, hbody, Position.ofJson?_toJson]
    rfl
  | .repeatLoop body condition position, depth + 1, h => by
    simp only [Statement.toJson, Json.node, Json.height, Json.membersHeight] at h
    have hbody := Scope.atDepth?_parts body depth (by omega)
    rw [Statement.toJson, Statement.atDepth?_node]
    show (do some (Statement.repeatLoop (← Scope.atDepth? depth (.obj body.parts))
      (← Expr.ofInner? condition.toJson) (← Position.ofJson? position.toJson))) = _
    rw [Expr.ofInner?_toJson, hbody, Position.ofJson?_toJson]
    rfl
  | .scope ⟨name, statements, position⟩, depth + 1, h => by
    simp only [Statement.toJson, Scope.parts, Json.node, Json.height, Json.membersHeight] at h
    have hstatements := Statement.listOf?_toJson statements depth (by omega)
    rw [Statement.toJson, Statement.atDepth?_node]
    show (Scope.atDepth? depth (.node "scope" (Scope.parts ⟨name, statements, position⟩))).map
      Statement.scope = _
    rw [(Scope.atDepth?_of_statements hstatements).2]
    rfl
  | .ret values position, depth + 1, _ => by
    rw [Statement.toJson, Statement.atDepth?_node]
    show (do some (Statement.ret (← Json.listOf? Expr.ofInner? (.arr (values.map Expr.toJson)))
      (← Position.ofJson? position.toJson))) = _
    rw [Expr.listOf?_ofInner?, Position.ofJson?_toJson]
    rfl
  | .returnFromIrq position, depth + 1, _ => by
    rw [Statement.toJson, Statement.atDepth?_node]
    show (do some (Statement.returnFromIrq (← Position.ofJson? position.toJson))) = _
    rw [Position.ofJson?_toJson]
    rfl
  | .directive name args position, depth + 1, _ => by
    have hargs : Json.listOf? DirectiveArg.ofJson? (.arr (args.map DirectiveArg.toJson)) = some args :=
      Json.listOf?_map fun a _ => a.ofJson?_toJson
    rw [Statement.toJson, Statement.atDepth?_node]
    show (do some (Statement.directive name
      (← Json.listOf? DirectiveArg.ofJson? (.arr (args.map DirectiveArg.toJson)))
      (← Position.ofJson? position.toJson))) = _
    rw [hargs, Position.ofJson?_toJson]
    rfl
  | .subroutine signature body position, depth + 1, h => by
    simp only [Statement.toJson, Signature.parts, List.cons_append, List.nil_append, Json.node,
      Json.height, Json.membersHeight] at h
    have hbody := Statement.listOf?_toJson body depth (by omega)
    have hsignature := signature.ofJson?_parts "subroutine"
      [("statements", Json.arr (Statement.listToJson body)), ("position", position.toJson)]
    rw [Statement.toJson, Statement.atDepth?_node]
    show (do some (Statement.subroutine (← Signature.ofJson? (.node "subroutine" (signature.parts ++
      [("statements", Json.arr (Statement.listToJson body)), ("position", position.toJson)])))
      (← Json.listOf? (Statement.atDepth? depth) (.arr (Statement.listToJson body)))
      (← Position.ofJson? position.toJson))) = _
    rw [hsignature, hbody, Position.ofJson?_toJson]
    rfl
  | .assembly text position, depth + 1, _ => by
    rw [Statement.toJson, Statement.atDepth?_node]
    show (do some (Statement.assembly text (← Position.ofJson? position.toJson))) = _
    rw [Position.ofJson?_toJson]
    rfl
  | .choose condition choices position, depth + 1, h => by
    simp only [Statement.toJson, Json.node, Json.height, Json.membersHeight] at h
    have hchoices := Choice.listOf?_toJson choices depth (by omega)
    rw [Statement.toJson, Statement.atDepth?_node]
    show (do some (Statement.choose (← Expr.ofInner? condition.toJson)
      (← Json.listOf? (Choice.atDepth? depth) (.arr (Choice.listToJson choices)))
      (← Position.ofJson? position.toJson))) = _
    rw [Expr.ofInner?_toJson, hchoices, Position.ofJson?_toJson]
    rfl
  | .nop, depth + 1, _ => by
    rw [Statement.toJson, Statement.atDepth?_node]
    rfl

theorem Scope.atDepth?_parts : ∀ (s : Scope) (depth : Nat), Json.membersHeight s.parts ≤ depth →
    Scope.atDepth? depth (.obj s.parts) = some s
  | ⟨name, statements, position⟩, depth, h => by
    simp only [Scope.parts, Json.height, Json.membersHeight] at h
    exact (Scope.atDepth?_of_statements (Statement.listOf?_toJson statements depth (by omega))).1

theorem Choice.listOf?_toJson : ∀ (cs : List Choice) (depth : Nat),
    Json.itemsHeight (Choice.listToJson cs) ≤ depth →
    Json.listOf? (Choice.atDepth? depth) (.arr (Choice.listToJson cs)) = some cs
  | [], _, _ => rfl
  | ⟨values, body⟩ :: rest, depth, h => by
    simp only [Choice.listToJson, Json.itemsHeight, Json.height, Json.membersHeight] at h
    have hbody := Scope.atDepth?_parts body depth (by omega)
    have hrest : (Choice.listToJson rest).mapM (Choice.atDepth? depth) = some rest :=
      Choice.listOf?_toJson rest depth (by omega)
    have hchoice : Choice.atDepth? depth
        (.obj [("values", .ofOption (fun es => .arr (es.map Expr.toJson)) values),
          ("body", .obj body.parts)]) = some ⟨values, body⟩ := by
      show (do some (⟨← (Json.ofOption (fun es : List Expr => .arr (es.map Expr.toJson)) values).orNull?
        (Json.listOf? Expr.ofInner?), ← Scope.atDepth? depth (.obj body.parts)⟩ : Choice)) = _
      rw [Choice.orNull?_values, hbody]
      rfl
    rw [Choice.listToJson, Json.listOf?, List.mapM_cons, hchoice, hrest]
    rfl

theorem Statement.listOf?_toJson : ∀ (ss : List Statement) (depth : Nat),
    Json.itemsHeight (Statement.listToJson ss) ≤ depth →
    Json.listOf? (Statement.atDepth? depth) (.arr (Statement.listToJson ss)) = some ss
  | [], _, _ => rfl
  | s :: rest, depth, h => by
    rw [Statement.listToJson, Json.itemsHeight] at h
    have hs := Statement.atDepth?_toJson s depth (by omega)
    have hrest : (Statement.listToJson rest).mapM (Statement.atDepth? depth) = some rest :=
      Statement.listOf?_toJson rest depth (by omega)
    rw [Statement.listToJson, Json.listOf?, List.mapM_cons, hs, hrest]
    rfl

end

end StackCode
