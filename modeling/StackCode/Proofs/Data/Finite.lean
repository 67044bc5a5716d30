/-
Floats in JSON. There is no JSON form of a NaN or of an infinity, and `null` is written for
it. A program whose float literals are all finite is written without such a gap.
-/
import StackCode.Tree.Data.Program

namespace StackCode

/-! ## JSON values -/

namespace Json

mutual

/-- The value as it is written: a float that is not finite has no form of its own. -/
def settled : Json → Json
  | float x => if x.isFinite then float x else null
  | arr items => arr (settledItems items)
  | obj members => obj (settledMembers members)
  | j => j

def settledItems : List Json → List Json
  | [] => []
  | j :: rest => j.settled :: settledItems rest

def settledMembers : List (String × Json) → List (String × Json)
  | [] => []
  | (name, j) :: rest => (name, j.settled) :: settledMembers rest

end

mutual

/-- The floats in a value, in order. -/
def floats : Json → List Float
  | float x => [x]
  | arr items => itemFloats items
  | obj members => memberFloats members
  | _ => []

def itemFloats : List Json → List Float
  | [] => []
  | j :: rest => j.floats ++ itemFloats rest

def memberFloats : List (String × Json) → List Float
  | [] => []
  | (_, j) :: rest => j.floats ++ memberFloats rest

end

mutual

/-- A value without gaps is written as it is. -/
theorem settled_eq_self : ∀ j : Json, (∀ x ∈ j.floats, x.isFinite) → j.settled = j
  | .float x, h => if_pos (h x (List.mem_singleton_self x))
  | .arr items, h => by rw [settled, settledItems_eq_self items h]
  | .obj members, h => by rw [settled, settledMembers_eq_self members h]
  | .null, _ | .bool _, _ | .int _, _ | .str _, _ => rfl

theorem settledItems_eq_self : ∀ items : List Json, (∀ x ∈ itemFloats items, x.isFinite) →
    settledItems items = items
  | [], _ => rfl
  | j :: rest, h => by
    rw [itemFloats, List.forall_mem_append] at h
    rw [settledItems, settled_eq_self j h.1, settledItems_eq_self rest h.2]

theorem settledMembers_eq_self : ∀ members : List (String × Json),
    (∀ x ∈ memberFloats members, x.isFinite) → settledMembers members = members
  | [], _ => rfl
  | (name, j) :: rest, h => by
    rw [memberFloats, List.forall_mem_append] at h
    rw [settledMembers, settled_eq_self j h.1, settledMembers_eq_self rest h.2]

end

theorem itemFloats_map {α : Type} (encode : α → Json) (xs : List α) :
    itemFloats (xs.map encode) = xs.flatMap fun x => (encode x).floats := by
  induction xs with
  | nil => rfl
  | cons x xs ih => rw [List.map_cons, itemFloats, ih, List.flatMap_cons]

/-- What is written item by item without floats. -/
theorem itemFloats_map_nil {α : Type} {encode : α → Json} {xs : List α}
    (h : ∀ x, (encode x).floats = []) : itemFloats (xs.map encode) = [] := by
  rw [itemFloats_map]
  exact List.flatMap_eq_nil_iff.2 fun x _ => h x

theorem floats_ofOption {α : Type} {encode : α → Json} {o : Option α}
    (h : ∀ a, (encode a).floats = []) : (ofOption encode o).floats = [] := by
  cases o with
  | none => rfl
  | some a => exact h a

end Json

/-! ## Literals -/

/-- The float that a literal is. -/
def Value.floats : Value → List Float
  | .int .. => []
  | .float x => [x]

namespace Expr

mutual

/-- The float literals of an expression, in order. -/
def floats : Expr → List Float
  | number v => v.floats
  | unary _ e | element _ e | cast e _ | memory e => e.floats
  | binary left _ right => left.floats ++ right.floats
  | call _ args => allFloats args
  | range first last step => first.floats ++ last.floats ++ step.floats
  | structLiteral values => allFloats values
  | register _ | var _ | addressOf _ => []

def allFloats : List Expr → List Float
  | [] => []
  | e :: es => e.floats ++ allFloats es

end

end Expr

mutual

/-- The float literals of a statement, in order. -/
def Statement.floats : Statement → List Float
  | .assign place value _ => place.read.floats ++ value.floats
  | .step place _ _ => place.read.floats
  | .call _ args _ => Expr.allFloats args
  | .cond condition thenPart elsePart _ => condition.floats ++ thenPart.floats ++ elsePart.floats
  | .branch _ thenPart elsePart _ => thenPart.floats ++ elsePart.floats
  | .forEach _ _ iterable body _ => iterable.floats ++ body.floats
  | .whileLoop condition body _ => condition.floats ++ body.floats
  | .repeatLoop body condition _ => body.floats ++ condition.floats
  | .scope s => s.floats
  | .ret values _ => Expr.allFloats values
  | .subroutine _ body _ => Statement.allFloats body
  | .choose condition choices _ => condition.floats ++ Choice.allFloats choices
  | .varDecl _ | .label _ _ | .jump _ _ | .exit _ _ | .returnFromIrq _ | .directive _ _ _
  | .assembly _ _ | .nop => []

def Scope.floats : Scope → List Float
  | ⟨_, statements, _⟩ => Statement.allFloats statements

def Choice.allFloats : List Choice → List Float
  | [] => []
  | ⟨values, body⟩ :: rest => Expr.allFloats (values.getD []) ++ body.floats ++ Choice.allFloats rest

def Statement.allFloats : List Statement → List Float
  | [] => []
  | s :: rest => s.floats ++ Statement.allFloats rest

end

/-- The float literals of a program, in order. -/
def Tree.floats (t : Tree) : List Float := t.blocks.flatMap fun b => Statement.allFloats b.statements

/-! ## What is written of the parts -/

theorem Value.floats_toJson (v : Value) : v.toJson.floats = v.floats := by
  cases v <;> rfl

theorem Position.floats_toJson (p : Position) : p.toJson.floats = [] := rfl

theorem VarDecl.floats_parts (d : VarDecl) : Json.memberFloats d.parts = [] := by
  have hstorage : d.storage.toJson.floats = [] := by cases d.storage <;> rfl
  have hlength : (Json.ofOption Json.ofWord d.length).floats = [] := Json.floats_ofOption fun _ => rfl
  have hmembers : Json.itemFloats (d.members.map .str) = [] := Json.itemFloats_map_nil fun _ => rfl
  simp [parts, Json.memberFloats, Json.floats, DataType.toJson, Position.floats_toJson, hstorage,
    hlength, hmembers]

theorem Carrier.floats_toJson (c : Carrier) : c.toJson.floats = [] := by cases c <;> rfl

theorem MachineConvention.floats_toJson (m : MachineConvention) : m.toJson.floats = [] := by
  have haddress : (Json.ofOption Json.ofWord m.address).floats = [] := Json.floats_ofOption fun _ => rfl
  have hcarriers (cs : List Carrier) : Json.itemFloats (cs.map Carrier.toJson) = [] :=
    Json.itemFloats_map_nil Carrier.floats_toJson
  have hregisters : Json.itemFloats (m.clobbers.map Register.toJson) = [] :=
    Json.itemFloats_map_nil fun _ => rfl
  simp [toJson, Json.floats, Json.memberFloats, haddress, hcarriers, hregisters]

theorem Signature.floats_parts (s : Signature) (rest : List (String × Json)) :
    Json.memberFloats (s.parts ++ rest) = Json.memberFloats rest := by
  have hparameters : Json.itemFloats (s.parameters.map Parameter.toJson) = [] :=
    Json.itemFloats_map_nil fun _ => rfl
  have htypes : Json.itemFloats (s.returnTypes.map DataType.toJson) = [] :=
    Json.itemFloats_map_nil fun _ => rfl
  have hmachine : (Json.ofOption MachineConvention.toJson s.machine).floats = [] :=
    Json.floats_ofOption MachineConvention.floats_toJson
  simp [parts, Json.floats, Json.memberFloats, hparameters, htypes, hmachine]

/-! ## What is written of expressions and statements -/

namespace Expr

mutual

theorem floats_toJson : ∀ e : Expr, e.toJson.floats = e.floats
  | .number v => by simp [toJson, Json.node, Json.floats, Json.memberFloats, floats, v.floats_toJson]
  | .unary _ e | .element _ e | .cast e _ | .memory e => by
    simp [toJson, Json.node, Json.floats, Json.memberFloats, floats, floats_toJson e, DataType.toJson]
  | .binary left _ right => by
    simp [toJson, Json.node, Json.floats, Json.memberFloats, floats, floats_toJson left,
      floats_toJson right]
  | .call _ args => by
    simp [toJson, Json.node, Json.floats, Json.memberFloats, floats, floats_listToJson args]
  | .range first last step => by
    simp [toJson, Json.node, Json.floats, Json.memberFloats, floats, floats_toJson first,
      floats_toJson last, floats_toJson step]
  | .structLiteral values => by
    simp [toJson, Json.node, Json.floats, Json.memberFloats, floats, floats_listToJson values]
  | .register _ | .var _ | .addressOf _ => rfl

theorem floats_listToJson : ∀ es : List Expr, Json.itemFloats (listToJson es) = allFloats es
  | [] => rfl
  | e :: es => by rw [listToJson, Json.itemFloats, allFloats, floats_toJson e, floats_listToJson es]

end

theorem floats_map_toJson (es : List Expr) : Json.itemFloats (es.map toJson) = allFloats es := by
  induction es with
  | nil => rfl
  | cons e es ih => rw [List.map_cons, Json.itemFloats, ih, allFloats, floats_toJson]

end Expr

theorem Place.floats_toJson (p : Place) : p.toJson.floats = p.read.floats := by
  cases p <;>
    simp [toJson, read, Json.node, Json.floats, Json.memberFloats, Expr.floats, Expr.floats_toJson,
      Register.toJson]

mutual

theorem Statement.floats_toJson : ∀ s : Statement, s.toJson.floats = s.floats
  | .varDecl d => d.floats_parts
  | .assign place value _ => by
    simp [Statement.toJson, Json.node, Json.floats, Json.memberFloats, Statement.floats,
      place.floats_toJson, value.floats_toJson, Position.floats_toJson]
  | .step place _ _ => by
    simp [Statement.toJson, Json.node, Json.floats, Json.memberFloats, Statement.floats,
      place.floats_toJson, Position.floats_toJson]
  | .call _ args _ => by
    simp [Statement.toJson, Json.node, Json.floats, Json.memberFloats, Statement.floats,
      Expr.floats_map_toJson, Position.floats_toJson]
  | .cond condition thenPart elsePart _ => by
    simp [Statement.toJson, Json.node, Json.floats, Json.memberFloats, Statement.floats,
      condition.floats_toJson, Scope.floats_parts thenPart, Scope.floats_parts elsePart,
      Position.floats_toJson]
  | .branch _ thenPart elsePart _ => by
    simp [Statement.toJson, Json.node, Json.floats, Json.memberFloats, Statement.floats,
      Scope.floats_parts thenPart, Scope.floats_parts elsePart, Position.floats_toJson]
  | .forEach register variableName iterable body _ => by
    have hregister : (Json.ofOption Register.toJson register).floats = [] :=
      Json.floats_ofOption fun _ => rfl
    have hvariable : (Json.ofOption Json.str variableName).floats = [] :=
      Json.floats_ofOption fun _ => rfl
    simp [Statement.toJson, Json.node, Json.floats, Json.memberFloats, Statement.floats, hregister,
      hvariable, iterable.floats_toJson, Scope.floats_parts body, Position.floats_toJson]
  | .whileLoop condition body _ | .repeatLoop body condition _ => by
    simp [Statement.toJson, Json.node, Json.floats, Json.memberFloats, Statement.floats,
      condition.floats_toJson, Scope.floats_parts body, Position.floats_toJson]
  | .scope s => by
    simp [Statement.toJson, Json.node, Json.floats, Json.memberFloats, Statement.floats,
      Scope.floats_parts s]
  | .ret values _ => by
    simp [Statement.toJson, Json.node, Json.floats, Json.memberFloats, Statement.floats,
      Expr.floats_map_toJson, Position.floats_toJson]
  | .directive _ args _ => by
    have hargs : Json.itemFloats (args.map DirectiveArg.toJson) = [] :=
      Json.itemFloats_map_nil fun a => by cases a <;> rfl
    simp [Statement.toJson, Json.node, Json.floats, Json.memberFloats, Statement.floats, hargs,
      Position.floats_toJson]
  | .subroutine signature body _ => by
    simp [Statement.toJson, Json.node, Json.floats, Json.memberFloats, Statement.floats,
      signature.floats_parts, Statement.floats_listToJson body, Position.floats_toJson]
  | .choose condition choices _ => by
    simp [Statement.toJson, Json.node, Json.floats, Json.memberFloats, Statement.floats,
      condition.floats_toJson, Choice.floats_listToJson choices, Position.floats_toJson]
  | .jump target _ => by
    have htarget : target.toJson.floats = [] := by cases target <;> rfl
    simp [Statement.toJson, Json.node, Json.floats, Json.memberFloats, Statement.floats, htarget,
      Position.floats_toJson]
  | .label _ _ | .exit _ _ | .returnFromIrq _ | .assembly _ _ | .nop => rfl

theorem Scope.floats_parts : ∀ s : Scope, Json.memberFloats s.parts = s.floats
  | ⟨_, statements, _⟩ => by
    simp [Scope.parts, Json.floats, Json.memberFloats, Scope.floats,
      Statement.floats_listToJson statements, Position.floats_toJson]

theorem Choice.floats_listToJson : ∀ cs : List Choice,
    Json.itemFloats (Choice.listToJson cs) = Choice.allFloats cs
  | [] => rfl
  | ⟨values, body⟩ :: rest => by
    have hvalues : (Json.ofOption (fun es : List Expr => .arr (es.map Expr.toJson)) values).floats =
        Expr.allFloats (values.getD []) := by
      cases values with
      | none => rfl
      | some es => exact Expr.floats_map_toJson es
    simp [Choice.listToJson, Json.floats, Json.itemFloats, Json.memberFloats, Choice.allFloats, hvalues,
      Scope.floats_parts body, Choice.floats_listToJson rest]

theorem Statement.floats_listToJson : ∀ ss : List Statement,
    Json.itemFloats (Statement.listToJson ss) = Statement.allFloats ss
  | [] => rfl
  | s :: rest => by
    rw [Statement.listToJson, Json.itemFloats, Statement.allFloats, Statement.floats_toJson s,
      Statement.floats_listToJson rest]

end

/-! ## What is written of a program -/

theorem Tree.Block.floats_toJson (b : Tree.Block) :
    b.toJson.floats = Statement.allFloats b.statements := by
  have haddress : (Json.ofOption Json.ofWord b.address).floats = [] := Json.floats_ofOption fun _ => rfl
  have hoptions : Json.itemFloats (b.options.map .str) = [] := Json.itemFloats_map_nil fun _ => rfl
  have hstatements : Json.itemFloats (b.statements.map Statement.toJson) =
      Statement.allFloats b.statements := by
    induction b.statements with
    | nil => rfl
    | cons s rest ih =>
      rw [List.map_cons, Json.itemFloats, ih, Statement.allFloats, Statement.floats_toJson]
  simp [toJson, Json.floats, Json.memberFloats, haddress, hoptions, hstatements, Position.floats_toJson]

theorem Tree.Module.floats_toJson (m : Tree.Module) :
    m.toJson.floats = m.blocks.flatMap fun b => Statement.allFloats b.statements := by
  simp [toJson, Json.floats, Json.memberFloats, Json.itemFloats_map, Block.floats_toJson]

/-- **The floats that are written are the literals of the program.** -/
theorem Tree.floats_toJson (t : Tree) : t.toJson.floats = t.floats := by
  have haddress : (Json.ofOption Json.ofWord t.loadAddress).floats = [] :=
    Json.floats_ofOption fun _ => rfl
  simp [toJson, Json.floats, Json.memberFloats, haddress, Json.itemFloats_map, Module.floats_toJson,
    floats, blocks, List.flatMap_assoc]

end StackCode
