/-
What a program defines: labels, and names for fixed addresses.

There are two accounts of it. The declarations say what a statement list is going to
define, wherever in it that stands. The other account follows the text that is written:
a choice on a status flag that comes to nothing but its jumps is written without its
parts, and so it defines nothing.
-/
import StackCode.Proofs.Lowering.Shape

namespace StackCode

inductive Definition where
  | label (name : String)
  | pointer (p : MemoryPointer)
deriving DecidableEq, Repr

def Definition.name : Definition → String
  | label name => name
  | pointer p => p.name

def Definition.label? : Definition → Option String
  | label name => some name
  | pointer _ => none

/-- A subroutine of the program has a label. One outside of it has a name for its address. -/
def Signature.definition (s : Signature) : Definition :=
  match s.address? with
  | some address => .pointer ⟨s.name, address, .ubyte⟩
  | none => .label s.name

theorem Signature.definition_name (s : Signature) : s.definition.name = s.name := by
  unfold definition
  split <;> rfl

/-! ## What is declared -/

/-- The label or the subroutine that is declared. -/
def Declaration.definition? : Declaration → Option Definition
  | .label name => some (.label name)
  | .subroutine s _ => some s.definition
  | .var _ | .parameter .. => none

def Storage.address? : Storage → Option UInt16
  | memory address => some address
  | plain | const => none

/-- The name for a fixed address that a variable comes with. -/
def Declaration.pointer? : Declaration → Option Definition
  | .var d =>
    if d.type = .struct then none
    else d.storage.address?.map fun address => .pointer ⟨d.name, address, d.type⟩
  | .parameter .. | .label _ | .subroutine .. => none

theorem Declaration.definition?_name {d : Declaration} {x : Definition}
    (h : d.definition? = some x) : x.name = d.binding.1 := by
  cases d <;> cases h
  · rfl
  · exact Signature.definition_name _

theorem Declaration.pointer?_eq {d : Declaration} {x : Definition} (h : d.pointer? = some x) :
    ∃ v p, d = .var v ∧ x = .pointer p ∧ p.name = v.name := by
  unfold pointer? at h
  split at h
  next v =>
    split at h
    · cases h
    · obtain ⟨address, -, rfl⟩ := Option.map_eq_some_iff.1 h
      exact ⟨v, _, rfl, rfl, rfl⟩
  all_goals cases h

/-- The labels and subroutines that a program declares. -/
def Tree.promised (t : Tree) : List Definition := t.declarations.filterMap (·.definition?)

/-- The names of the labels and subroutines that a program declares. -/
def Tree.ownNames (t : Tree) : List String := t.promised.map (·.name)

/-! ## What is written -/

mutual

/-- The definitions in the text of a statement that have a name from the source. -/
def Statement.definitions : Statement → List Definition
  | .label name _ => [.label name]
  | .cond _ thenPart elsePart _ => thenPart.definitions ++ elsePart.definitions
  | .branch _ thenPart elsePart _ =>
    if (branchJumps? thenPart elsePart).isSome then []
    else thenPart.definitions ++ elsePart.definitions
  | .forEach _ _ _ body _ | .whileLoop _ body _ | .repeatLoop body _ _ => body.definitions
  | .scope s => s.definitions
  | .subroutine s body _ => s.definition :: Statement.allDefinitions body
  | .choose _ choices _ => Choice.definitions choices
  | _ => []

def Scope.definitions : Scope → List Definition
  | ⟨_, statements, _⟩ => Statement.allDefinitions statements

def Choice.definitions : List Choice → List Definition
  | [] => []
  | ⟨_, body⟩ :: rest => body.definitions ++ Choice.definitions rest

def Statement.allDefinitions : List Statement → List Definition
  | [] => []
  | s :: rest => s.definitions ++ Statement.allDefinitions rest

end

/-- The labels and subroutines in the text of a program. -/
def Tree.written (t : Tree) : List Definition :=
  t.blocks.flatMap fun b => Statement.allDefinitions b.statements

/-! ## Nothing is written that is not declared -/

mutual

theorem Statement.definitions_sublist :
    ∀ s : Statement, s.definitions.Sublist ((Declaration.ofStatement s).filterMap (·.definition?))
  | .label _ _ => .refl _
  | .cond _ thenPart elsePart _ => by
    rw [Declaration.ofStatement, List.filterMap_append]
    exact thenPart.definitions_sublist.append elsePart.definitions_sublist
  | .branch _ thenPart elsePart _ => by
    rw [Statement.definitions, Declaration.ofStatement, List.filterMap_append]
    split
    · exact List.nil_sublist _
    · exact thenPart.definitions_sublist.append elsePart.definitions_sublist
  | .forEach _ _ _ body _ | .whileLoop _ body _ | .repeatLoop body _ _ => body.definitions_sublist
  | .scope s => s.definitions_sublist
  | .subroutine s body _ => by
    have hnone : (Declaration.parameters s).filterMap (·.definition?) = [] := by
      unfold Declaration.parameters
      split <;> simp [Declaration.definition?]
    rw [Declaration.ofStatement, List.cons_append, List.filterMap_cons, List.filterMap_append, hnone]
    exact (Statement.allDefinitions_sublist body).cons_cons _
  | .choose _ choices _ => Choice.definitions_sublist choices
  | .varDecl _ | .assign .. | .step .. | .jump .. | .call .. | .exit .. | .ret .. | .returnFromIrq _
  | .directive .. | .assembly .. | .nop => List.nil_sublist _

theorem Scope.definitions_sublist :
    ∀ s : Scope, s.definitions.Sublist ((Declaration.ofScope s).filterMap (·.definition?))
  | ⟨_, statements, _⟩ => Statement.allDefinitions_sublist statements

theorem Choice.definitions_sublist : ∀ cs : List Choice,
    (Choice.definitions cs).Sublist ((Declaration.ofChoices cs).filterMap (·.definition?))
  | [] => .refl _
  | ⟨_, body⟩ :: rest => by
    rw [Declaration.ofChoices, List.filterMap_append]
    exact body.definitions_sublist.append (Choice.definitions_sublist rest)

theorem Statement.allDefinitions_sublist : ∀ ss : List Statement,
    (Statement.allDefinitions ss).Sublist ((Declaration.ofList ss).filterMap (·.definition?))
  | [] => .refl _
  | s :: rest => by
    rw [Declaration.ofList, List.filterMap_append]
    exact s.definitions_sublist.append (Statement.allDefinitions_sublist rest)

end

theorem Tree.written_sublist (t : Tree) : t.written.Sublist t.promised := by
  unfold written promised declarations
  induction t.blocks with
  | nil => exact .refl _
  | cons b bs ih =>
    rw [List.flatMap_cons, List.flatMap_cons, List.filterMap_append]
    exact (Statement.allDefinitions_sublist b.statements).append ih

/-! ## Statements without definitions -/

theorem Statement.allDefinitions_eq_nil {ss : List Statement} (h : ∀ s ∈ ss, s.definitions = []) :
    Statement.allDefinitions ss = [] := by
  induction ss with
  | nil => rfl
  | cons s ss ih =>
    rw [allDefinitions, h s List.mem_cons_self, List.nil_append]
    exact ih fun x hx => h x (List.mem_cons_of_mem _ hx)

theorem Statement.allDefinitions_of_nops {ss : List Statement} (h : ss.all (·.isNop)) :
    Statement.allDefinitions ss = [] :=
  allDefinitions_eq_nil fun _ hs => by rw [eq_nop_of_all h hs]; rfl

theorem Scope.definitions_of_isIdle : ∀ {s : Scope}, s.isIdle → s.definitions = []
  | ⟨_, _, _⟩, h => Statement.allDefinitions_of_nops h

theorem Scope.definitions_of_onlyJump {s : Scope} {jump : JumpTarget × Position}
    (h : s.onlyJump? = some jump) : s.definitions = [] := by
  have hs : s.statements = [.jump jump.1 jump.2] := onlyJump?_ok h
  obtain ⟨name, statements, position⟩ := s
  cases hs
  rfl

/-- A subroutine that is all assembly defines nothing in its body. -/
theorem Statement.allDefinitions_of_soleAssembly {body : List Statement} {sole : String × Position}
    (h : soleAssembly? body = some sole) : Statement.allDefinitions body = [] := by
  refine allDefinitions_eq_nil fun s hs => ?_
  obtain ⟨d, rfl⟩ | rfl | ⟨text, position, rfl⟩ := soleAssembly?_ok h hs <;> rfl

end StackCode
