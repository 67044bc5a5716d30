/-
The names that the code of an expression stores to. Most expressions only leave a value on
the stack. A call stores to the variables of the parameters, or to registers, and a builtin
that changes its argument in place stores to that, wherever in an expression the call is. These
are the names among the changes that the code makes.
-/
import StackCode.Proofs.Storage.Changes

namespace StackCode

/-! ## Instructions -/

/-- The opcode changes a variable, an element of one or a register that it has the name of. -/
def Opcode.isStore : Opcode → Bool
  | popVar _ | writeIndexed _ | incVar _ | decVar _ | incIndexed _ | decIndexed _ => true
  | _ => false

/-- The variable, the array or the register that an instruction changes. -/
def Instruction.stored? (i : Instruction) : Option String :=
  if i.opcode.isStore then i.label else none

/-- The names that code stores to, in order. -/
def storesOf (code : Code) : List String := code.filterMap (·.stored?)

theorem mem_storesOf {code : Code} {name : String} :
    name ∈ storesOf code ↔ ∃ i ∈ code, i.stored? = some name :=
  List.mem_filterMap

@[simp] theorem storesOf_nil : storesOf [] = [] := rfl

@[simp] theorem storesOf_append (code code' : Code) :
    storesOf (code ++ code') = storesOf code ++ storesOf code' :=
  List.filterMap_append

theorem storesOf_named {op : Opcode} (name : String) :
    storesOf [op.named name] = if op.isStore then [name] else [] := by
  simp only [storesOf, List.filterMap_cons, Instruction.stored?, Opcode.named, List.filterMap_nil]
  split <;> simp_all

/-! ## Shapes -/

/-- The name that a store to the place has. What lies at an address has none. -/
def Place.stores (symbols : SymbolTable) : Place → List String
  | var name =>
    if (symbols.var? name).any (·.storage = .plain) then [name] else []
  | register r => [r.name]
  | element array _ => [array]
  | memory _ => []

/-- The names that an argument for a carrier stores to, given those that its own code stores to. A pair
of registers takes a byte register by register, and a flag takes no code at all. -/
def Carrier.stores (symbols : SymbolTable) (c : Carrier) (arg : Expr) (names : List String) :
    List String :=
  match c with
  | register r => names ++ [r.name]
  | pair p =>
    names ++
      if arg.type? symbols = some .ubyte then [p.registers.1.name, p.registers.2.name] else []
  | flag _ => []

/-- The names that a call of the subroutine stores to. The arguments come with those of their own. -/
def Signature.stores (symbols : SymbolTable) (s : Signature) (args : List (Expr × List String)) :
    List String :=
  match s.machine with
  | some m => (m.parameters.zip args).flatMap fun (c, arg, names) => c.stores symbols arg names
  | none => (s.parameters.zip args).flatMap fun (p, _, names) => names ++ [s.slot p]

/-- The builtin stores to the places that it takes. -/
def BuiltinMethod.isInPlace : BuiltinMethod → Bool
  | swap | shift _ => true
  | _ => false

/-- Places are read first, each of them, and then written. Both times there is code for the index or the
address. -/
def Builtin.stores (symbols : SymbolTable) (b : Builtin) (args : List (Expr × List String)) :
    List String :=
  args.flatMap (·.2) ++
    if b.method.isInPlace then
      args.flatMap fun (arg, names) =>
        names ++ ((Place.ofExpr? arg).map (·.stores symbols)).getD []
    else []

def SymbolTable.stores (symbols : SymbolTable) (target : String) (args : List (Expr × List String)) :
    List String :=
  match symbols.find? target with
  | some (.subroutine s) => s.stores symbols args
  | some _ => []
  | none => ((Builtin.find? target).map (·.stores symbols args)).getD []

namespace Expr

mutual

/-- The names that the code of an expression stores to, in order. There is no code for the amount of a
shift, for a fixed address, or for a call that is a constant. -/
def stores (symbols : SymbolTable) : Expr → List String
  | unary _ e | cast e _ | element _ e => e.stores symbols
  | binary left (.shift _) _ => left.stores symbols
  | binary left _ right => left.stores symbols ++ right.stores symbols
  | memory address => if (address.constant? symbols).isSome then [] else address.stores symbols
  | call target args =>
    if (callConstant? symbols target args).isSome then []
    else symbols.stores target (withStores symbols args)
  | number _ | register _ | var _ | addressOf _ | range .. | structLiteral _ => []

/-- The expressions with the names that their code stores to. -/
def withStores (symbols : SymbolTable) : List Expr → List (Expr × List String)
  | [] => []
  | e :: es => (e, e.stores symbols) :: withStores symbols es

end

end Expr

/-! ## From changes to names -/

/-- The name of the variable, the array or the register that the change is made to by its name. -/
def Change.stored? : Change → Option String
  | store name | element name => some name
  | _ => none

/-- The names among changes, in order. -/
def Change.names (changes : List Change) : List String := changes.filterMap stored?

namespace Change

@[simp] theorem names_append (changes changes' : List Change) :
    names (changes ++ changes') = names changes ++ names changes' :=
  List.filterMap_append

theorem names_flatMap {α : Type} (xs : List α) (f : α → List Change) :
    names (xs.flatMap f) = xs.flatMap fun x => names (f x) :=
  List.filterMap_flatMap

end Change

theorem Instruction.stored?_eq (i : Instruction) : i.stored? = i.change?.bind Change.stored? := by
  obtain ⟨op, arg, arg2, label, payload⟩ := i
  cases op <;> cases label <;> rfl

theorem storesOf_eq (code : Code) : storesOf code = Change.names (changesOf code) := by
  rw [storesOf, Change.names, changesOf, List.filterMap_filterMap]
  exact congrArg (List.filterMap · code) (funext Instruction.stored?_eq)

variable {symbols : SymbolTable}

theorem Place.names_changes (p : Place) : Change.names (p.changes symbols) = p.stores symbols := by
  cases p with
  | var name =>
    rw [changes, stores]
    split <;> rfl
  | _ => rfl

theorem Carrier.names_changes (c : Carrier) (arg : Expr) (changes : List Change) :
    Change.names (c.changes symbols arg changes) = c.stores symbols arg (Change.names changes) := by
  cases c with
  | register r => exact Change.names_append _ _
  | pair p =>
    simp only [Carrier.changes, Carrier.stores, Change.names_append]
    split <;> rfl
  | flag f => rfl

theorem Carrier.names_resultChanges (c : Carrier) : Change.names c.resultChanges = [] := by
  rcases c with r | p | _ | _ <;> rfl

/-- Arguments with the names among their changes. -/
def Change.namesEach (args : List (Expr × List Change)) : List (Expr × List String) :=
  args.map fun x => (x.1, names x.2)

theorem Change.flatMap_zip_namesEach {α : Type} (xs : List α) (args : List (Expr × List Change))
    (g : α × Expr × List String → List String) : (xs.zip (namesEach args)).flatMap g =
      (xs.zip args).flatMap fun x => g (x.1, x.2.1, names x.2.2) := by
  rw [namesEach, List.zip_map_right, List.flatMap_map]
  rfl

theorem Signature.names_changes (s : Signature) (args : List (Expr × List Change)) :
    Change.names (s.changes symbols args) = s.stores symbols (Change.namesEach args) := by
  unfold changes stores
  cases s.machine with
  | none =>
    simp only [Change.names_flatMap, Change.names_append, Change.flatMap_zip_namesEach]
    rfl
  | some m =>
    have hbracket (changes : List Change) :
        Change.names (if m.keepsX then [.saveX] ++ changes ++ [.restoreX] else changes) =
          Change.names changes := by
      split
      · rw [Change.names_append, Change.names_append]
        exact List.append_nil _
      · rfl
    simp only [MachineConvention.changes, hbracket, Change.names_append, Change.names_flatMap,
      Carrier.names_changes, Carrier.names_resultChanges, Change.flatMap_zip_namesEach]
    simp

theorem Builtin.names_changes (b : Builtin) (args : List (Expr × List Change)) :
    Change.names (b.changes symbols args) = b.stores symbols (Change.namesEach args) := by
  have hargs : Change.names (args.flatMap (·.2)) = (Change.namesEach args).flatMap (·.2) := by
    rw [Change.names_flatMap, Change.namesEach, List.flatMap_map]
  have hplaces : Change.names (args.flatMap fun x =>
        x.2 ++ ((Place.ofExpr? x.1).map (·.changes symbols)).getD []) =
      (Change.namesEach args).flatMap fun x =>
        x.2 ++ ((Place.ofExpr? x.1).map (·.stores symbols)).getD [] := by
    rw [Change.names_flatMap, Change.namesEach, List.flatMap_map]
    refine List.flatMap_congr fun x _ => ?_
    rw [Change.names_append]
    cases Place.ofExpr? x.1 with
    | none => rfl
    | some p => exact congrArg (_ ++ ·) p.names_changes
  rw [changes, stores, Change.names_append, hargs]
  cases hm : b.method with
  | swap | shift => rw [BuiltinMethod.changes, hplaces]; rfl
  | opcode op => cases op <;> rfl
  | _ => rfl

theorem SymbolTable.names_changes (target : String) (args : List (Expr × List Change)) :
    Change.names (symbols.changes target args) = symbols.stores target (Change.namesEach args) := by
  rw [changes, stores]
  rcases symbols.find? target with _ | _ | s | _
  · cases Builtin.find? target with
    | none => rfl
    | some b => exact b.names_changes args
  · rfl
  · exact s.names_changes args
  · rfl

namespace Expr

mutual

theorem names_changes : ∀ e : Expr, Change.names (e.changes symbols) = e.stores symbols
  | .unary _ e | .cast e _ | .element _ e => names_changes e
  | .binary left (.shift _) _ => names_changes left
  | .binary left (.arithmetic _) right | .binary left (.connective _) right
  | .binary left (.comparison _) right => by
    rw [changes, stores, Change.names_append, names_changes left, names_changes right] <;> nofun
  | .memory address => by
    rw [changes, stores, ← names_changes address]
    split <;> rfl
  | .call target args => by
    rw [changes, stores, ← namesEach_withChanges args, ← symbols.names_changes]
    split <;> rfl
  | .number _ | .register _ | .var _ | .addressOf _ | .range .. | .structLiteral _ => rfl

theorem namesEach_withChanges : ∀ es : List Expr,
    Change.namesEach (withChanges symbols es) = withStores symbols es
  | [] => rfl
  | e :: es => by
    rw [withChanges, withStores, ← namesEach_withChanges es, ← names_changes e]
    rfl

end

/-- **The code of an expression stores to the names that the shape of the expression tells**, and to no
others. The same goes for the code that brings the value to a type. -/
theorem pushAs_stores {e : Expr} {t : DataType} {code : Code}
    (h : (e.operand symbols).pushAs symbols t = .ok code) : storesOf code = e.stores symbols := by
  have hchanges := (operand_changes e).pushAs code h
  rw [expr_operand] at hchanges
  rw [storesOf_eq, hchanges, names_changes]

end Expr

end StackCode
