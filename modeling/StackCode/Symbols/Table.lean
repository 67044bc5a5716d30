/-
The symbol table: what a scoped name stands for. A later declaration of a name
takes the place of an earlier one.
-/
import StackCode.Symbols.Declaration

namespace StackCode

/-- What is known of a variable. -/
structure VariableInfo where
  type : DataType
  storage : Storage := .plain
  /-- The number of elements of a string or an array. -/
  length : Option UInt16 := none
  /-- The member names of a struct variable, in order. -/
  members : List String := []
deriving DecidableEq, Repr

inductive Symbol where
  | var (info : VariableInfo)
  | subroutine (signature : Signature)
  | label
deriving DecidableEq, Repr

def VarDecl.info (d : VarDecl) : VariableInfo where
  type := d.type
  storage := d.storage
  length := d.length
  members := d.members

/-- The name and the meaning that a declaration brings in. -/
def Declaration.binding : Declaration → String × Symbol
  | var d => (d.name, .var d.info)
  | parameter s p => (s.slot p, .var { type := p.type })
  | label name => (name, .label)
  | subroutine s _ => (s.name, .subroutine s)

/-- Names with their meanings, each name once. -/
structure SymbolTable where
  bindings : List (String × Symbol) := []
deriving Repr

namespace SymbolTable

def insert (t : SymbolTable) (name : String) (s : Symbol) : SymbolTable where
  bindings := (name, s) :: t.bindings.filter (·.1 != name)

def ofDeclarations (ds : List Declaration) : SymbolTable :=
  ds.foldl (fun t d => t.insert d.binding.1 d.binding.2) {}

def ofTree (t : Tree) : SymbolTable := ofDeclarations t.declarations

def find? (t : SymbolTable) (name : String) : Option Symbol := t.bindings.lookup name

/-- The variable of the given name. -/
def var? (t : SymbolTable) (name : String) : Option VariableInfo :=
  match t.find? name with
  | some (.var info) => some info
  | _ => none

def size (t : SymbolTable) : Nat := t.bindings.length

end SymbolTable
end StackCode
