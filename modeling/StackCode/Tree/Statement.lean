/-
The checked program tree: modules of blocks of statements.

Names are resolved and fully scoped, declarations stand before their uses, and
constants have been replaced by their values. Subroutines may be defined inside
any statement list.
-/
import StackCode.Program.Basic
import StackCode.Tree.Expr

namespace StackCode

/-- A place in the source text. Line zero is an unknown place. -/
structure Position where
  file : String := ""
  line : UInt32 := 0
deriving DecidableEq, Repr

structure VarDecl where
  name : String
  type : DataType
  storage : Storage
  /-- The number of elements of a string or an array. -/
  length : Option UInt16
  /-- The member names of a struct variable, in order. -/
  members : List String
  position : Position
deriving DecidableEq, Repr

/-- The name of the variable that holds a member of a struct variable. -/
def memberName (variableName member : String) : String := variableName ++ "$" ++ member

inductive JumpTarget where
  | address (address : UInt16)
  /-- A label or a subroutine of the program. -/
  | named (name : String)
  /-- A label that stands for itself. -/
  | generated (label : String)
deriving DecidableEq, Repr

/-- The two ways to leave a round of a loop. -/
inductive LoopExit where
  | leave
  | next
deriving DecidableEq, Repr

def LoopExit.name : LoopExit → String
  | leave => "break"
  | next => "continue"

inductive DirectiveArg where
  | int (n : Int64)
  | str (s : String)
deriving DecidableEq, Repr

/-! ## Subroutines -/

structure Parameter where
  name : String
  type : DataType
deriving DecidableEq, Repr

/-- How a machine subroutine is called. -/
structure MachineConvention where
  /-- The fixed address of a subroutine outside the program. -/
  address : Option UInt16
  parameters : List Carrier
  returns : List Carrier
  /-- The registers that do not survive a call. -/
  clobbers : List Register
deriving DecidableEq, Repr

/-- What a caller needs to know about a subroutine. -/
structure Signature where
  name : String
  parameters : List Parameter
  returnTypes : List DataType
  /-- The convention of a machine subroutine. An ordinary one has none. -/
  machine : Option MachineConvention
deriving DecidableEq, Repr

namespace Signature

/-- The variable that a parameter arrives in. -/
def slot (s : Signature) (p : Parameter) : String := s.name ++ "." ++ p.name

def clobbers (s : Signature) (r : Register) : Bool :=
  match s.machine with
  | some machine => machine.clobbers.contains r
  | none => false

/-- The fixed address of a subroutine outside the program. -/
def address? (s : Signature) : Option UInt16 := s.machine.bind (·.address)

end Signature

/-! ## Statements -/

mutual

inductive Statement where
  | varDecl (d : VarDecl)
  | label (name : String) (position : Position)
  | assign (place : Place) (value : Expr) (position : Position)
  | step (place : Place) (op : Increment) (position : Position)
  | jump (target : JumpTarget) (position : Position)
  | call (target : String) (args : List Expr) (position : Position)
  | cond (condition : Expr) (thenPart elsePart : Scope) (position : Position)
  | branch (condition : FlagCondition) (thenPart elsePart : Scope) (position : Position)
  | exit (kind : LoopExit) (position : Position)
  /-- The counter is the register if there is one, else the variable. -/
  | forEach (register : Option Register) (variableName : Option String) (iterable : Expr)
      (body : Scope) (position : Position)
  | whileLoop (condition : Expr) (body : Scope) (position : Position)
  | repeatLoop (body : Scope) (condition : Expr) (position : Position)
  | scope (s : Scope)
  | ret (values : List Expr) (position : Position)
  | returnFromIrq (position : Position)
  | directive (name : String) (args : List DirectiveArg) (position : Position)
  | subroutine (signature : Signature) (body : List Statement) (position : Position)
  | assembly (text : String) (position : Position)
  | choose (condition : Expr) (choices : List Choice) (position : Position)
  | nop

/-- A nested statement list. An empty name stands for the name of the scope around it. -/
structure Scope where
  name : String
  statements : List Statement
  position : Position

/-- One choice of many. The choice without values is the one for all other cases. -/
structure Choice where
  values : Option (List Expr)
  body : Scope

end

instance : Inhabited Statement := ⟨.nop⟩

/-- The scope that stands where none was written. -/
def Scope.empty : Scope where
  name := ""
  statements := []
  position := {}

def Statement.isNop : Statement → Bool
  | nop => true
  | _ => false

/-- The scope declares nothing and does nothing. -/
def Scope.isIdle (s : Scope) : Bool := s.statements.all (·.isNop)

/-- The scoped name of a scope inside another one. -/
def Scope.nameIn (s : Scope) (enclosing : String) : String :=
  if s.name.isEmpty then enclosing else s.name

/-! ## Programs -/

structure Tree.Block where
  name : String
  address : Option UInt16
  options : List String
  statements : List Statement
  position : Position

structure Tree.Module where
  name : String
  /-- The path of the source file. -/
  source : String
  blocks : List Tree.Block

/-- A checked program. -/
structure Tree where
  name : String
  loadAddress : Option UInt16
  modules : List Tree.Module

def Tree.blocks (t : Tree) : List Tree.Block := t.modules.flatMap (·.blocks)

end StackCode
