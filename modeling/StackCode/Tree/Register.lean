/-
The CPU registers and status flags that a program names: as byte variables, as
conditions, and as the carriers of the parameters and results of machine
subroutines.
-/
import StackCode.Opcode.Mnemonic

namespace StackCode

inductive Register where
  | a
  | x
  | y
deriving DecidableEq, Repr

namespace Register

def all : List Register := [a, x, y]

def name : Register → String
  | a => "A"
  | x => "X"
  | y => "Y"

end Register

inductive StatusFlag where
  | carry
  | zero
  | overflow
  | negative
deriving DecidableEq, Repr

namespace StatusFlag

def all : List StatusFlag := [carry, zero, overflow, negative]

def name : StatusFlag → String
  | carry => "pc"
  | zero => "pz"
  | overflow => "pv"
  | negative => "pn"

end StatusFlag

/-- What carries a parameter into a machine subroutine, or a result out of it. -/
inductive Carrier where
  | register (r : Register)
  | pair (p : RegisterPair)
  | flag (f : StatusFlag)
deriving DecidableEq, Repr

namespace Carrier

/-- The carriers that hold a number. -/
def registers : List Carrier := Register.all.map register ++ RegisterPair.all.map pair

/-- The name of a register, a pair or a flag. -/
def name : Carrier → String
  | register r => r.name
  | pair p => p.name
  | flag f => f.name

/-- The carriers that take up a register. -/
def uses (c : Carrier) (r : Register) : Bool :=
  match c with
  | register s => s = r
  | pair .ax => r = .a || r = .x
  | pair .ay => r = .a || r = .y
  | pair .xy => r = .x || r = .y
  | flag _ => false

end Carrier

/-- A condition on a status flag. Some conditions have two spellings. -/
inductive FlagCondition where
  | cs
  | cc
  | eq
  | z
  | ne
  | nz
  | vs
  | vc
  | mi
  | neg
  | pl
  | pos
deriving DecidableEq, Repr

namespace FlagCondition

def all : List FlagCondition := [cs, cc, eq, z, ne, nz, vs, vc, mi, neg, pl, pos]

def name : FlagCondition → String
  | cs => "cs"
  | cc => "cc"
  | eq => "eq"
  | z => "z"
  | ne => "ne"
  | nz => "nz"
  | vs => "vs"
  | vc => "vc"
  | mi => "mi"
  | neg => "neg"
  | pl => "pl"
  | pos => "pos"

/-- The test that the condition asks for. -/
def test : FlagCondition → FlagTest
  | cs => .carrySet
  | cc => .carryClear
  | eq | z => .zero
  | ne | nz => .notZero
  | vs => .overflowSet
  | vc => .overflowClear
  | mi | neg => .negative
  | pl | pos => .positive

end FlagCondition
end StackCode
