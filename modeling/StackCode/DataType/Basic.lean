/-
The types of the stack machine.

The machine computes on five numeric types: unsigned and signed integers of one
or two bytes, and floats. Besides them a program knows strings in two encodings,
arrays of each numeric type, and structs; these live on the heap and are handled
by address.

Widening goes one way: byte to word to float. Signedness is not ranked, so a
conversion between two types of one size only reads the same bits differently.
-/
import StackCode.DataType.Integer

namespace StackCode

/-! ## Numeric types -/

/-- A type whose values the machine keeps on its stack. -/
inductive NumType where
  | int (t : IntType)
  | float
deriving DecidableEq, Repr

namespace NumType

def all : List NumType := IntType.all.map int ++ [float]

def size : NumType → Size
  | int t => .int t.size
  | float => .float

/-- Rank in the widening order: byte, word, float. -/
def rank (t : NumType) : Nat :=
  match t.size with
  | .byte => 0
  | .word => 1
  | .float => 2

def isSigned : NumType → Bool
  | int t => t.isSigned
  | float => true

def tag : NumType → String
  | int t => t.tag
  | float => "F"

def name : NumType → String
  | int t => t.name
  | float => "float"

end NumType

/-! ## All types -/

/-- A type of a program. -/
inductive DataType where
  | num (t : NumType)
  /-- A string. -/
  | str
  /-- A string in screen codes. -/
  | strS
  | array (elem : NumType)
  | struct
deriving DecidableEq, Repr

namespace DataType

@[match_pattern] abbrev int (t : IntType) : DataType := .num (.int t)
@[match_pattern] abbrev ubyte : DataType := .int .ubyte
@[match_pattern] abbrev byte : DataType := .int .byte
@[match_pattern] abbrev uword : DataType := .int .uword
@[match_pattern] abbrev word : DataType := .int .word
@[match_pattern] abbrev float : DataType := .num .float

def all : List DataType :=
  NumType.all.map num ++ [str, strS] ++ NumType.all.map array ++ [struct]

/-- The numeric type that this type is, if it is one. -/
def num? : DataType → Option NumType
  | num t => some t
  | _ => none

/-- The integer type that this type is, if it is one. -/
def int? : DataType → Option IntType
  | int t => some t
  | _ => none

def isByte : DataType → Bool
  | int t => t.size = .byte
  | _ => false

def isWord : DataType → Bool
  | int t => t.size = .word
  | _ => false

def isInteger (t : DataType) : Bool := t.int?.isSome

def isNumeric (t : DataType) : Bool := t.num?.isSome

def isSigned : DataType → Bool
  | num t => t.isSigned
  | _ => false

def isString : DataType → Bool
  | str | strS => true
  | _ => false

def isArray : DataType → Bool
  | array _ => true
  | _ => false

/-- Strings and arrays: values with elements. -/
def isIterable (t : DataType) : Bool := t.isString || t.isArray

/-- The type of the elements of an iterable. -/
def element? : DataType → Option NumType
  | str | strS => some (.int .ubyte)
  | array t => some t
  | _ => none

def rank? (t : DataType) : Option Nat := t.num?.map NumType.rank

/-- A value of this type does not fit `other` without losing range. Types without a rank are never
wider, and nothing is wider than they are. -/
def isWiderThan (t other : DataType) : Bool :=
  match t.rank?, other.rank? with
  | some m, some n => n < m
  | _, _ => false

/-- The least and the greatest integer of an integer type. -/
def integerRange? (t : DataType) : Option (Int × Int) := t.int?.map fun t => (t.lo, t.hi)

/-- The name in messages and listings. -/
def name : DataType → String
  | num t => t.name
  | str => "str"
  | strS => "str_s"
  | array t => t.name ++ "[]"
  | struct => "struct"

instance : ToString DataType := ⟨name⟩

/-- The name in program trees and serialized programs. -/
def key : DataType → String
  | array t => "array_" ++ t.tag.toLower
  | t => t.name

def ofKey? (s : String) : Option DataType := all.find? (·.key == s)

end DataType
end StackCode
