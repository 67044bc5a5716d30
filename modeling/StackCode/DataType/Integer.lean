/-
The integer types of the stack machine: unsigned and signed integers of one or two
bytes, and what of an integer fits them.
-/
namespace StackCode

/-- The size of an integer on the stack. -/
inductive IntSize where
  | byte
  | word
deriving DecidableEq, Repr

/-- The size of a stack slot: an integer of some size, or a float. -/
inductive Size where
  | int (s : IntSize)
  | float
deriving DecidableEq, Repr

@[match_pattern] abbrev Size.byte : Size := .int .byte
@[match_pattern] abbrev Size.word : Size := .int .word

namespace IntSize

def all : List IntSize := [byte, word]

/-- The number of different bit patterns. -/
def modulus : IntSize → Nat
  | byte => 256
  | word => 65536

/-- The part of a mnemonic that tells this size. -/
def tag : IntSize → String
  | byte => "BYTE"
  | word => "WORD"

end IntSize

def Size.all : List Size := IntSize.all.map .int ++ [.float]

def Size.tag : Size → String
  | .int s => s.tag
  | .float => "FLOAT"

/-! ## Integer types -/

/-- An integer type of the machine. -/
inductive IntType where
  | ubyte
  | byte
  | uword
  | word
deriving DecidableEq, Repr

namespace IntType

def all : List IntType := [ubyte, byte, uword, word]

def size : IntType → IntSize
  | ubyte | byte => .byte
  | uword | word => .word

def isSigned : IntType → Bool
  | ubyte | uword => false
  | byte | word => true

/-- The least integer of the type. -/
def lo (t : IntType) : Int :=
  if t.isSigned then -(t.size.modulus / 2 : Nat) else 0

/-- The greatest integer of the type. -/
def hi (t : IntType) : Int :=
  if t.isSigned then (t.size.modulus / 2 : Nat) - 1 else (t.size.modulus : Int) - 1

/-- `n` is an integer of the type. -/
def Holds (t : IntType) (n : Int) : Prop := t.lo ≤ n ∧ n ≤ t.hi

instance (t : IntType) (n : Int) : Decidable (t.Holds n) :=
  inferInstanceAs (Decidable (t.lo ≤ n ∧ n ≤ t.hi))

/-- The integer of the type that has the low bits of `n`. -/
def wrap (t : IntType) (n : Int) : Int :=
  if t.isSigned then n.bmod t.size.modulus else n % t.size.modulus

theorem holds_wrap (t : IntType) (n : Int) : t.Holds (t.wrap n) := by
  cases t <;>
    simp only [Holds, lo, hi, wrap, isSigned, size, IntSize.modulus, Int.bmod] <;>
    simp <;> omega

/-- An integer of the type is its own wrapping. -/
theorem wrap_eq_self {t : IntType} {n : Int} (h : t.Holds n) : t.wrap n = n := by
  cases t <;>
    simp only [Holds, lo, hi, wrap, isSigned, size, IntSize.modulus, Int.bmod] at * <;>
    simp at * <;> omega

def tag : IntType → String
  | ubyte => "UB"
  | byte => "B"
  | uword => "UW"
  | word => "W"

def name : IntType → String
  | ubyte => "ubyte"
  | byte => "byte"
  | uword => "uword"
  | word => "word"

end IntType

end StackCode
