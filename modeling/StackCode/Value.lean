/-
Immediate values: what an instruction carries as its operand.

A value is an integer of one of the integer types, within the range of that
type, or a float. So a literal that does not fit its type is refused when it is
built and never reaches an instruction.
-/
import StackCode.DataType.Basic
import StackCode.Decimal.Layout
import StackCode.Json.Basic

namespace StackCode

/-- A typed immediate operand. -/
inductive Value where
  | int (t : IntType) (n : Int) (inRange : t.Holds n)
  | float (x : Float)
deriving DecidableEq, Repr

/-- Why a value cannot be built. -/
inductive ValueError where
  /-- The integer does not fit the type. -/
  | outOfRange (n : Int) (t : DataType)
  /-- A NaN or an infinity fits no integer type. -/
  | notFinite (x : Float) (t : DataType)
  | notNumeric (t : DataType)
deriving DecidableEq, Repr

def ValueError.message : ValueError → String
  | outOfRange n t => s!"value {n} out of range for {t}"
  | notFinite x t => s!"value {Decimal.listing.render x} out of range for {t}"
  | notNumeric t => s!"{t} is not a numeric type"

namespace Value

instance : Inhabited Value := ⟨.float 0.0⟩

/-- The integer of the given type that has the low bits of `n`. -/
def wrapped (t : IntType) (n : Int) : Value := int t (t.wrap n) (t.holds_wrap n)

/-- The integer `n` as a value of the given type, or an error if it does not fit. -/
def ofInt (n : Int) (t : DataType) : Except ValueError Value :=
  match t with
  | .int t => if h : t.Holds n then .ok (int t n h) else .error (.outOfRange n (.int t))
  | .float => .ok (float (Float.ofInt n))
  | t => .error (.notNumeric t)

/-- A float as a value of the given type. For an integer type it is cut off towards zero; beyond 64
bits the nearest 64-bit integer stands for it. -/
def ofFloat (x : Float) (t : DataType) : Except ValueError Value :=
  match t with
  | .float => .ok (float x)
  | t => if x.isFinite then ofInt x.toModel.toInt64.toInt t else .error (.notFinite x t)

/-- The smallest type that holds `n`: ubyte, byte, uword, then word. -/
def ofIntSmallest (n : Int) : Except ValueError Value :=
  let fits (t : IntType) : Bool := t.Holds n
  if fits .ubyte then ofInt n .ubyte
  else if fits .byte then ofInt n .byte
  else if fits .uword then ofInt n .uword
  else ofInt n .word

/-- A memory address. -/
def ofAddress (address : UInt16) : Value := wrapped .uword address.toNat

def type : Value → NumType
  | int t _ _ => .int t
  | float _ => .float

def int? : Value → Option Int
  | int _ n _ => some n
  | float _ => none

def toFloat : Value → Float
  | int _ n _ => Float.ofInt n
  | float x => x

/-- Everything but zero is true. -/
def isTrue : Value → Bool
  | int _ n _ => n ≠ 0
  | float x => x != 0.0

/-- The conversion of the cast instructions: integers keep their low bits, floats are cut off
towards zero and must then fit. -/
def cast (v : Value) (t : DataType) : Except ValueError Value :=
  match v, t with
  | v, .float => .ok (float v.toFloat)
  | int _ n _, .int t => .ok (wrapped t n)
  | v, t => ofFloat v.toFloat t

/-- Equality as the machine compares: floats by value, so no NaN equals itself. -/
def same : Value → Value → Bool
  | int t m _, int u n _ => t = u && m = n
  | float x, float y => x == y
  | _, _ => false

/-! ## Text and data -/

/-- Integers up to 15 are written in decimal and larger ones in hexadecimal, padded to the width of
a byte or a word. -/
def listing : Value → String
  | int _ n _ =>
    let digits := String.ofList (Nat.toDigits 16 n.natAbs)
    let magnitude :=
      if n.natAbs ≤ 15 then toString n.natAbs
      else if n.natAbs ≤ 0xff then "$" ++ digits
      else "$" ++ "".pushn '0' (4 - digits.length) ++ digits
    if n < 0 then "-" ++ magnitude else magnitude
  | float x => Decimal.listing.render x

instance : ToString Value := ⟨listing⟩

def toJson (v : Value) : Json :=
  .obj [("type", .str v.type.name),
    ("value",
      match v with
      | int _ n _ => .int n
      | float x => .float x)]

/-- A value of the named type. Integers must be written as integers, floats may be. -/
def ofJson? (standing : Json.Standing) (j : Json) : Option Value := do
  let type ← (← j.member? "type").oneOf? standing (·.name) NumType.all
  let n ← j.member? "value"
  match type with
  | .int t => (n.intBetween? t.lo t.hi).bind fun n => (ofInt n (.int t)).toOption
  | .float => n.number?.map float

end Value
end StackCode
