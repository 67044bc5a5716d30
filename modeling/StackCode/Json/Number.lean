/-
The numbers of a JSON text.

Whether characters are a number is a matter of their form alone. A number may have
no value: one that is too large for a float.
-/
import StackCode.Decimal.Reading
import StackCode.Json.Basic

namespace StackCode.Json

def isNumberChar (c : Char) : Bool :=
  c.isDigit || c == '-' || c == '+' || c == '.' || c == 'e' || c == 'E'

/-- The value of a list of decimal digits. -/
def digitsValue (cs : List Char) : Nat :=
  cs.foldl (fun n c => n * 10 + (c.toNat - '0'.toNat)) 0

/-- Digits, at least one. -/
def digits? (cs : List Char) : Option (List Char) :=
  if !cs.isEmpty && cs.all Char.isDigit then some cs else none

/-- The digits before the point: no zero stands in front of others. -/
def whole? (cs : List Char) : Option (List Char) :=
  match cs with
  | '0' :: _ :: _ => none
  | _ => digits? cs

def exponent? : List Char → Option Int
  | '+' :: cs => (digits? cs).map fun ds => (digitsValue ds : Int)
  | '-' :: cs => (digits? cs).map fun ds => -(digitsValue ds : Int)
  | cs => (digits? cs).map fun ds => (digitsValue ds : Int)

/-- The parts of an unsigned number: the digits before the point, those behind it, and the
exponent. -/
structure NumberParts where
  whole : List Char
  fraction : Option (List Char)
  exponent : Option Int

def isExponentMark (c : Char) : Bool := c == 'e' || c == 'E'

def NumberParts.ofChars? (cs : List Char) : Option NumberParts := do
  let mantissa := cs.takeWhile (!isExponentMark ·)
  let exponent ←
    match cs.dropWhile (!isExponentMark ·) with
    | [] => some none
    | _ :: rest => (exponent? rest).map some
  let whole ← whole? (mantissa.takeWhile (· != '.'))
  let fraction ←
    match mantissa.dropWhile (· != '.') with
    | [] => some none
    | _ :: rest => (digits? rest).map some
  some ⟨whole, fraction, exponent⟩

/-- The magnitude as a float. -/
def NumberParts.float? (p : NumberParts) : Option Float :=
  Decimal.read? p.whole (p.fraction.getD []) (p.exponent.getD 0)

/-- The number that is written without point and exponent, if it is. -/
def NumberParts.nat? (p : NumberParts) : Option Nat :=
  match p.fraction, p.exponent with
  | none, none => some (digitsValue p.whole)
  | _, _ => none

/-- The value behind a sign. What has a point or an exponent is a float, and so are negative zero
and integers beyond 64 bits. -/
def NumberParts.value? (negative : Bool) (p : NumberParts) : Option Json :=
  let asFloat := p.float?.map fun x => float (if negative then -x else x)
  match negative, p.nat? with
  | true, some n => if n = 0 ∨ UInt64.size / 2 < n then asFloat else some (int (-n))
  | false, some n => if UInt64.size ≤ n then asFloat else some (int n)
  | _, none => asFloat

/-- A number as it is written: its sign and its parts. -/
structure Number where
  negative : Bool
  parts : NumberParts

def Number.ofChars? : List Char → Option Number
  | '-' :: cs => (NumberParts.ofChars? cs).map (⟨true, ·⟩)
  | cs => (NumberParts.ofChars? cs).map (⟨false, ·⟩)

def Number.value? (n : Number) : Option Json := n.parts.value? n.negative

end StackCode.Json
