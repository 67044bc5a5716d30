/-
How a float is written: the digits come from `Decimal.Shortest`, and a `Layout`
holds the choices of one output format. The three formats of this library stand
at the end.
-/
import StackCode.Decimal.Shortest

namespace StackCode.Decimal

/-- The choices of an output format for floats. -/
structure Layout where
  /-- Whether a number whose first digit stands for this power of ten is written out in full. -/
  isPlain : Int → Bool
  /-- An integral number ends in `.0`. -/
  pointZero : Bool
  /-- A positive exponent has a sign. -/
  plusSign : Bool
  tie : Tie
  nan : String := "NaN"
  infinity : String := "inf"
  negInfinity : String := "-inf"

/-- The digits of `d` with the point where it belongs. -/
def Dec.plain (d : Dec) (pointZero : Bool) : String :=
  let digits := Nat.toDigits 10 d.digits
  if 0 ≤ d.exp then
    String.ofList (digits ++ List.replicate d.exp.toNat '0') ++ if pointZero then ".0" else ""
  else
    let places := (-d.exp).toNat
    -- At least one digit before the point.
    let padded := List.replicate (places + 1 - digits.length) '0' ++ digits
    let whole := padded.length - places
    String.ofList (padded.take whole ++ '.' :: padded.drop whole)

/-- One digit before the point, and the power of ten behind `e`. -/
def Dec.scientific (d : Dec) (plusSign : Bool) : String :=
  let digits := Nat.toDigits 10 d.digits
  let exponent := d.exp + (digits.length - 1 : Nat)
  let mantissa :=
    match digits with
    | c :: rest@(_ :: _) => c :: '.' :: rest
    | _ => digits
  let sign := if plusSign && 0 ≤ exponent then "+" else ""
  String.ofList mantissa ++ "e" ++ sign ++ toString exponent

/-- Writes the magnitude of a finite float. -/
def Layout.magnitude (l : Layout) (x : Float) : String :=
  let b := Binary.ofFloat x
  if b.m = 0 then if l.pointZero then "0.0" else "0"
  else
    let d := b.shortest l.tie
    let exponent := d.exp + ((Nat.toDigits 10 d.digits).length - 1 : Nat)
    if l.isPlain exponent then d.plain l.pointZero else d.scientific l.plusSign

/-- Writes a float. -/
def Layout.render (l : Layout) (x : Float) : String :=
  let isNegative := x.toBits >>> 63 == 1
  if x.isNaN then l.nan
  else if x.isInf then if isNegative then l.negInfinity else l.infinity
  else if isNegative then "-" ++ l.magnitude x
  else l.magnitude x

/-! ## The formats -/

/-- Listings and messages: never an exponent, and no `.0`. -/
def listing : Layout where
  isPlain _ := true
  pointZero := false
  plusSign := false
  tie := .up

/-- Trees shown in messages: always a point or an exponent, which is used below `10^-4` and from
`10^16` on. -/
def tree : Layout where
  isPlain e := -4 ≤ e && e < 16
  pointZero := true
  plusSign := false
  tie := .up

/-- Serialized data: always a point or an exponent, which is used below `10^-5` and from `10^16`
on; what is not a number is `null`. -/
def json : Layout where
  isPlain e := -5 ≤ e && e < 16
  pointZero := true
  plusSign := true
  tie := .toEven
  nan := "null"
  infinity := "null"
  negInfinity := "null"

end StackCode.Decimal
