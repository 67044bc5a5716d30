/-
Reading a decimal as a float in one floating-point operation.

The significand is taken as far as it fits 64 bits and is rounded to a float, and
the power of ten is applied by one multiplication or division. So a long
significand may be read as a neighbour of the float nearest to it; short ones are
exact.
-/
namespace StackCode.Decimal

/-- The greatest significand: what fits 64 bits. -/
def maxSignificand : Nat := UInt64.size - 1

/-- Appends digits to a significand until it would no longer fit. Gives the significand and the
number of digits that were taken. -/
def takeDigits (significand : Nat) : List Char → Nat × Nat
  | [] => (significand, 0)
  | c :: cs =>
    let next := significand * 10 + (c.toNat - '0'.toNat)
    if maxSignificand < next then (significand, 0)
    else
      let (total, taken) := takeDigits next cs
      (total, taken + 1)

def powerOfTen (n : Nat) : Float := Float.ofScientific 1 false n

/-- The greatest power of ten that is a float. -/
def maxPower : Nat := 308

/-- `x / 10^n`, in steps that are powers of ten themselves. -/
def divPower (x : Float) (n : Nat) : Float :=
  if n ≤ maxPower then x / powerOfTen n
  else if x == 0.0 then x
  else divPower (x / powerOfTen maxPower) (n - maxPower)
termination_by n
decreasing_by simp [maxPower] at *; omega

/-- The magnitude `whole.fraction * 10^exponent`, or `none` if it is beyond the floats. -/
def read? (whole fraction : List Char) (exponent : Int) : Option Float :=
  let (head, taken) := takeDigits 0 whole
  let (significand, places) := takeDigits head fraction
  let exponent := exponent + (whole.length - taken : Nat) - (places : Nat)
  let x := Float.ofNat significand
  if exponent < 0 then some (divPower x exponent.natAbs)
  else if maxPower < exponent.natAbs then if x == 0.0 then some x else none
  else
    let y := x * powerOfTen exponent.natAbs
    if y.isInf then none else some y

end StackCode.Decimal
