/-
The shortest decimal that reads back as a given float.

A positive finite float is `m * 2^q`. The decimals that read back as it lie
between the midpoints to its two neighbours, the midpoints included exactly when
`m` is even. The fewest digits are those of the coarsest power of ten that has a
multiple in there, and of two such multiples the nearer one is taken; only a tie
is left to the caller.
-/
namespace StackCode.Decimal

/-- A finite positive float, `m * 2^q`. -/
structure Binary where
  m : Nat
  q : Int
  /-- The neighbour below is half as far away as the neighbour above. -/
  narrowBelow : Bool
deriving DecidableEq, Repr

/-- The bit of the significand that is not stored. It stands above the 52 bits that are. -/
def hiddenBit : Nat := 0x10000000000000

/-- The magnitude of a finite float. -/
def Binary.ofFloat (x : Float) : Binary :=
  let bits := x.toBits.toNat
  let exponent : Nat := bits / hiddenBit % 0x800
  let fraction : Nat := bits % hiddenBit
  if exponent = 0 then ⟨fraction, -1074, false⟩
  else ⟨hiddenBit + fraction, (exponent : Int) - 1075, fraction = 0 && exponent > 1⟩

/-- The decimal `digits * 10^exp`. -/
structure Dec where
  digits : Nat
  exp : Int
deriving DecidableEq, Repr

/-- Which of two equally near decimals is taken. -/
inductive Tie where
  | toEven
  | up
deriving DecidableEq, Repr

/-- Compares `a * 10^i` with `b * 2^j`. -/
def compareScaled (a : Nat) (i : Int) (b : Nat) (j : Int) : Ordering :=
  compare (a * Nat.pow 10 i.toNat * Nat.pow 2 (-j).toNat)
    (b * Nat.pow 2 j.toNat * Nat.pow 10 (-i).toNat)

/-- `d` lies among the numbers that are read as `x`. -/
def Binary.readsBack (x : Binary) (d : Dec) : Bool :=
  let low := if x.narrowBelow then 4 * x.m - 1 else 4 * x.m - 2
  let high := 4 * x.m + 2
  let closed := x.m % 2 = 0
  let above := compareScaled d.digits d.exp low (x.q - 2)
  let below := compareScaled d.digits d.exp high (x.q - 2)
  (above = .gt || closed && above = .eq) && (below = .lt || closed && below = .eq)

/-- The greatest multiple of `10^exp` that is at most `x`. -/
def Binary.floorAt (x : Binary) (exp : Int) : Nat :=
  x.m * Nat.pow 2 x.q.toNat * Nat.pow 10 (-exp).toNat /
    (Nat.pow 2 (-x.q).toNat * Nat.pow 10 exp.toNat)

/-- The multiple of `10^exp` that reads back as `x`, the nearer one if there are two. -/
def Binary.multiple? (x : Binary) (tie : Tie) (exp : Int) : Option Dec :=
  let below : Dec := ⟨x.floorAt exp, exp⟩
  let above : Dec := ⟨x.floorAt exp + 1, exp⟩
  match x.readsBack below, x.readsBack above with
  | false, false => none
  | true, false => some below
  | false, true => some above
  | true, true =>
    -- The midpoint of the two against `x`.
    match compareScaled (below.digits + above.digits) exp (2 * x.m) x.q with
    | .gt => some below
    | .lt => some above
    | .eq =>
      match tie with
      | .up => some above
      | .toEven => if below.digits % 2 = 0 then some below else some above

/-- An exponent with `x < 10^scale`, by at most two too large. -/
def Binary.scale (x : Binary) : Int :=
  (((x.m.log2 : Int) + 1 + x.q) * 30103).fdiv 100000 + 1

/-- The shortest decimal that reads back as `x`; seventeen digits always suffice. -/
def Binary.shortest (x : Binary) (tie : Tie) : Dec :=
  match (List.range 20).findSome? fun (i : Nat) => x.multiple? tie (x.scale - i) with
  | some d => d
  | none => ⟨x.m * Nat.pow 2 x.q.toNat * Nat.pow 5 (-x.q).toNat, min x.q 0⟩

end StackCode.Decimal
