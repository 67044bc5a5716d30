/-
What the scanners of texts share: the rest of a text behind a token, and
hexadecimal digits.
-/
namespace StackCode.Text

/-- What is left after a token of `cs`: less than there was, so scanning ends. -/
structure Rest (cs : List Char) where
  chars : List Char
  length_lt : chars.length < cs.length

namespace Rest

/-- What is left after the first character. -/
def tail (c : Char) (cs : List Char) : Rest (c :: cs) where
  chars := cs
  length_lt := Nat.lt_succ_self _

/-- What is left after the first character and `n` more. -/
def skip (n : Nat) (c : Char) (cs : List Char) : Rest (c :: cs) where
  chars := cs.drop n
  length_lt := Nat.lt_succ_of_le (List.drop_suffix n cs).length_le

/-- What is left after the first character and all that have a property behind it. -/
def tailWhile (p : Char → Bool) (c : Char) (cs : List Char) : Rest (c :: cs) where
  chars := cs.dropWhile p
  length_lt := Nat.lt_succ_of_le (List.dropWhile_suffix p).length_le

/-- What is left after a token that stands behind another character. -/
def behind {cs : List Char} (c : Char) (r : Rest cs) : Rest (c :: cs) where
  chars := r.chars
  length_lt := Nat.lt_succ_of_lt r.length_lt

/-- What is left after a second token. -/
def trans {cs : List Char} (r : Rest cs) (second : Rest r.chars) : Rest cs where
  chars := second.chars
  length_lt := Nat.lt_trans second.length_lt r.length_lt

end Rest

/-! ## Hexadecimal digits -/

def hexValue? (c : Char) : Option Nat :=
  if c.isDigit then some (c.toNat - '0'.toNat)
  else if 'a' ≤ c ∧ c ≤ 'f' then some (c.toNat - 'a'.toNat + 10)
  else if 'A' ≤ c ∧ c ≤ 'F' then some (c.toNat - 'A'.toNat + 10)
  else none

/-- The number that hexadecimal digits stand for. -/
def hexNumber? (cs : List Char) : Option Nat :=
  cs.foldlM (fun n c => (hexValue? c).map (n * 16 + ·)) 0

end StackCode.Text
