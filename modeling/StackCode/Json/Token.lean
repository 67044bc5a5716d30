/-
The tokens of a JSON text.

Every step of the scanner gives back what follows a token together with a proof
that it is shorter, so the scanner ends with the text.
-/
import StackCode.Json.Number
import StackCode.Text.Scan

namespace StackCode.Json

open Text (Rest hexNumber?)

/-- A token: a mark of the grammar, or a value without parts. A token may be well formed and yet
have no value. -/
inductive Token where
  | openList
  | closeList
  | openObject
  | closeObject
  | colon
  | comma
  | scalar (j : Option Json)
  | text (s : Option String)

/-! ## Strings -/

/-- The character that a letter behind a backslash stands for. -/
def unescape? : Char → Option Char
  | '"' => some '"'
  | '\\' => some '\\'
  | '/' => some '/'
  | 'b' => some '\x08'
  | 'f' => some '\x0c'
  | 'n' => some '\n'
  | 'r' => some '\r'
  | 't' => some '\t'
  | _ => none

/-- The number that four hexadecimal digits stand for, and what follows them. -/
def unit? (cs : List Char) : Option (Nat × Rest cs) :=
  match cs with
  | a :: b :: c :: d :: rest =>
    (hexNumber? [a, b, c, d]).map fun n => (n, ⟨rest, by simp only [List.length_cons]; omega⟩)
  | _ => none

/-- The number of what stands behind a backslash, and what follows it. -/
def escape? (cs : List Char) : Option (Nat × Rest cs) :=
  match cs with
  | 'u' :: rest => (unit? rest).map fun (n, r) => (n, r.behind 'u')
  | c :: rest => (unescape? c).map fun x => (x.toNat, .tail c rest)
  | [] => none

/-- The first and the second half of a pair of 16-bit units. -/
def isHighUnit (n : Nat) : Bool := 0xD800 ≤ n && n < 0xDC00

def isLowUnit (n : Nat) : Bool := 0xDC00 ≤ n && n < 0xE000

/-- The text that numbers, the latest first, stand for in front of characters. A character beyond
16 bits may be written as a pair of units; half of a pair alone stands for nothing. -/
def textOf? : List Nat → List Char → Option String
  | [], cs => some (String.ofList cs)
  | n :: rest, cs =>
    if isLowUnit n then
      match rest with
      | high :: rest =>
        if isHighUnit high then
          textOf? rest (Char.ofNat (0x10000 + (high - 0xD800) * 0x400 + (n - 0xDC00)) :: cs)
        else none
      | [] => none
    else if isHighUnit n then none
    else textOf? rest (Char.ofNat n :: cs)

/-- The string up to its closing quote, behind the numbers of what has been read (the latest first),
and what follows the quote. -/
def scanString (cs : List Char) (read : List Nat) : Option (Token × Rest cs) :=
  match cs with
  | [] => none
  | c :: rest =>
    if c == '"' then some (.text (textOf? read []), .tail c rest)
    else if c == '\\' then
      match escape? rest with
      | none => none
      | some (n, r) =>
        have := r.length_lt
        (scanString r.chars (n :: read)).map fun (t, r') => (t, (r.trans r').behind c)
    else if c.toNat < 0x20 then none
    else (scanString rest (c.toNat :: read)).map fun (t, r) => (t, r.behind c)
termination_by cs.length
decreasing_by all_goals simp only [List.length_cons]; omega

/-! ## The scanner -/

/-- The value that a word stands for. -/
def literal? (cs : List Char) : Option Json :=
  match String.ofList cs with
  | "true" => some (.bool true)
  | "false" => some (.bool false)
  | "null" => some .null
  | _ => none

/-- The token that a character alone is. -/
def mark? : Char → Option Token
  | '[' => some .openList
  | ']' => some .closeList
  | '\x7b' => some .openObject
  | '\x7d' => some .closeObject
  | ':' => some .colon
  | ',' => some .comma
  | _ => none

/-- The first token of a text that does not start with a blank, and what follows it. -/
def scanToken (c : Char) (cs : List Char) : Option (Token × Rest (c :: cs)) :=
  match mark? c with
  | some t => some (t, .tail c cs)
  | none =>
    if c == '"' then
      (scanString cs []).map fun (t, r) => (t, r.behind c)
    else if isNumberChar c then
      (Number.ofChars? (c :: cs.takeWhile isNumberChar)).map fun n =>
        (.scalar n.value?, .tailWhile isNumberChar c cs)
    else
      (literal? (c :: cs.takeWhile Char.isAlpha)).map fun j =>
        (.scalar (some j), .tailWhile Char.isAlpha c cs)

def isBlank (c : Char) : Bool := c == ' ' || c == '\n' || c == '\t' || c == '\r'

/-- All tokens of a text, behind those already read (the latest first). -/
def scan (cs : List Char) (read : List Token) : Option (List Token) :=
  match cs with
  | [] => some read.reverse
  | c :: rest =>
    if isBlank c then scan rest read
    else
      match scanToken c rest with
      | none => none
      | some (t, r) =>
        have := r.length_lt
        scan r.chars (t :: read)
termination_by cs.length
decreasing_by all_goals simp only [List.length_cons] at *; omega

def tokens? (s : String) : Option (List Token) := scan s.toList []

end StackCode.Json
