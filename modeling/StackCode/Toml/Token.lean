/-
The tokens of a TOML text, as far as settings need them: words, strings, and the
marks between them.

A setting ends with its line, so the end of a line is a token. Blanks and comments
are none.
-/
import StackCode.Text.Scan

namespace StackCode.Toml

open Text (Rest hexNumber?)

inductive Token where
  /-- A bare name or a bare value. -/
  | word (s : String)
  /-- A string, and whether it may go over many lines. -/
  | text (s : String) (isLong : Bool)
  | equals
  | openList
  | closeList
  | comma
  | newline
deriving DecidableEq, Repr

/-- A character that may stand in a string or a comment: no control character but the tab. -/
def isTextChar (c : Char) : Bool := c == '\t' || (0x20 ≤ c.toNat && c.toNat != 0x7F)

def isBlank (c : Char) : Bool := c == ' ' || c == '\t'

def isWordChar (c : Char) : Bool := c.isAlphanum || c == '_' || c == '-'

/-! ## Strings -/

/-- How a string is quoted. A string in double quotes has escapes; a long string has three quotes at
each end and may go over many lines. -/
structure Quoting where
  quote : Char
  isLong : Bool

/-- The closing quotes, with the number of quotes in front of them that are text. A long string may
end with up to two quotes of its own. -/
def Quoting.close? (q : Quoting) (cs : List Char) : Option (Nat × Rest cs) :=
  match cs with
  | [] => none
  | c :: rest =>
    let run := ((c :: rest).takeWhile (· == q.quote)).length
    if !q.isLong then
      if 1 ≤ run then some (0, .tail c rest) else none
    else if run < 3 then none
    else if run < 5 then some (run - 3, .skip (run - 1) c rest)
    else some (2, .skip 4 c rest)

/-- The character that a number stands for. -/
def scalar? (n : Nat) : Option Char := if n.isValidChar then some (Char.ofNat n) else none

/-- The character that stands behind a backslash. -/
def unescape? : Char → Option Char
  | '"' => some '"'
  | '\\' => some '\\'
  | 'b' => some '\x08'
  | 'f' => some '\x0c'
  | 'n' => some '\n'
  | 'r' => some '\r'
  | 't' => some '\t'
  | _ => none

/-- The character that the next `n` characters stand for as a hexadecimal number, and what follows
them. -/
def numbered? (n : Nat) (c : Char) (cs : List Char) : Option (List Char × Rest (c :: cs)) :=
  if n ≤ cs.length then
    ((hexNumber? (cs.take n)).bind scalar?).map fun x => ([x], .skip n c cs)
  else none

/-- What stands behind a backslash, and what follows it. In a long string the end of a line is
nothing, together with all blanks and line ends behind it. -/
def escape? (isLong : Bool) (cs : List Char) : Option (List Char × Rest cs) :=
  match cs with
  | [] => none
  | c :: rest =>
    if c == 'u' then numbered? 4 c rest
    else if c == 'U' then numbered? 8 c rest
    else if isLong && (isBlank c || c == '\n') then
      match (c :: rest).dropWhile isBlank with
      | '\n' :: _ => some ([], .tailWhile (fun c => isBlank c || c == '\n') c rest)
      | _ => none
    else (unescape? c).map fun x => ([x], .tail c rest)

/-- The characters of a string up to its closing quotes, behind those already read (the latest
first), and what follows it. -/
def scanText (q : Quoting) (cs read : List Char) : Option (List Char × Rest cs) :=
  match q.close? cs with
  | some (own, r) => some (read.reverse ++ List.replicate own q.quote, r)
  | none =>
    match cs with
    | [] => none
    | c :: rest =>
      if c == '\\' && q.quote == '"' then
        match escape? q.isLong rest with
        | none => none
        | some (chars, r) =>
          have := r.length_lt
          (scanText q r.chars (chars.reverse ++ read)).map fun (s, r') =>
            (s, (r.trans r').behind c)
      else if isTextChar c || (q.isLong && c == '\n') then
        (scanText q rest (c :: read)).map fun (s, r) => (s, r.behind c)
      else none
termination_by cs.length
decreasing_by all_goals simp only [List.length_cons]; omega

/-- The string behind the opening quotes. In a long string an end of line right behind them is none
of it. -/
def scanQuoted (q : Quoting) (cs : List Char) : Option (Token × Rest cs) :=
  let token (s : List Char) : Token := .text (String.ofList s) q.isLong
  match cs with
  | [] => none
  | c :: rest =>
    if q.isLong && c == '\n' then
      (scanText q rest []).map fun (s, r) => (token s, r.behind c)
    else (scanText q (c :: rest) []).map fun (s, r) => (token s, r)

/-- The string that starts with a quote. Three of them open a long string. -/
def scanString (quote : Char) (cs : List Char) : Option (Token × Rest (quote :: cs)) :=
  match cs with
  | [] => none
  | [c] => (scanQuoted ⟨quote, false⟩ [c]).map fun (t, r) => (t, r.behind quote)
  | c :: d :: rest =>
    if c == quote && d == quote then
      (scanQuoted ⟨quote, true⟩ rest).map fun (t, r) => (t, ((r.behind d).behind c).behind quote)
    else
      (scanQuoted ⟨quote, false⟩ (c :: d :: rest)).map fun (t, r) => (t, r.behind quote)

/-! ## The scanner -/

/-- The token that a character alone is. -/
def mark? : Char → Option Token
  | '=' => some .equals
  | '[' => some .openList
  | ']' => some .closeList
  | ',' => some .comma
  | '\n' => some .newline
  | _ => none

/-- The first token of a text that starts with no blank and no comment, and what follows it. -/
def scanToken (c : Char) (cs : List Char) : Option (Token × Rest (c :: cs)) :=
  match mark? c with
  | some t => some (t, .tail c cs)
  | none =>
    if c == '"' || c == '\'' then scanString c cs
    else if isWordChar c then
      some (.word (String.ofList (c :: cs.takeWhile isWordChar)), .tailWhile isWordChar c cs)
    else none

/-- All tokens of a text, behind those already read (the latest first). -/
def scan (cs : List Char) (read : List Token) : Option (List Token) :=
  match cs with
  | [] => some read.reverse
  | c :: rest =>
    if isBlank c then scan rest read
    else if c == '#' then
      have := (Rest.tailWhile isTextChar c rest).length_lt
      scan (Rest.tailWhile isTextChar c rest).chars read
    else
      match scanToken c rest with
      | none => none
      | some (t, r) =>
        have := r.length_lt
        scan r.chars (t :: read)
termination_by cs.length
decreasing_by all_goals simp only [List.length_cons] at *; omega

/-- A line may end with a carriage return before its line feed. -/
def unifyNewlines : List Char → List Char
  | '\r' :: '\n' :: rest => '\n' :: unifyNewlines rest
  | c :: rest => c :: unifyNewlines rest
  | [] => []

/-- A text may start with a byte order mark. -/
def dropMark (cs : List Char) : List Char :=
  match cs with
  | '\ufeff' :: rest => rest
  | _ => cs

def tokens? (s : String) : Option (List Token) := scan (unifyNewlines (dropMark s.toList)) []

end StackCode.Toml
