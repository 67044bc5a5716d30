/-
JSON as text: on one line, or indented by two spaces a level.
-/
import StackCode.Decimal.Layout
import StackCode.Json.Basic

namespace StackCode.Json

/-- The letter that stands behind a backslash for a character with a short escape. -/
def escapeLetter? : Char → Option Char
  | '"' => some '"'
  | '\\' => some '\\'
  | '\n' => some 'n'
  | '\r' => some 'r'
  | '\t' => some 't'
  | '\x08' => some 'b'
  | '\x0c' => some 'f'
  | _ => none

/-- One character as it stands in a string: quotes, backslashes and control characters are
escaped. -/
def escapeChar (c : Char) : List Char :=
  match escapeLetter? c with
  | some letter => ['\\', letter]
  | none =>
    if c.toNat < 0x20 then
      let digits := Nat.toDigits 16 c.toNat
      ['\\', 'u'] ++ List.replicate (4 - digits.length) '0' ++ digits
    else [c]

def quote (s : String) : String :=
  String.ofList ('"' :: s.toList.flatMap escapeChar ++ ['"'])

/-- The text of a value without parts. -/
def scalar : Json → String
  | null => "null"
  | bool b => if b then "true" else "false"
  | int n => toString n
  | float x => Decimal.json.render x
  | str s => quote s
  | arr _ => "[]"
  | obj _ => "\x7b\x7d"

mutual

/-- The text on one line. -/
def compact : Json → String
  | arr items => "[" ++ ",".intercalate (compactItems items) ++ "]"
  | obj members => "\x7b" ++ ",".intercalate (compactMembers members) ++ "\x7d"
  | j => j.scalar

def compactItems : List Json → List String
  | [] => []
  | j :: rest => j.compact :: compactItems rest

def compactMembers : List (String × Json) → List String
  | [] => []
  | (name, j) :: rest => (quote name ++ ":" ++ j.compact) :: compactMembers rest

end

/-- The lines between an opening and a closing bracket, each on a line of its own. -/
def block (indent opening closing : String) : List String → String
  | [] => opening ++ closing
  | parts =>
    opening ++ "\n" ++ ",\n".intercalate (parts.map (indent ++ "  " ++ ·)) ++ "\n" ++ indent ++
      closing

mutual

/-- The text with a line for each item and member, behind an indentation that grows by two. -/
def prettyAt (indent : String) : Json → String
  | arr items => block indent "[" "]" (prettyItems (indent ++ "  ") items)
  | obj members => block indent "\x7b" "\x7d" (prettyMembers (indent ++ "  ") members)
  | j => j.scalar

def prettyItems (indent : String) : List Json → List String
  | [] => []
  | j :: rest => j.prettyAt indent :: prettyItems indent rest

def prettyMembers (indent : String) : List (String × Json) → List String
  | [] => []
  | (name, j) :: rest => (quote name ++ ": " ++ j.prettyAt indent) :: prettyMembers indent rest

end

def pretty (j : Json) : String := j.prettyAt ""

end StackCode.Json
