/-
Text in double quotes, so that every character of it can be seen: quotes and
backslashes are escaped, and so are all characters that have no visible form of
their own or that would join the character before them.

Two rules beyond the general categories decide what can be seen. The Hangul fillers
are letters, but show nothing. The halfwidth voiced sound marks extend the character
before them, but take a place of their own.
-/
import StackCode.Text.GraphemeExtend
import StackCode.Text.Unprintable

namespace StackCode.Text

/-- The letter that stands behind a backslash for a character with a short escape. -/
def escapeLetter? : Char → Option Char
  | '\x00' => some '0'
  | '\t' => some 't'
  | '\r' => some 'r'
  | '\n' => some 'n'
  | '"' => some '"'
  | '\\' => some '\\'
  | _ => none

/-- The Hangul fillers. -/
def fillers : CodePoints := [(0x115F, 0x1160), (0x3164, 0x3164), (0xFFA0, 0xFFA0)]

/-- The halfwidth voiced sound marks. -/
def spacedMarks : CodePoints := [(0xFF9E, 0xFF9F)]

/-- The character is drawn as a part of the one before it. -/
def joins (c : Char) : Bool := graphemeExtend.contains c && !spacedMarks.contains c

/-- The character stands for itself inside quotes. -/
def isPlain (c : Char) : Bool :=
  isPrintable c && !fillers.contains c && !joins c

/-- The code point in hexadecimal, between braces. -/
def codePoint (c : Char) : List Char :=
  ['\\', 'u', '\x7b'] ++ Nat.toDigits 16 c.toNat ++ ['\x7d']

/-- One character as it stands inside quotes. -/
def quoteChar (c : Char) : List Char :=
  match escapeLetter? c with
  | some letter => ['\\', letter]
  | none => if isPlain c then [c] else codePoint c

def quoted (s : String) : String :=
  String.ofList ('"' :: s.toList.flatMap quoteChar ++ ['"'])

end StackCode.Text
