/-
Upper-casing for look-ups among names of ASCII letters, digits and underscores.

Besides the letters a to z a few other characters have an upper case that
consists of ASCII letters. All remaining characters are left alone: their upper
case, too, holds a character beyond ASCII, so no such name is ever found.
-/
namespace StackCode.Text

/-- The upper case of a character, where that is ASCII. -/
def upperChar : Char → List Char
  | 'ß' => ['S', 'S']
  | 'ı' => ['I']
  | 'ſ' => ['S']
  | 'ﬀ' => ['F', 'F']
  | 'ﬁ' => ['F', 'I']
  | 'ﬂ' => ['F', 'L']
  | 'ﬃ' => ['F', 'F', 'I']
  | 'ﬄ' => ['F', 'F', 'L']
  | 'ﬅ' => ['S', 'T']
  | 'ﬆ' => ['S', 'T']
  | c => [c.toUpper]

def upper (s : String) : String := String.ofList (s.toList.flatMap upperChar)

end StackCode.Text
