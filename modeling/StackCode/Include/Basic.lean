/-
Texts that a program includes, and where they come from.
-/
import StackCode.Files.Access

namespace StackCode

/-- Why there is no text to include. -/
inductive IncludeFault where
  | emptyPath
  /-- No text has this name. -/
  | unknown (name : String)
  /-- There is no file at any of the paths where one was looked for. -/
  | notFound (name : String) (searched : List String)
  | unreadable (path : String) (fault : FileFault)
deriving DecidableEq, Repr

def IncludeFault.message : IncludeFault → String
  | emptyPath => "Include path cannot be empty"
  | unknown name => s!"Include file '{name}' not found"
  | notFound name searched =>
    s!"Include file '{name}' not found (searched " ++ ", ".intercalate searched ++ ")"
  | unreadable path fault => s!"Failed to read include file {path}: {fault.message}"

/-- Where the text of an included file comes from: its name and the path of the module that asks for
it give the text, or the reason why there is none. -/
abbrev IncludeLoader := String → String → Except IncludeFault String

/-- Texts by name, whoever asks for them. -/
def IncludeLoader.ofTexts (texts : List (String × String)) : IncludeLoader := fun name _ =>
  match texts.lookup name with
  | some text => .ok text
  | none => .error (.unknown name)

end StackCode
