/-
Reading and writing files, and what can go wrong with it.

The program does not say how a file is reached: it is handed the access to files.
So it runs on the files of a machine as well as on files in memory.
-/
namespace StackCode

/-- Why a file cannot be read or written. -/
inductive FileFault where
  | missing
  /-- A file stands where the path needs a directory. -/
  | notDirectory
  /-- A directory stands where the path needs a file. -/
  | isDirectory
  | nameTooLong
  /-- No name holds the character zero. -/
  | zeroInName
  /-- The content is no text in UTF-8. -/
  | notText
  | other (reason : String)
deriving DecidableEq, Repr

namespace FileFault

def message : FileFault → String
  | missing => "No such file or directory (os error 2)"
  | notDirectory => "Not a directory (os error 20)"
  | isDirectory => "Is a directory (os error 21)"
  | nameTooLong => "File name too long (os error 36)"
  | zeroInName => "file name contained an unexpected NUL byte"
  | notText => "stream did not contain valid UTF-8"
  | other reason => reason

/-- There is no file at the path. -/
def isAbsence : FileFault → Bool
  | missing | notDirectory | isDirectory | nameTooLong | zeroInName => true
  | notText | other _ => false

end FileFault

/-- The access to files. -/
structure FileAccess (m : Type → Type) where
  read (path : String) : m (Except FileFault String)
  write (path content : String) : m (Except FileFault Unit)

end StackCode
