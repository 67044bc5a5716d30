/-
The program: it runs the command line on the files of the machine.
-/
import StackCode.CommandLine

namespace StackCode

/-- The fault behind an error of the system. -/
def FileFault.ofError : IO.Error → FileFault
  | .noFileOrDirectory .. => .missing
  | .inappropriateType _ code details =>
    if code = 20 then .notDirectory
    else if code = 21 then .isDirectory
    else .other details
  | e => .other (toString e)

/-- The files of the machine. -/
def machineFiles : FileAccess IO where
  read path := do
    try
      match String.fromUTF8? (← IO.FS.readBinFile path) with
      | some text => return .ok text
      | none => return .error .notText
    catch e => return .error (.ofError e)
  write path content := do
    try
      IO.FS.writeFile path content
      return .ok ()
    catch e => return .error (.ofError e)

end StackCode

def main (args : List String) : IO UInt32 := do
  let outcome ← StackCode.CommandLine.run StackCode.machineFiles args
  match outcome with
  | .success output => IO.print output
  | .failure e => IO.eprintln s!"Error: {e.message}"
  | .misuse e => IO.eprintln s!"error: {e.message}"
  return outcome.exitCode
