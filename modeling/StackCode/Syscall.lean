/-
The numbered services of the machine.

A service is found by the name of the function that it implements: names that
start with `vm_` stand for themselves, all others are looked up behind `FUNC_`.
The case of letters does not matter.
-/
import StackCode.Text.Upper

namespace StackCode

/-- A service of the machine. -/
structure Syscall where
  name : String
  number : UInt8
deriving DecidableEq, Repr

namespace Syscall

/-- The services with consecutive numbers. -/
def numbered (first : Nat) (names : List String) : List Syscall :=
  names.zipIdx.map fun (name, i) => ⟨name, UInt8.ofNat (first + i)⟩

/-- All services, by number. -/
def all : List Syscall :=
  numbered 10
    ["VM_WRITE_MEMCHR", "VM_WRITE_MEMSTR", "VM_WRITE_NUM", "VM_WRITE_CHAR", "VM_WRITE_STR",
      "VM_INPUT_STR", "VM_GFX_PIXEL", "VM_GFX_CLEARSCR", "VM_GFX_TEXT", "VM_GFX_LINE"] ++
  numbered 66
    ["FUNC_SIN", "FUNC_COS", "FUNC_ABS", "FUNC_TAN", "FUNC_ATAN", "FUNC_LN", "FUNC_LOG2",
      "FUNC_SQRT16", "FUNC_SQRT", "FUNC_RAD", "FUNC_DEG", "FUNC_ROUND", "FUNC_FLOOR", "FUNC_CEIL",
      "FUNC_RND", "FUNC_RNDW", "FUNC_RNDF", "FUNC_LEN_STR", "FUNC_ANY_B", "FUNC_ANY_W",
      "FUNC_ANY_F", "FUNC_ALL_B", "FUNC_ALL_W", "FUNC_ALL_F", "FUNC_MAX_UB", "FUNC_MAX_B",
      "FUNC_MAX_UW", "FUNC_MAX_W", "FUNC_MAX_F", "FUNC_MIN_UB", "FUNC_MIN_B", "FUNC_MIN_UW",
      "FUNC_MIN_W", "FUNC_MIN_F", "FUNC_SUM_UB", "FUNC_SUM_B", "FUNC_SUM_UW", "FUNC_SUM_W",
      "FUNC_SUM_F", "FUNC_MEMCOPY", "FUNC_MEMSET", "FUNC_MEMSETW", "FUNC_READ_FLAGS", "FUNC_SIN8",
      "FUNC_SIN8U", "FUNC_SIN16", "FUNC_SIN16U", "FUNC_COS8", "FUNC_COS8U", "FUNC_COS16",
      "FUNC_COS16U", "FUNC_STRLEN"]

def ofName? (name : String) : Option Syscall := all.find? (·.name == name)

/-- The service that implements a function. -/
def ofFunction? (function : String) : Option Syscall :=
  if function.startsWith "vm_" then ofName? (Text.upper function)
  else ofName? ("FUNC_" ++ Text.upper function)

end Syscall
end StackCode
