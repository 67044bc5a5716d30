/-
The functions that every program can call without declaring them: what they take,
what they leave on the stack, and by what means they are carried out.
-/
import StackCode.Opcode.Mnemonic
import StackCode.Typing.Join

namespace StackCode

/-- What a builtin takes as an argument. -/
inductive BuiltinParam where
  /-- This type, or a narrower one that is widened to it. -/
  | exact (t : DataType)
  | numeric
  | integer
  | array
  | iterable
  /-- A place for an integer, which the function writes its result back to. -/
  | inPlace
deriving DecidableEq, Repr

def BuiltinParam.accepts (p : BuiltinParam) (t : DataType) : Bool :=
  match p with
  | exact u => u = t || u.isWiderThan t
  | numeric => t.isNumeric
  | integer | inPlace => t.isInteger
  | array => t.isArray
  | iterable => t.isIterable

/-- What a builtin leaves on the stack. -/
inductive BuiltinResult where
  | nothing
  | fixed (t : DataType)
  /-- The type of the first argument. -/
  | sameAsArg
  /-- The type of the elements of the first argument. -/
  | elementOfArg
  /-- The type of the elements of the first argument, with bytes widened to words. -/
  | sumOfArg
deriving DecidableEq, Repr

/-- The type that sums of this type are taken in. -/
def NumType.sum : NumType → NumType
  | .int t => .int (.of .word t.isSigned)
  | .float => .float

/-- The type of the result, if there is one, for a first argument of the given type. -/
def BuiltinResult.resolve (r : BuiltinResult) (arg : Option DataType) : Option DataType :=
  match r with
  | nothing => none
  | fixed t => some t
  | sameAsArg => arg
  | elementOfArg => do some (.num (← (← arg).element?))
  | sumOfArg => do some (.num (← (← arg).element?).sum)

/-- A shift or rotation of a place by one bit. -/
inductive InPlaceShift where
  | shiftLeft
  | shiftRight
  | rotateLeft
  | rotateRight
  | rotateLeftCarry
  | rotateRightCarry
deriving DecidableEq, Repr

/-- How a builtin is carried out. -/
inductive BuiltinMethod where
  /-- The exchange of two places. -/
  | swap
  /-- The number of elements. -/
  | length
  /-- A service that goes over an array. There is one for each size of the elements, or one for each
  of their types. -/
  | reduction (byType : Bool)
  | average
  | absolute
  | highByte
  | shift (s : InPlaceShift)
  /-- One opcode behind the arguments. -/
  | opcode (op : Opcode)
  /-- The service of the same name behind the arguments. -/
  | service
deriving DecidableEq, Repr

structure Builtin where
  name : String
  params : List BuiltinParam
  result : BuiltinResult
  method : BuiltinMethod := .service
deriving DecidableEq, Repr

namespace Builtin

/-! ## The table -/

def shifts : List Builtin :=
  [("lsl", .shiftLeft), ("lsr", .shiftRight), ("rol", .rotateLeft), ("ror", .rotateRight),
    ("rol2", .rotateLeftCarry), ("ror2", .rotateRightCarry)].map fun (name, shift) =>
      { name, params := [.inPlace], result := .nothing, method := .shift shift }

/-- The functions from floats to floats. -/
def floatFunctions : List Builtin :=
  ["sin", "cos", "tan", "atan", "ln", "log2", "sqrt", "rad", "deg", "round", "floor", "ceil"].map
    fun name => { name, params := [.exact .float], result := .fixed .float }

def integerFunctions : List Builtin :=
  ["sin", "cos"].flatMap fun f =>
    [("8", DataType.byte), ("8u", .ubyte), ("16", .word), ("16u", .uword)].map
      fun (suffix, result) =>
        { name := f ++ suffix, params := [.exact .ubyte], result := .fixed result }

def numberFunctions : List Builtin :=
  [{ name := "sqrt16", params := [.exact .uword], result := .fixed .ubyte },
    { name := "abs", params := [.numeric], result := .sameAsArg, method := .absolute },
    { name := "msb", params := [.integer], result := .fixed .ubyte, method := .highByte },
    { name := "mkword", params := [.exact .ubyte, .exact .ubyte], result := .fixed .uword,
      method := .opcode .mkword },
    { name := "swap", params := [.numeric, .numeric], result := .nothing, method := .swap },
    { name := "rnd", params := [], result := .fixed .ubyte },
    { name := "rndw", params := [], result := .fixed .uword },
    { name := "rndf", params := [], result := .fixed .float }]

def arrayFunctions : List Builtin :=
  [{ name := "len", params := [.iterable], result := .fixed .ubyte, method := .length },
    { name := "strlen", params := [.iterable], result := .fixed .ubyte },
    { name := "any", params := [.array], result := .fixed .ubyte, method := .reduction false },
    { name := "all", params := [.array], result := .fixed .ubyte, method := .reduction false },
    { name := "max", params := [.array], result := .elementOfArg, method := .reduction true },
    { name := "min", params := [.array], result := .elementOfArg, method := .reduction true },
    { name := "sum", params := [.array], result := .sumOfArg, method := .reduction true },
    { name := "avg", params := [.array], result := .fixed .float, method := .average }]

def memoryFunctions : List Builtin :=
  [("memcopy", DataType.uword), ("memset", .ubyte), ("memsetw", .uword)].map fun (name, last) =>
    { name, params := [.exact .uword, .exact .uword, .exact last], result := .nothing }

def cpuFunctions : List Builtin :=
  { name := "read_flags", params := [], result := .fixed .ubyte } ::
  [("set_carry", .setCarry), ("clear_carry", .clearCarry), ("set_irqd", .setInterrupt),
    ("clear_irqd", .clearInterrupt), ("rsave", .saveRegisters),
    ("rrestore", .restoreRegisters)].map fun (name, op) =>
      { name, params := [], result := .nothing, method := .opcode op }

/-- The services of the machine that go by their own name. -/
def machineFunctions : List Builtin :=
  [("vm_write_memchr", [BuiltinParam.exact .uword]), ("vm_write_memstr", [.exact .uword]),
    ("vm_write_num", [.numeric]), ("vm_write_char", [.exact .ubyte]),
    ("vm_write_str", [.iterable]), ("vm_input_str", [.iterable]),
    ("vm_gfx_pixel", [.exact .uword, .exact .uword, .exact .ubyte]),
    ("vm_gfx_clearscr", [.exact .ubyte]),
    ("vm_gfx_text", [.exact .uword, .exact .uword, .exact .ubyte, .iterable]),
    ("vm_gfx_line",
      [.exact .uword, .exact .uword, .exact .uword, .exact .uword, .exact .ubyte])].map
    fun (name, params) => { name, params, result := .nothing }

def all : List Builtin :=
  shifts ++ floatFunctions ++ integerFunctions ++ numberFunctions ++ arrayFunctions ++
    memoryFunctions ++ cpuFunctions ++ machineFunctions

def find? (name : String) : Option Builtin := all.find? (·.name == name)

end Builtin
end StackCode
