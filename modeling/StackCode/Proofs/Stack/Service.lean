/-
What calls into the machine do to the operand stack. The services are those that the
builtins call; each takes the arguments of its builtin and leaves the result that the
table of builtins gives for them. An instruction tells a service by its number alone,
so the numbers have to tell apart what the services do to the stack.
-/
import StackCode.Code.Builtin

namespace StackCode

/-- A slot of the operand stack. No code makes or takes apart a struct that lies there. -/
inductive Slot where
  | sized (s : Size)
  | struct
deriving DecidableEq, Repr

/-- The slot that a value of the type takes up. -/
def DataType.slot : DataType → Slot
  | .num t => .sized t.size
  | .str | .strS | .array _ => .sized .word
  | .struct => .struct

/-- What an instruction takes off the stack: a value of one size, or any value. -/
inductive Want where
  | size (s : Size)
  | any
deriving DecidableEq, Repr

/-- What an instruction takes off the stack and what it leaves there, the top first. -/
structure Effect where
  takes : List Want := []
  gives : List Slot := []
deriving DecidableEq, Repr

/-! ## Services -/

/-- What a builtin takes for a parameter. -/
def BuiltinParam.want : BuiltinParam → Want
  | .exact (.num t) => .size t.size
  | .array | .iterable => .size .word
  | .exact _ | .numeric | .integer | .inPlace => .any

/-- The slots of the result, of which there is at most one. -/
def BuiltinResult.slots (r : BuiltinResult) (arg : Option DataType) : List Slot :=
  ((r.resolve arg).map DataType.slot).toList

/-- A service, by the name of the function that it implements. -/
structure Service where
  function : String
  effect : Effect

/-- The services that calls of a builtin come down to. The length of a string is the only one that the
table of builtins does not name. -/
def Builtin.services (b : Builtin) : List Service :=
  match b.method with
  | .service =>
    [{ function := b.name,
       effect := { takes := (b.params.map (·.want)).reverse, gives := b.result.slots none } }]
  | .reduction byType =>
    NumType.all.map fun t =>
      { function := b.name ++ "_" ++ if byType then t.suffix else t.size.suffix,
        effect :=
          { takes := [.size .byte, .size .word], gives := b.result.slots (some (.array t)) } }
  | .length =>
    [{ function := "len_str", effect := { takes := [.size .word], gives := [.sized .byte] } }]
  | _ => []

namespace Service

def all : List Service := Builtin.all.flatMap (·.services)

def number? (s : Service) : Option UInt8 := (Syscall.ofFunction? s.function).map (·.number)

/-- What the service of a number does. -/
def effect? (number : UInt8) : Option Effect :=
  (all.find? (·.number? == some number)).map (·.effect)

/-- Services that share a number do the same to the stack. -/
theorem effect?_number : ∀ s ∈ all, s.number?.bind effect? = some s.effect := by decide +kernel

theorem mem_all {b : Builtin} {s : Service} (hb : b ∈ Builtin.all) (hs : s ∈ b.services) :
    s ∈ all :=
  List.mem_flatMap.2 ⟨b, hb, hs⟩

end Service

end StackCode
