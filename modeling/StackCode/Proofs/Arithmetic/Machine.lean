/-
Integer arithmetic on the machine: what the opcodes of the operators and the casts do
with the cells on top of the stack. The size and the signedness in the mnemonic decide;
what the cells were pushed as does not matter.
-/
import StackCode.Code.Expr
import StackCode.Proofs.Arithmetic.Bits

namespace StackCode

/-- A value on the stack: bare bits, or a float. -/
inductive Cell where
  | int (s : IntSize) (bits : BitVec s.bits)
  | float (x : Float)
deriving DecidableEq

/-- A value once it is pushed. -/
def Value.cell : Value → Cell
  | int t n _ => .int t.size (.ofInt _ n)
  | float x => .float x

namespace Cell

/-- The bits of a cell of a size. -/
def bits? (s : IntSize) : Cell → Option (BitVec s.bits)
  | int s' bits => if h : s' = s then some (h ▸ bits) else none
  | float _ => none

@[simp] theorem bits?_int (s : IntSize) (x : BitVec s.bits) : (int s x).bits? s = some x := by
  simp [bits?]

/-- One for true and zero for false. -/
def ofBool (b : Bool) : Cell := int .byte (if b then 1 else 0)

/-- A cell of a size that another one takes the place of. -/
def turn (s : IntSize) (f : BitVec s.bits → Cell) : List Cell → Option (List Cell)
  | x :: rest => do return f (← x.bits? s) :: rest
  | [] => none

/-- Two cells of a size that another one takes the place of, if there is a result. The right operand
is on top. -/
def merge (s : IntSize) (f : BitVec s.bits → BitVec s.bits → Option Cell) :
    List Cell → Option (List Cell)
  | y :: x :: rest => do return (← f (← x.bits? s) (← y.bits? s)) :: rest
  | _ => none

@[simp] theorem turn_int {s : IntSize} {f : BitVec s.bits → Cell} {x : BitVec s.bits}
    {rest : List Cell} : turn s f (int s x :: rest) = some (f x :: rest) := by
  simp [turn]

@[simp] theorem merge_int {s : IntSize} {f : BitVec s.bits → BitVec s.bits → Option Cell}
    {x y : BitVec s.bits} {rest : List Cell} :
    merge s f (int s y :: int s x :: rest) = (f x y).map (· :: rest) := by
  simp only [merge, bits?_int, Option.bind_eq_bind, Option.bind_some]
  cases f x y <;> rfl

end Cell

/-! ## Opcodes -/

open Cell in
/-- What an opcode of an operator or a cast does with integers. Nothing is divided by zero. -/
def Opcode.act? : Opcode → List Cell → Option (List Cell)
  | .add (.int t) => merge t.size fun x y => some (int _ (x + y))
  | .sub (.int t) => merge t.size fun x y => some (int _ (x - y))
  | .mul (.int t) => merge t.size fun x y => some (int _ (x * y))
  | .intDiv t => merge t.size fun x y => if y = 0 then none else some (int _ (t.quotient x y))
  | .remainder s => merge s fun x y => if y = 0 then none else some (int _ (x % y))
  | .bitAnd s => merge s fun x y => some (int _ (x &&& y))
  | .bitOr s => merge s fun x y => some (int _ (x ||| y))
  | .bitXor s => merge s fun x y => some (int _ (x ^^^ y))
  | .boolAnd s => merge s fun x y => some (ofBool (x != 0 && y != 0))
  | .boolOr s => merge s fun x y => some (ofBool (x != 0 || y != 0))
  | .boolXor s => merge s fun x y => some (ofBool ((x != 0) != (y != 0)))
  | .less (.int t) => merge t.size fun x y => some (ofBool (t.below x y))
  | .greater (.int t) => merge t.size fun x y => some (ofBool (t.below y x))
  | .lessEq (.int t) => merge t.size fun x y => some (ofBool (t.atMost x y))
  | .greaterEq (.int t) => merge t.size fun x y => some (ofBool (t.atMost y x))
  | .equal (.int s) => merge s fun x y => some (ofBool (x == y))
  | .notEqual (.int s) => merge s fun x y => some (ofBool (x != y))
  | .neg (.int s) => turn s fun x => int _ (-x)
  | .invert s => turn s fun x => int _ (~~~x)
  | .boolNot s => turn s fun x => int s (if x = 0 then 1 else 0)
  | .shiftedLeft s => turn s fun x => int _ (x <<< 1)
  | .shiftedRight t => turn t.size fun x => int _ (t.halve x)
  | .cast (.int t) (.int u) _ => turn t.size fun x => int _ (t.resize u.size x)
  | _ => fun _ => none

/-! ## Code -/

/-- One instruction: a value of the size in the mnemonic is pushed, or an opcode acts. -/
def Instruction.act? (i : Instruction) (stack : List Cell) : Option (List Cell) :=
  match i.opcode with
  | .push s => i.arg.bind fun v => if v.type.size = s then some (v.cell :: stack) else none
  | opcode => opcode.act? stack

/-- The stack behind code, if each of its instructions can act. -/
def Code.compute? (code : Code) (stack : List Cell) : Option (List Cell) :=
  code.foldlM (fun stack i => i.act? stack) stack

namespace Code

variable {code code' : Code} {stack : List Cell}

theorem compute?_nil : compute? [] stack = some stack := rfl

theorem compute?_append :
    compute? (code ++ code') stack = (compute? code stack).bind (compute? code') :=
  List.foldlM_append

theorem compute?_push (v : Value) : compute? v.push stack = some (v.cell :: stack) := by
  simp [compute?, Value.push, Instruction.act?, Opcode.given]

theorem compute?_plain (opcode : Opcode) : compute? [opcode.plain] stack = opcode.act? stack := by
  have hact : opcode.plain.act? stack = opcode.act? stack := by
    unfold Instruction.act? Opcode.plain
    split
    next hs =>
      dsimp only at hs
      rw [hs]
      rfl
    next => rfl
  simp only [compute?, List.foldlM_cons, List.foldlM_nil, hact, Option.bind_eq_bind,
    Option.pure_def, Option.bind_fun_some]

/-- An opcode that may be left out. -/
theorem compute?_toList (opcode : Opcode) :
    compute? ((some opcode).map Opcode.plain).toList stack = opcode.act? stack :=
  compute?_plain opcode

end Code
end StackCode
