/-
Operations on a sink as data. A sequence of operations is run to its end whether the
single ones succeed or fail; what is behind an operation that fails starts from the sink
that it leaves.
-/
import StackCode.Proofs.Lowering.Output

namespace StackCode

/-- An operation on a sink with all that it is given. -/
inductive SinkOp where
  | openBlock (name : String) (address : Option UInt16) (options : List String)
  | declare (name : String) (datatype : DataType) (storage : Storage) (length : Option UInt16)
  | pointer (name : String) (address : UInt16) (datatype : DataType)
  | instruction (i : Instruction)
  | label (name : String) (isSubroutine : Bool)
  | line (number : Nat) (file : String)
  | removeLatest
deriving DecidableEq, Repr

/-- What an operation answers; there is an instruction if it has taken one back. -/
abbrev SinkAnswer := Except SinkError (Option Instruction)

namespace SinkOp

def action : SinkOp → SinkM (Option Instruction)
  | openBlock name address options => do
    Sink.openBlock name address options
    return none
  | declare name datatype storage length => do
    Sink.declare name datatype storage length
    return none
  | pointer name address datatype => do
    Sink.pointer name address datatype
    return none
  | instruction i => do
    Sink.instruction i
    return none
  | label name isSubroutine => do
    Sink.label name isSubroutine
    return none
  | line number file => do
    Sink.line number file
    return none
  | removeLatest => do
    let i ← Sink.removeLatest
    return some i

/-- The answer, and the sink that is left. -/
def step (op : SinkOp) (s : Sink) : SinkAnswer × Sink := op.action.result s

end SinkOp

namespace Sink

/-- The sink behind a sequence of operations. -/
def after (s : Sink) : List SinkOp → Sink
  | [] => s
  | op :: ops => (op.step s).2.after ops

/-- The answers of a sequence of operations. -/
def answers (s : Sink) : List SinkOp → List SinkAnswer
  | [] => []
  | op :: ops => (op.step s).1 :: (op.step s).2.answers ops

/-- Which operations of a sequence succeed. -/
def outcomes (s : Sink) (ops : List SinkOp) : List Bool := (s.answers ops).map (·.isOk)

end Sink

/-! ## Single steps -/

namespace SinkOp

/-- What the operation does to the open block, if this is all that it does. -/
def edit? : SinkOp → Option (OpenBlock → OpenBlock)
  | declare name datatype .plain length =>
    some fun b => { b with vars := b.vars ++ [⟨name, datatype, length⟩] }
  | declare name datatype (.memory address) _ =>
    some fun b => { b with pointers := b.pointers ++ [⟨name, address, datatype⟩] }
  | declare _ _ .const _ => some id
  | pointer name address datatype =>
    some fun b => { b with pointers := b.pointers ++ [⟨name, address, datatype⟩] }
  | instruction i => some fun b => { b with recent := .instruction i :: b.recent }
  | line number file =>
    some fun b => { b with recent := Sink.mark (Sink.lineMarker number file) b.recent }
  | openBlock .. | label .. | removeLatest => none

/-- An operation edits the open block, if there is one, or it is one of the three others. -/
theorem kinds (op : SinkOp) :
    (∃ f, op.edit? = some f) ∨ (∃ name address options, op = openBlock name address options) ∨
      (∃ l isSubroutine, op = label l isSubroutine) ∨ op = removeLatest := by
  cases op with
  | declare _ _ storage => cases storage <;> exact .inl ⟨_, rfl⟩
  | pointer | instruction | line => exact .inl ⟨_, rfl⟩
  | openBlock => exact .inr (.inl ⟨_, _, _, rfl⟩)
  | label => exact .inr (.inr (.inl ⟨_, _, rfl⟩))
  | removeLatest => exact .inr (.inr (.inr rfl))

theorem step_openBlock (s : Sink) (name : String) (address : Option UInt16)
    (options : List String) :
    (openBlock name address options).step s =
      (.ok none, { s with
        closed := (s.current.map OpenBlock.close).toList ++ s.closed
        current := some { name, address, options } }) :=
  rfl

theorem step_edit {op : SinkOp} {f : OpenBlock → OpenBlock} (h : op.edit? = some f) (s : Sink) :
    op.step s =
      match s.current with
      | none => (.error .noBlock, s)
      | some b => (.ok none, { s with current := some (f b) }) := by
  have hop : op.action = (do Sink.modifyBlock f; return none) := by
    cases op with
    | declare name datatype storage length => cases storage <;> cases h <;> rfl
    | pointer | instruction | line => cases h; rfl
    | openBlock | label | removeLatest => cases h
  rw [step, hop, SinkM.result_bind]
  cases hs : s.current with
  | none => rw [Sink.modifyBlock_result_none hs]
  | some b => rw [Sink.modifyBlock_result hs]; rfl

theorem step_label (s : Sink) (name : String) (isSubroutine : Bool) :
    (label name isSubroutine).step s =
      if name ∈ s.labels then (.error (.duplicateLabel name), s)
      else match s.current with
        | none => (.error .noBlock, { s with labels := name :: s.labels })
        | some b => (.ok none, { s with
            labels := name :: s.labels
            current := some { b with recent := .label name isSubroutine :: b.recent } }) := by
  rw [step, action, SinkM.result_bind, Sink.label_result]
  by_cases hname : name ∈ s.labels
  · rw [if_pos hname, if_pos hname]
  · rw [if_neg hname, if_neg hname]
    cases s.current <;> rfl

theorem step_removeLatest (s : Sink) :
    removeLatest.step s =
      match s.current with
      | none => (.error .noBlock, s)
      | some b =>
        match Sink.takeLatest b.recent with
        | none => (.error (.nothingToRemove b.name), s)
        | some (i, left) => (.ok (some i), { s with current := some { b with recent := left } }) := by
  rw [step, action, SinkM.result_bind, Sink.removeLatest_result]
  cases s.current with
  | none => rfl
  | some b =>
    dsimp only
    cases Sink.takeLatest b.recent <;> rfl

end SinkOp
end StackCode
