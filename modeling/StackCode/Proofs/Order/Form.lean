/-
What a block is lowered to, apart from the numbers in made-up names.

Names are made up with numbers that go on from those of the blocks before. A form stands for
all the texts that differ in nothing but that: a name in it is one of the source, or it is
the first name that the block makes up, or the second one, and so on. When it is known how
many names were made up before, a form can be numbered.
-/
import StackCode.Proofs.Names.Defines
import StackCode.Proofs.Stack.Reading

namespace StackCode

/-! ## Forms -/

/-- A name of the source, or a name that a block makes up, with its place among all of these. -/
inductive NameForm where
  | own (name : String)
  | made (scope suffix : String) (place : Nat)
deriving DecidableEq

/-- The name, if so many were made up before. What has the number `i` behind `m` of them has the number
`i - m + n` behind `n`. -/
def NameForm.numbered (n : Nat) : NameForm → String
  | own name => name
  | made scope suffix place => labelName scope suffix (n + place)

/-- An instruction, apart from its label, with the form of the label. -/
structure InstructionForm where
  bare : Instruction
  label : Option NameForm

def InstructionForm.numbered (n : Nat) (i : InstructionForm) : Instruction :=
  { i.bare with label := i.label.map (·.numbered n) }

/-- An instruction without made-up names. -/
def InstructionForm.of (i : Instruction) : InstructionForm := ⟨i, i.label.map .own⟩

@[simp] theorem InstructionForm.numbered_of (n : Nat) (i : Instruction) : (of i).numbered n = i := by
  obtain ⟨opcode, arg, arg2, label, payload⟩ := i
  cases label <;> rfl

inductive EntryForm where
  | instruction (i : InstructionForm)
  | label (name : NameForm) (isSubroutine : Bool)

def EntryForm.numbered (n : Nat) : EntryForm → Entry
  | instruction i => .instruction (i.numbered n)
  | label name isSubroutine => .label (name.numbered n) isSubroutine

@[simp] theorem EntryForm.numbered_instruction (n : Nat) (i : InstructionForm) :
    (instruction i).numbered n = .instruction (i.numbered n) := rfl

@[simp] theorem EntryForm.numbered_label (n : Nat) (name : NameForm) (isSubroutine : Bool) :
    (label name isSubroutine).numbered n = .label (name.numbered n) isSubroutine := rfl

@[simp] theorem InstructionForm.isLine_numbered (n : Nat) (i : InstructionForm) :
    (i.numbered n).isLine = i.bare.isLine := rfl

/-- Whether an entry marks a line does not depend on the numbers. -/
def EntryForm.isLine : EntryForm → Bool
  | instruction i => i.bare.isLine
  | label .. => false

@[simp] theorem EntryForm.isLine_numbered (n : Nat) (e : EntryForm) : (e.numbered n).isLine = e.isLine := by
  cases e <;> rfl

structure VariableForm where
  name : NameForm
  datatype : DataType
  length : Option UInt16

def VariableForm.numbered (n : Nat) (v : VariableForm) : Variable where
  name := v.name.numbered n
  datatype := v.datatype
  length := v.length

structure BlockForm where
  name : String
  address : Option UInt16
  options : List String
  vars : List VariableForm := []
  pointers : List MemoryPointer := []
  /-- What has been written, the latest first. -/
  recent : List EntryForm := []
deriving Inhabited

def BlockForm.numbered (n : Nat) (b : BlockForm) : OpenBlock where
  name := b.name
  address := b.address
  options := b.options
  vars := b.vars.map (·.numbered n)
  pointers := b.pointers
  recent := b.recent.map (·.numbered n)

theorem BlockForm.recent_numbered (n : Nat) (b : BlockForm) :
    (b.numbered n).recent = b.recent.map (·.numbered n) := rfl

/-- A fault of the lowering. The only one with a made-up name in it is that of a label which is already
there. -/
inductive ErrorForm where
  | fixed (e : LowerError)
  | duplicate (name : NameForm)

def ErrorForm.numbered (n : Nat) : ErrorForm → LowerError
  | fixed e => e
  | duplicate name => .sink (.duplicateLabel (name.numbered n))

/-! ## Code -/

/-- The code has one form, whatever number it is written with. -/
def HasForm (code : Nat → Code) : Prop :=
  ∃ forms : List InstructionForm, ∀ n, code n = forms.map (·.numbered n)

theorem hasForm_const (code : Code) : HasForm fun _ => code :=
  ⟨code.map .of, fun n => by simp [Function.comp_def]⟩

theorem HasForm.append {code code' : Nat → Code} (h : HasForm code) (h' : HasForm code') :
    HasForm fun n => code n ++ code' n := by
  obtain ⟨forms, hforms⟩ := h
  obtain ⟨forms', hforms'⟩ := h'
  exact ⟨forms ++ forms', fun n => by simp only [hforms, hforms', List.map_append]⟩

theorem hasForm_named (op : Opcode) (x : NameForm) : HasForm fun n => [op.named (x.numbered n)] :=
  ⟨[⟨op.plain, some x⟩], fun _ => rfl⟩

/-! ## Drafts -/

/-- The names of the labels in a block, none of which looks like a made-up one. -/
structure OwnNames where
  names : List String
  notGenerated : ∀ name ∈ names, ¬ IsGenerated name

/-- A label can have this name: it is one of those of the source, or it is made up. -/
def NameForm.Valid (own : OwnNames) : NameForm → Prop
  | .own name => name ∈ own.names
  | .made _ suffix place => IsPurpose suffix ∧ 0 < place

/-- Names of labels tell from which form they come. -/
theorem NameForm.numbered_inj {own : OwnNames} {n : Nat} {x y : NameForm} (hx : x.Valid own)
    (hy : y.Valid own) (h : x.numbered n = y.numbered n) : x = y := by
  cases x with
  | own name =>
    cases y with
    | own name' => exact congrArg NameForm.own h
    | made scope suffix place => exact absurd ⟨scope, suffix, _, h⟩ (own.notGenerated name hx)
  | made scope suffix place =>
    cases y with
    | own name => exact absurd ⟨scope, suffix, _, h.symm⟩ (own.notGenerated name hy)
    | made scope' suffix' place' =>
      obtain ⟨rfl, rfl, hplace⟩ := labelName_inj hx.1 hy.1 h
      rw [Nat.add_left_cancel hplace]

/-- The labels in the sink are not in the way: none of them has one of these names, or a name that is
still to be made up. -/
structure Sink.Admits (names : List String) (n : Nat) (s : Sink) : Prop where
  own : ∀ name ∈ names, name ∉ s.labels
  known : ∀ l ∈ s.labels, Known n l

theorem Sink.Admits.left {names names' : List String} {n : Nat} {s : Sink}
    (h : s.Admits (names ++ names') n) : s.Admits names n :=
  ⟨fun name hname => h.own name (List.mem_append_left _ hname), h.known⟩

theorem Sink.Admits.not_mem {own : OwnNames} {n : Nat} {s : Sink} {x : NameForm}
    (h : s.Admits own.names n) (hx : x.Valid own) : x.numbered n ∉ s.labels := by
  cases x with
  | own name => exact h.own name hx
  | made scope suffix place =>
    intro hmem
    have hle := h.known _ hmem scope suffix (n + place) hx.1 rfl
    have hpos := hx.2
    omega

/-- What has been written of a block: the block itself, the names of its labels, and how many names were
made up for it. -/
structure Draft (own : OwnNames) where
  block : BlockForm
  labels : List NameForm
  count : Nat
  valid : ∀ x ∈ labels, x.Valid own

/-- The output with the draft in it, behind what was in the sink before. -/
def Draft.output {own : OwnNames} (d : Draft own) (n : Nat) (s : Sink) : Output where
  sink := { s with
    current := some (d.block.numbered n)
    labels := d.labels.map (·.numbered n) ++ s.labels }
  generated := n + d.count

/-- Whether a label is already there does not depend on the numbers. -/
theorem Draft.mem_labels {own : OwnNames} {d : Draft own} {n : Nat} {s : Sink} {x : NameForm}
    (hs : s.Admits own.names n) (hx : x.Valid own) :
    x.numbered n ∈ (d.output n s).sink.labels ↔ x ∈ d.labels := by
  simp only [output, List.mem_append, List.mem_map, hs.not_mem hx, or_false]
  exact ⟨fun ⟨y, hy, h⟩ => NameForm.numbered_inj (d.valid y hy) hx h ▸ hy, fun h => ⟨x, h, rfl⟩⟩

end StackCode
