/-
The text that lowering writes, told apart into pieces: the code of an assignment, a
step, a call or an expression is one piece, and so is every other entry.

A `Part` relates the count of generated labels at its start to the pieces that are
written and to the count at its end. The parts of a statement are put together like
the steps that write it, and `Writer.Adds` says that a step writes no more and no less
than a part.
-/
import StackCode.Lowering.Tree
import StackCode.Proofs.Lowering.Output
import StackCode.Proofs.Stack.Straight

namespace StackCode

/-! ## Actions -/

/-- What code does in one go, without a jump. -/
inductive Action where
  | assign (p : Place) (value : Expr)
  | step (p : Place) (op : Increment)
  | call (target : String) (args : List Expr)
  /-- Leaves the value of an expression on the stack. -/
  | evaluate (e : Expr)
  /-- Leaves a value that is returned on the stack, as a value of the type that is declared for it. -/
  | give (e : Expr) (t : DataType)

/-- The code of an assignment. A struct literal goes to the members. -/
def storeCode (symbols : SymbolTable) (p : Place) : Expr → Lowered Code
  | .structLiteral values => structAssignCode symbols p values
  | value => assignCode symbols p value

def Action.code (symbols : SymbolTable) : Action → Lowered Code
  | assign p value => storeCode symbols p value
  | step p op => p.step symbols op (p.inner symbols)
  | call target args => callStatementCode symbols target args
  | evaluate e => e.code symbols
  | give e t => (e.operand symbols).pushAs symbols t

/-- What the code of an action is made of. -/
theorem Action.code_all {symbols : SymbolTable} {P : Instruction → Prop} (hP : symbols.Admits P)
    (a : Action) (hstep : ∀ p op, a = .step p op → (p.step symbols op (p.inner symbols)).All P) :
    (a.code symbols).All P := by
  cases a with
  | assign p value =>
    cases value with
    | structLiteral values => exact structAssignCode_all hP
    | _ => exact assignCode_all hP
  | step p op => exact hstep p op rfl
  | call target args => exact callStatementCode_all hP
  | evaluate e => exact e.code_all hP
  | give e t => exact e.pushAs_all hP t

/-- **What an action does is straight code**, without a jump in it or a mark. -/
theorem Action.code_straight {symbols : SymbolTable} (a : Action) : (a.code symbols).IsStraight :=
  a.code_all symbols.admits_isStraight fun _ _ _ => Place.step_straight

/-! ## Pieces -/

/-- A piece of the text: the code of an action, or another entry. -/
inductive Piece where
  | code (a : Action) (c : Code)
  | entry (e : Entry)

namespace Piece

def entries : Piece → List Entry
  | code _ c => c.map .instruction
  | entry e => [e]

def op (i : Instruction) : Piece := entry (.instruction i)

def label (name : String) : Piece := entry (.label name false)

end Piece

def entriesOf (ps : List Piece) : List Entry := ps.flatMap (·.entries)

theorem entriesOf_append {ps qs : List Piece} :
    entriesOf (ps ++ qs) = entriesOf ps ++ entriesOf qs :=
  List.flatMap_append

theorem entriesOf_code (a : Action) (c : Code) : entriesOf [.code a c] = c.map .instruction :=
  List.flatMap_singleton _ _

theorem entriesOf_ops (code : Code) : entriesOf (code.map Piece.op) = code.map .instruction := by
  induction code with
  | nil => rfl
  | cons i code ih => exact congrArg (.instruction i :: ·) ih

/-! ## Parts -/

/-- What a step writes when so many labels have been generated before it, and how many there are behind
it. -/
def Part := Nat → List Piece → Nat → Prop

namespace Part

def just (ps : List Piece) : Part := fun n qs n' => qs = ps ∧ n' = n

/-- One part behind another. -/
instance : Append Part where
  append p q := fun n ps n' => ∃ ps₁ m ps₂, p n ps₁ m ∧ q m ps₂ n' ∧ ps = ps₁ ++ ps₂

/-- A part that needs what was lowered by itself. -/
def given {α : Type} (x : Lowered α) (f : α → Part) : Part := fun n ps n' =>
  ∃ a, x = .ok a ∧ f a n ps n'

/-- A part with a label of its own. -/
def fresh (scope suffix : String) (f : String → Part) : Part := fun n ps n' =>
  f (labelName scope suffix (n + 1)) (n + 1) ps n'

def ops (code : Code) : Part := just (code.map Piece.op)

def place (name : String) : Part := just [.label name]

/-- The end of a construct. -/
def close (name : String) : Part := just [.label name, .op Opcode.nop.plain]

def act (symbols : SymbolTable) (a : Action) : Part := given (a.code symbols) fun c => just [.code a c]

end Part

/-! ## Steps that write parts -/

/-- No marks of lines come out of this code. -/
def Unmarked (code : Code) : Prop := ∀ i ∈ code, i.opcode ≠ .line

theorem Straight.unmarked {code : Code} (h : Straight code) : Unmarked code := fun i hi hline => by
  have hs := h i hi
  simp [Instruction.IsStraight, hline, Opcode.effect?] at hs

/-- The step writes what the part says. -/
structure Writer.Adds (w : Writer Unit) (p : Part) : Prop where
  writes : ∀ {out out' : Output} {u : Unit}, w out = .ok (u, out') →
    ∃ ps, p out.generated ps out'.generated ∧ Writes out (entriesOf ps) out'

namespace Writer.Adds

variable {w : Writer Unit} {p q : Part}

theorem of_appends {ps : List Piece}
    (h : ∀ {out out' : Output} {u : Unit}, w out = .ok (u, out') → Appends out (entriesOf ps) out') :
    w.Adds (.just ps) where
  writes hw := ⟨ps, ⟨rfl, (h hw).generated⟩, (h hw).toWrites⟩

theorem bind {v : Unit → Writer Unit} (hw : w.Adds p) (hv : ∀ u, (v u).Adds q) :
    (w >>= v).Adds (p ++ q) where
  writes h := by
    obtain ⟨u, mid, h₁, h₂⟩ := Writer.bind_ok_iff.1 h
    obtain ⟨ps₁, hp, hw₁⟩ := hw.writes h₁
    obtain ⟨ps₂, hq, hw₂⟩ := (hv u).writes h₂
    exact ⟨ps₁ ++ ps₂, ⟨ps₁, _, ps₂, hp, hq, rfl⟩, entriesOf_append ▸ hw₁.append hw₂⟩

/-- Behind a step that adds nothing. -/
theorem quiet {α : Type} {w : Writer α} {v : α → Writer Unit}
    (hw : ∀ {out out' : Output} {a : α}, w out = .ok (a, out') → Appends out [] out')
    (hv : ∀ a, (v a).Adds p) : (w >>= v).Adds p where
  writes h := by
    obtain ⟨a, mid, h₁, h₂⟩ := Writer.bind_ok_iff.1 h
    obtain ⟨ps, hp, hw₂⟩ := (hv a).writes h₂
    exact ⟨ps, (hw h₁).generated ▸ hp, (hw h₁).toWrites.append hw₂⟩

theorem mark {env : Environment} {position : Position} {v : Unit → Writer Unit}
    (hv : ∀ u, (v u).Adds p) : (env.mark position >>= v).Adds p :=
  quiet mark_appends hv

theorem pure_bind {α : Type} {a : α} {v : α → Writer Unit} (hv : (v a).Adds p) :
    ((Pure.pure a : Writer α) >>= v).Adds p := by
  simpa using hv

theorem lift {α : Type} {x : Lowered α} {f : α → Writer Unit} {g : α → Part}
    (h : ∀ a, x = .ok a → (f a).Adds (g a)) : (liftM x >>= f).Adds (.given x g) where
  writes hw := by
    obtain ⟨a, mid, h₁, h₂⟩ := Writer.bind_ok_iff.1 hw
    obtain ⟨hx, rfl⟩ := Writer.lift_ok_iff.1 h₁
    obtain ⟨ps, hp, hps⟩ := (h a hx).writes h₂
    exact ⟨ps, ⟨a, hx, hp⟩, hps⟩

theorem fresh {scope suffix : String} {f : String → Writer Unit} {g : String → Part}
    (h : ∀ name, (f name).Adds (g name)) :
    (freshLabel scope suffix >>= f).Adds (.fresh scope suffix g) where
  writes hw := by
    obtain ⟨name, mid, h₁, h₂⟩ := Writer.bind_ok_iff.1 hw
    obtain ⟨rfl, hquiet, hcount⟩ := freshLabel_ok h₁
    obtain ⟨ps, hp, hps⟩ := (h _).writes h₂
    rw [hcount] at hp
    exact ⟨ps, hp, hquiet.append hps⟩

/-- A step that gives up is never done. -/
theorem throw {e : LowerError} : Writer.Adds (MonadExcept.throw e) p where
  writes h := (Writer.throw_ok_iff.1 h).elim

theorem throw_bind {α : Type} {e : LowerError} {f : α → Writer Unit} :
    Writer.Adds ((MonadExcept.throw e : Writer α) >>= f) p where
  writes h := by
    obtain ⟨a, mid, h, -⟩ := Writer.bind_ok_iff.1 h
    exact (Writer.throw_ok_iff.1 h).elim

theorem pure (u : Unit) : Writer.Adds (Pure.pure u) (.just []) := of_appends fun h => by
  obtain ⟨-, rfl⟩ := Writer.pure_ok_iff.1 h
  exact .refl _

theorem emit {code : Code} (hc : Unmarked code) : (emit code).Adds (.ops code) :=
  of_appends fun h => entriesOf_ops code ▸ emit_appends hc h

theorem emitLowered {x : Lowered Code} (hc : ∀ code, x = .ok code → Unmarked code) :
    (emitLowered x).Adds (.given x .ops) where
  writes h := by
    obtain ⟨c, hx, h⟩ := emitLowered_ok_iff.1 h
    obtain ⟨ps, hp, hps⟩ := (emit (hc c hx)).writes h
    exact ⟨ps, ⟨c, hx, hp⟩, hps⟩

theorem act {symbols : SymbolTable} (a : Action) :
    (StackCode.emitLowered (a.code symbols)).Adds (.act symbols a) where
  writes h := by
    obtain ⟨c, hx, h⟩ := emitLowered_ok_iff.1 h
    have happ := emit_appends (a.code_straight c hx).unmarked h
    exact ⟨[.code a c], ⟨c, hx, rfl, happ.generated⟩, entriesOf_code a c ▸ happ.toWrites⟩

theorem place {name : String} : (placeLabel name).Adds (.place name) :=
  of_appends label_appends

theorem close {name : String} : (closeAt name).Adds (.close name) := by
  refine of_appends fun h => ?_
  obtain ⟨u, mid, h₁, h₂⟩ := Writer.bind_ok_iff.1 h
  exact (label_appends h₁).append (emit_appends (by simp [Opcode.plain]) h₂)

end Writer.Adds
end StackCode
