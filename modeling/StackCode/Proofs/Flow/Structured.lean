/-
What statements do, in the order of the source. Actions are not looked into: what a
condition comes to and what the status flags are is up to an oracle, which knows what
has been done so far. So a run is known by its trace.

A loop may go on for ever. A run is given fuel, the number of rounds that a loop may
take, and is cut off when a loop uses it up; the trace of a run that is cut off is at
least as long as the fuel.
-/
import StackCode.Proofs.Lowering.Part

namespace StackCode

/-! ## What a run is told -/

/-- What has been done, the first action first. An evaluated condition is an action. -/
abbrev Trace := List Action

structure Oracle where
  /-- The value is zero that the last action of the trace, an evaluation, has left. -/
  isZero : Trace → Bool
  flag : Trace → StatusFlag → Bool

/-- The flags are as the test asks for. -/
def FlagTest.holds (flag : StatusFlag → Bool) : FlagTest → Bool
  | carrySet => flag .carry
  | carryClear => !flag .carry
  | zero => flag .zero
  | notZero => !flag .zero
  | overflowSet => flag .overflow
  | overflowClear => !flag .overflow
  | negative => flag .negative
  | positive => !flag .negative

/-- The flags are as the condition says. -/
def FlagCondition.holds (flag : StatusFlag → Bool) : FlagCondition → Bool
  | cs => flag .carry
  | cc => !flag .carry
  | eq | z => flag .zero
  | ne | nz => !flag .zero
  | vs => flag .overflow
  | vc => !flag .overflow
  | mi | neg => flag .negative
  | pl | pos => !flag .negative

theorem FlagTest.holds_complement (flag : StatusFlag → Bool) (test : FlagTest) :
    test.complement.holds flag = !test.holds flag := by
  cases test <;> simp [complement, holds]

theorem FlagCondition.holds_test (flag : StatusFlag → Bool) (c : FlagCondition) :
    c.test.holds flag = c.holds flag := by
  cases c <;> rfl

/-! ## Runs of statements -/

/-- Where a jump leads. -/
inductive Goal where
  | label (name : String)
  /-- The operand is a fixed address. -/
  | address (operand : Value)
deriving DecidableEq

def JumpTarget.goal : JumpTarget → Goal
  | .address a => .address (.ofAddress a)
  | .named name | .generated name => .label name

/-- How a run ends. -/
inductive Ending where
  /-- By going on behind what was run. -/
  | falls
  /-- By leaving a round of the innermost loop. -/
  | exits (kind : LoopExit)
  | goes (goal : Goal)
  /-- Not at all, within the fuel. -/
  | isCut
deriving DecidableEq

structure Outcome where
  trace : Trace
  ending : Ending

namespace Outcome

/-- Goes on behind a run that falls through. -/
def andThen (r : Outcome) (f : Trace → Outcome) : Outcome :=
  match r.ending with
  | .falls => f r.trace
  | _ => r

/-- Goes on with a loop behind a round of it. -/
def afterRound (r : Outcome) (f : Trace → Outcome) : Outcome :=
  match r.ending with
  | .falls | .exits .next => f r.trace
  | .exits .leave => ⟨r.trace, .falls⟩
  | _ => r

end Outcome

variable (o : Oracle)

/-- Rounds of a loop as long as the condition holds before them. -/
def whileRounds (condition : Expr) (round : Trace → Outcome) : Nat → Trace → Outcome
  | 0, trace => ⟨trace, .isCut⟩
  | fuel + 1, trace =>
    let trace := trace ++ [.evaluate condition]
    if o.isZero trace then ⟨trace, .falls⟩
    else (round trace).afterRound (whileRounds condition round fuel)

/-- Rounds of a loop until the condition holds behind one. -/
def repeatRounds (condition : Expr) (round : Trace → Outcome) : Nat → Trace → Outcome
  | 0, trace => ⟨trace, .isCut⟩
  | fuel + 1, trace =>
    (round trace).afterRound fun trace =>
      let trace := trace ++ [.evaluate condition]
      if o.isZero trace then repeatRounds condition round fuel trace else ⟨trace, .falls⟩

mutual

/-- The run of a statement behind a trace, without calls and loops over ranges or elements. -/
def Statement.exec (fuel : Nat) : Statement → Trace → Outcome
  | .assign place value _, trace => ⟨trace ++ [.assign place value], .falls⟩
  | .step place op _, trace => ⟨trace ++ [.step place op], .falls⟩
  | .call target args _, trace => ⟨trace ++ [.call target args], .falls⟩
  | .jump target _, trace => ⟨trace, .goes target.goal⟩
  | .cond condition thenPart elsePart _, trace =>
    let trace := trace ++ [.evaluate condition]
    if o.isZero trace then elsePart.exec fuel trace else thenPart.exec fuel trace
  | .branch condition thenPart elsePart _, trace =>
    if condition.holds (o.flag trace) then thenPart.exec fuel trace else elsePart.exec fuel trace
  | .exit kind _, trace => ⟨trace, .exits kind⟩
  | .whileLoop condition body _, trace => whileRounds o condition (body.exec fuel) fuel trace
  | .repeatLoop body condition _, trace => repeatRounds o condition (body.exec fuel) fuel trace
  | .scope s, trace => s.exec fuel trace
  | _, trace => ⟨trace, .falls⟩

def Scope.exec (fuel : Nat) : Scope → Trace → Outcome
  | ⟨_, statements, _⟩, trace => Statement.execAll fuel statements trace

/-- The run of statements one after the other. -/
def Statement.execAll (fuel : Nat) : List Statement → Trace → Outcome
  | [], trace => ⟨trace, .falls⟩
  | s :: rest, trace => (s.exec fuel trace).andThen (Statement.execAll fuel rest)

end

/-- The statements come to the end of the trace, if not further. -/
def Statement.Perform (ss : List Statement) (trace : Trace) : Prop :=
  ∃ fuel, trace <+: (execAll o fuel ss []).trace

/-- The statements end, with this trace. -/
def Statement.End (ss : List Statement) (trace : Trace) (ending : Ending) : Prop :=
  ending ≠ .isCut ∧ ∃ fuel, execAll o fuel ss [] = ⟨trace, ending⟩

/-! ## Plain statements -/

mutual

/-- The statement is run as it says: it is an action, a jump, a choice on a condition or a flag, a loop
on a condition, or a way out of one. -/
def Statement.isPlain : Statement → Bool
  | .varDecl _ | .assign .. | .step .. | .jump .. | .call .. | .exit .. | .nop => true
  | .cond _ thenPart elsePart _ | .branch _ thenPart elsePart _ => thenPart.isPlain && elsePart.isPlain
  | .whileLoop _ body _ | .repeatLoop body _ _ => body.isPlain
  | .scope s => s.isPlain
  | _ => false

def Scope.isPlain : Scope → Bool
  | ⟨_, statements, _⟩ => Statement.arePlain statements

def Statement.arePlain : List Statement → Bool
  | [] => true
  | s :: rest => s.isPlain && Statement.arePlain rest

end

/-- The statement is no jump to one of these labels. -/
def Statement.JumpsClearOf (labels : List String) : Statement → Prop
  | .jump target _ => ∀ l ∈ labels, target.goal ≠ .label l
  | _ => True

/-! ## Runs that are cut off -/

/-- The run goes on from the trace, and if it is cut off, it has done at least so much more. -/
structure Outcome.Lasts (r : Outcome) (trace : Trace) (fuel : Nat) : Prop where
  isPrefix : trace <+: r.trace
  long : r.ending = .isCut → trace.length + fuel ≤ r.trace.length

namespace Outcome.Lasts

variable {r : Outcome} {f : Trace → Outcome} {trace : Trace} {fuel : Nat}

theorem of_ends {ending : Ending} (h : ending ≠ .isCut) : Lasts ⟨trace, ending⟩ trace fuel :=
  ⟨List.prefix_rfl, fun hcut => absurd hcut h⟩

theorem of_act {a : Action} : Lasts ⟨trace ++ [a], .falls⟩ trace fuel :=
  ⟨List.prefix_append _ _, nofun⟩

theorem mono {n : Nat} (h : r.Lasts trace fuel) (hn : n ≤ fuel) : r.Lasts trace n :=
  ⟨h.isPrefix, fun hcut => Nat.le_trans (Nat.add_le_add_left hn _) (h.long hcut)⟩

theorem behind {a : Action} (h : r.Lasts (trace ++ [a]) fuel) : r.Lasts trace (fuel + 1) where
  isPrefix := (List.prefix_append _ _).trans h.isPrefix
  long hcut := by
    have hlong := h.long hcut
    rw [List.length_append, List.length_singleton] at hlong
    omega

theorem trans (h : r.Lasts trace fuel) (hf : (f r.trace).Lasts r.trace fuel) :
    (f r.trace).Lasts trace fuel :=
  ⟨h.isPrefix.trans hf.isPrefix, fun hcut =>
    Nat.le_trans (Nat.add_le_add_right h.isPrefix.length_le _) (hf.long hcut)⟩

theorem andThen (h : r.Lasts trace fuel) (hf : ∀ t, (f t).Lasts t fuel) :
    (r.andThen f).Lasts trace fuel := by
  unfold Outcome.andThen
  split
  · exact h.trans (hf _)
  · exact h

theorem afterRound (h : r.Lasts trace fuel) (hf : ∀ t, (f t).Lasts t fuel) :
    (r.afterRound f).Lasts trace fuel := by
  unfold Outcome.afterRound
  split
  · exact h.trans (hf _)
  · exact h.trans (hf _)
  · exact ⟨h.isPrefix, nofun⟩
  · exact h

end Outcome.Lasts

variable {o} {fuel : Nat}

theorem whileRounds_lasts {condition : Expr} {round : Trace → Outcome}
    (h : ∀ t, (round t).Lasts t fuel) {n : Nat} (hn : n ≤ fuel) (trace : Trace) :
    (whileRounds o condition round n trace).Lasts trace n := by
  induction n generalizing trace with
  | zero => exact ⟨List.prefix_rfl, fun _ => Nat.le_refl _⟩
  | succ n ih =>
    simp only [whileRounds]
    split
    · exact .of_act
    · exact .behind (.afterRound ((h _).mono (by omega)) (ih (by omega)))

theorem repeatRounds_lasts {condition : Expr} {round : Trace → Outcome}
    (h : ∀ t, (round t).Lasts t fuel) {n : Nat} (hn : n ≤ fuel) (trace : Trace) :
    (repeatRounds o condition round n trace).Lasts trace n := by
  induction n generalizing trace with
  | zero => exact ⟨List.prefix_rfl, fun _ => Nat.le_refl _⟩
  | succ n ih =>
    refine .afterRound ((h trace).mono hn) fun t => ?_
    simp only
    split
    · exact .behind (ih (by omega) _)
    · exact .of_act

mutual

theorem Statement.exec_lasts : ∀ (s : Statement) (trace : Trace), (s.exec o fuel trace).Lasts trace fuel
  | .assign .., _ | .step .., _ | .call .., _ => .of_act
  | .jump .., _ | .exit .., _ => .of_ends nofun
  | .cond _ thenPart elsePart _, trace => by
    simp only [Statement.exec]
    split
    · exact (Outcome.Lasts.behind (elsePart.exec_lasts _)).mono (Nat.le_succ _)
    · exact (Outcome.Lasts.behind (thenPart.exec_lasts _)).mono (Nat.le_succ _)
  | .branch _ thenPart elsePart _, trace => by
    simp only [Statement.exec]
    split
    · exact thenPart.exec_lasts trace
    · exact elsePart.exec_lasts trace
  | .whileLoop _ body _, trace => whileRounds_lasts body.exec_lasts (Nat.le_refl _) trace
  | .repeatLoop body _ _, trace => repeatRounds_lasts body.exec_lasts (Nat.le_refl _) trace
  | .scope s, trace => s.exec_lasts trace
  | .varDecl _, _ | .label .., _ | .forEach .., _ | .ret .., _ | .returnFromIrq _, _
  | .directive .., _ | .subroutine .., _ | .assembly .., _ | .choose .., _ | .nop, _ => .of_ends nofun

theorem Scope.exec_lasts : ∀ (s : Scope) (trace : Trace), (s.exec o fuel trace).Lasts trace fuel
  | ⟨_, statements, _⟩, trace => Statement.execAll_lasts statements trace

/-- A run that is cut off has done at least as much as there was fuel. -/
theorem Statement.execAll_lasts : ∀ (ss : List Statement) (trace : Trace),
    (Statement.execAll o fuel ss trace).Lasts trace fuel
  | [], _ => .of_ends nofun
  | s :: rest, trace => .andThen (s.exec_lasts trace) (Statement.execAll_lasts rest)

end

end StackCode
