/-
The jump code does what the statements say. Each part of a text is followed by the run
of the statement that it was written for: from the start of the part the machine comes
to where the run ends, with the same trace, and it has nothing on the stack but what was
there before.
-/
import StackCode.Proofs.Flow.Machine
import StackCode.Proofs.Lowering.Emits
import StackCode.Tree.Traversal

namespace StackCode

variable {o : Oracle} {text : List Piece} {loop : Option LoopLabels}

/-! ## Following a run -/

/-- From the state the machine comes to where the run ends. Behind the part stands the rest; the labels
are those of the innermost loop. -/
def Outcome.Reached (o : Oracle) (text : List Piece) (loop : Option LoopLabels) (rest : List Piece)
    (values : List Bool) (start : State) (r : Outcome) : Prop :=
  match r.ending with
  | .falls => Steps o text start (.runs rest r.trace values)
  | .exits kind => ∃ labels, loop = some labels ∧
      Steps o text start (State.at text r.trace values (.label (labels.target kind)))
  | .goes g => Steps o text start (.left r.trace (.goes g))
  | .isCut => ∃ rest values, Steps o text start (.runs rest r.trace values)

namespace Outcome.Reached

variable {rest rest' : List Piece} {values : List Bool} {start mid : State} {r : Outcome}
  {f : Trace → Outcome}

theorem refl {trace : Trace} :
    Reached o text loop rest values (.runs rest trace values) ⟨trace, .falls⟩ :=
  Relation.ReflTransGen.refl

/-- The start may lie further back. -/
theorem after (h : Steps o text start mid) (hr : Reached o text loop rest values mid r) :
    Reached o text loop rest values start r := by
  unfold Reached at hr ⊢
  split at hr
  · exact h.trans hr
  · obtain ⟨labels, hl, hsteps⟩ := hr
    exact ⟨labels, hl, h.trans hsteps⟩
  · exact h.trans hr
  · obtain ⟨rest, values, hsteps⟩ := hr
    exact ⟨rest, values, h.trans hsteps⟩

theorem step (h : step? o text start = some mid) (hr : Reached o text loop rest values mid r) :
    Reached o text loop rest values start r :=
  hr.after (.one h)

/-- The end may lie further on. -/
theorem before (hr : Reached o text loop rest' values start r)
    (h : ∀ trace, Steps o text (.runs rest' trace values) (.runs rest trace values)) :
    Reached o text loop rest values start r := by
  obtain ⟨trace, ending⟩ := r
  cases ending with
  | falls => exact Relation.ReflTransGen.trans hr (h trace)
  | _ => exact hr

/-- A run that falls through may go on behind the part. -/
theorem andThen (hr : Reached o text loop rest' values start r)
    (hf : ∀ trace, (f trace).Reached o text loop rest values (.runs rest' trace values)) :
    Reached o text loop rest values start (r.andThen f) := by
  unfold Outcome.andThen
  obtain ⟨trace, ending⟩ := r
  cases ending with
  | falls => exact (hf trace).after hr
  | _ => exact hr

/-- Behind a round of a loop the next one starts where the round ends, or where a `continue` leads. A
`break` leads behind the loop. -/
theorem afterRound {labels : LoopLabels} (hr : Reached o text (some labels) rest' values start r)
    (hfalls : ∀ trace, (f trace).Reached o text loop rest values (.runs rest' trace values))
    (hnext : ∀ trace, (f trace).Reached o text loop rest values
      (State.at text trace values (.label labels.next)))
    (hleave : ∀ trace, Steps o text (State.at text trace values (.label labels.leave))
      (.runs rest trace values)) :
    Reached o text loop rest values start (r.afterRound f) := by
  unfold Outcome.afterRound
  obtain ⟨trace, ending⟩ := r
  cases ending with
  | falls => exact (hfalls trace).after hr
  | exits kind =>
    obtain ⟨labels', hl, hsteps⟩ := hr
    cases hl
    cases kind with
    | next => exact (hnext trace).after hsteps
    | leave => exact hsteps.trans (hleave trace)
  | goes => exact hr
  | isCut => exact hr

end Outcome.Reached

/-! ## Parts -/

/-- From its start the part follows the run, if these values wait on the stack. -/
structure Part.Follows (o : Oracle) (text : List Piece) (loop : Option LoopLabels)
    (waiting : Trace → List Bool) (p : Part) (run : Trace → Outcome) : Prop where
  reached : ∀ {n : Nat} {ps : List Piece} {n' : Nat} {rest : List Piece}, p n ps n' →
    Stands text ps rest → ∀ (trace : Trace) (values : List Bool),
    (run trace).Reached o text loop rest values (.runs (ps ++ rest) trace (waiting trace ++ values))

/-- Nothing waits. -/
abbrev Part.Simulates (o : Oracle) (text : List Piece) (loop : Option LoopLabels) (p : Part)
    (run : Trace → Outcome) : Prop :=
  p.Follows o text loop (fun _ => []) run

namespace Part.Follows

variable {waiting : Trace → List Bool} {p q : Part} {run run' : Trace → Outcome}

theorem just_nil : (Part.just []).Simulates o text loop fun trace => ⟨trace, .falls⟩ where
  reached h _ _ _ := by
    obtain ⟨rfl, -⟩ := h
    exact .refl

theorem append (hp : p.Follows o text loop waiting run) (hq : q.Simulates o text loop run') :
    (p ++ q).Follows o text loop waiting fun trace => (run trace).andThen run' where
  reached h hs trace values := by
    obtain ⟨ps₁, m, ps₂, h₁, h₂, rfl⟩ := h
    have hfirst := hp.reached h₁ hs.left trace values
    rw [List.append_assoc]
    exact hfirst.andThen fun trace => hq.reached h₂ hs.right trace values

theorem congr (h : p.Follows o text loop waiting run) (heq : ∀ trace, run trace = run' trace) :
    p.Follows o text loop waiting run' :=
  funext heq ▸ h

theorem given {α : Type} {x : Lowered α} {f : α → Part}
    (h : ∀ a, x = .ok a → (f a).Follows o text loop waiting run) :
    (Part.given x f).Follows o text loop waiting run where
  reached hp := by
    obtain ⟨a, hx, hp⟩ := hp
    exact (h a hx).reached hp

theorem fresh {scope suffix : String} {f : String → Part}
    (h : ∀ l, (f l).Follows o text loop waiting run) :
    (Part.fresh scope suffix f).Follows o text loop waiting run where
  reached hp := (h _).reached hp

theorem frame {scope : String} {f : LoopFrame → Part} (h : ∀ l, (f l).Follows o text loop waiting run) :
    (Part.frame scope f).Follows o text loop waiting run :=
  .fresh fun _ => .fresh fun _ => .fresh fun _ => h _

/-- An action that leaves nothing. -/
theorem act {symbols : SymbolTable} {a : Action} (ha : ∀ trace, a.leaves o trace = []) :
    (Part.act symbols a).Simulates o text loop fun trace => ⟨trace ++ [a], .falls⟩ where
  reached {n ps n' rest} h _ trace values := by
    obtain ⟨c, -, rfl, -⟩ := h
    have hstep : step? o text (.runs ([Piece.code a c] ++ rest) trace values) =
        some (.runs rest (trace ++ [a]) values) := by simp [step?, ha]
    exact .step hstep .refl

/-- A condition is evaluated, and its value waits for what comes next. -/
theorem evaluate {symbols : SymbolTable} {e : Expr} (run : Trace → Outcome)
    (h : p.Follows o text loop (fun trace => [o.isZero trace]) run) :
    (Part.act symbols (.evaluate e) ++ p).Simulates o text loop
      fun trace => run (trace ++ [Action.evaluate e]) where
  reached {n ps n' rest} hp hs trace values := by
    obtain ⟨_, m, ps, ⟨c, -, rfl, rfl⟩, hp, rfl⟩ := hp
    have hstep : step? o text (.runs ([Piece.code (.evaluate e) c] ++ ps ++ rest) trace values) =
        some (.runs (ps ++ rest) (trace ++ [Action.evaluate e])
          ([o.isZero (trace ++ [Action.evaluate e])] ++ values)) := rfl
    exact .step hstep (h.reached hp hs.right (trace ++ [Action.evaluate e]) values)

end Part.Follows

/-! ## Jumps -/

/-- The opcode goes to its goal if the test says so, and goes on if not. -/
def Opcode.Decides (o : Oracle) (text : List Piece) (op : Opcode) (waiting : Trace → List Bool)
    (test : Trace → Bool) : Prop :=
  ∀ (i : Instruction) (rest : List Piece) (trace : Trace) (values : List Bool), i.opcode = op →
    step? o text (.runs (.op i :: rest) trace (waiting trace ++ values)) =
      jumpIf text (test trace) i rest trace values

theorem Opcode.Decides.jump : Opcode.jump.Decides o text (fun _ => []) fun _ => true :=
  fun i rest trace values hi => by simp [step?, Piece.op, instruction?, hi]

theorem Opcode.Decides.branch {test : FlagTest} :
    (Opcode.branch test).Decides o text (fun _ => []) fun trace => test.holds (o.flag trace) :=
  fun i rest trace values hi => by simp [step?, Piece.op, instruction?, hi]

theorem Opcode.Decides.jumpZeroFor {t : DataType} {op : Opcode} (h : Opcode.jumpZeroFor t = .ok op) :
    op.Decides o text (fun trace => [o.isZero trace]) o.isZero := by
  obtain ⟨n, -, rfl⟩ := jumpZeroFor_ok h
  intro i rest trace values hi
  simp [step?, Piece.op, instruction?, hi]

theorem Opcode.Decides.jumpNonzeroFor {t : DataType} {op : Opcode}
    (h : Opcode.jumpNonzeroFor t = .ok op) :
    op.Decides o text (fun trace => [o.isZero trace]) fun trace => !o.isZero trace := by
  obtain ⟨n, -, rfl⟩ := jumpNonzeroFor_ok h
  intro i rest trace values hi
  simp [step?, Piece.op, instruction?, hi]

namespace Opcode.Decides

variable {op : Opcode} {waiting : Trace → List Bool} {test : Trace → Bool} {i : Instruction} {g : Goal}
  {rest : List Piece} {trace : Trace} {values : List Bool}

theorem taken (hop : op.Decides o text waiting test) (hi : i.opcode = op) (hg : i.goal? = some g)
    (h : test trace = true) :
    Steps o text (.runs (.op i :: rest) trace (waiting trace ++ values)) (State.at text trace values g) :=
  .one (by rw [hop i rest trace values hi, jumpIf, h, hg]; rfl)

theorem passed (hop : op.Decides o text waiting test) (hi : i.opcode = op) (h : test trace = false) :
    Steps o text (.runs (.op i :: rest) trace (waiting trace ++ values)) (.runs rest trace values) :=
  .one (by rw [hop i rest trace values hi, jumpIf, h]; rfl)

theorem toLabel {l : String} {ps rest' : List Piece} (hop : op.Decides o text waiting test)
    (hn : (labelsOf (entriesOf text)).Nodup) (hs : Stands text (.label l :: ps) rest')
    (h : test trace = true) :
    Steps o text (.runs (.op (op.named l) :: rest) trace (waiting trace ++ values))
      (.runs (ps ++ rest') trace values) :=
  hs.at_label hn trace values ▸ hop.taken rfl rfl h

end Opcode.Decides

theorem Steps.evaluate {e : Expr} {c : Code} {rest : List Piece} {trace : Trace} {values : List Bool} :
    Steps o text (.runs (.code (.evaluate e) c :: rest) trace values)
      (.runs rest (trace ++ [Action.evaluate e]) ([o.isZero (trace ++ [Action.evaluate e])] ++ values)) :=
  .one rfl

/-- The end of a construct. -/
theorem Steps.close {l : String} {rest : List Piece} {trace : Trace} {values : List Bool} :
    Steps o text (.runs ([Piece.label l, .op Opcode.nop.plain] ++ rest) trace values)
      (.runs rest trace values) :=
  .head rfl (.head rfl .refl)

theorem Environment.goal?_jumpInstruction {env : Environment} {op : Opcode} {target : JumpTarget}
    {i : Instruction} (h : env.jumpInstruction op target = .ok i) :
    i.opcode = op ∧ i.goal? = some target.goal := by
  obtain ⟨a, rfl, rfl⟩ | ⟨l, rfl | rfl, rfl⟩ := jumpInstruction_ok h <;> exact ⟨rfl, rfl⟩

section Constructs

variable {env : Environment} {ctx : Context} {op away : Opcode} {waiting : Trace → List Bool}
  {test : Trace → Bool} {thenPart elsePart p : Part} {run thenRun elseRun : Trace → Outcome}

/-- A jump out of the text if the test says so. -/
theorem jump_follows {target : JumpTarget} (hop : op.Decides o text waiting test)
    (ht : ∀ l ∈ labelsOf (entriesOf text), target.goal ≠ .label l) :
    (Part.jump env op target).Follows o text loop waiting
      fun trace => if test trace then ⟨trace, .goes target.goal⟩ else ⟨trace, .falls⟩ where
  reached {n ps n' rest} h hs trace values := by
    obtain ⟨i, hi, rfl, -⟩ := h
    obtain ⟨hiop, hgoal⟩ := Environment.goal?_jumpInstruction hi
    cases htest : test trace with
    | true =>
      have hsteps : Steps o text (.runs ([Piece.op i] ++ rest) trace (waiting trace ++ values)) _ :=
        hop.taken hiop hgoal htest
      rwa [State.at_outside ht] at hsteps
    | false => exact hop.passed hiop htest

/-- A jump before a part for the other case. -/
theorem jumpBefore_follows {target : JumpTarget} (hop : op.Decides o text waiting test)
    (ht : ∀ l ∈ labelsOf (entriesOf text), target.goal ≠ .label l) (hp : p.Simulates o text loop run) :
    (Part.jump env op target ++ p).Follows o text loop waiting
      fun trace => if test trace then ⟨trace, .goes target.goal⟩ else run trace :=
  ((jump_follows hop ht).append hp).congr fun trace => by
    cases test trace <;> rfl

/-- Two parts behind a jump to the second one. -/
theorem alternatives_follows {elseLabel endLabel : String} {elseIdle : Bool}
    (hn : (labelsOf (entriesOf text)).Nodup) (haway : away.Decides o text waiting test)
    (ht : thenPart.Simulates o text loop thenRun) (he : elsePart.Simulates o text loop elseRun)
    (hidle : elseIdle → ∀ trace, elseRun trace = ⟨trace, .falls⟩) :
    (Part.alternatives away elseLabel endLabel elseIdle thenPart elsePart).Follows o text loop waiting
      fun trace => if test trace then elseRun trace else thenRun trace where
  reached {n ps n' rest} h hs trace values := by
    unfold Part.alternatives at h
    split at h
    next hi =>
      obtain ⟨_, _, _, ⟨rfl, rfl⟩, ⟨ps₁, m, _, h₁, ⟨rfl, rfl⟩, rfl⟩, rfl⟩ := h
      rw [List.append_assoc, List.append_assoc]
      cases htest : test trace with
      | true =>
        rw [if_pos rfl, hidle hi]
        exact (haway.toLabel hn hs.right.right htest).trans (.head rfl .refl)
      | false =>
        have hthen := (ht.reached h₁ hs.right.left trace values).before fun _ => .close
        exact hthen.after (haway.passed rfl htest)
    next =>
      obtain ⟨_, _, _, ⟨rfl, rfl⟩, ⟨ps₁, m, _, h₁, ⟨_, _, _, ⟨rfl, rfl⟩, ⟨_, _, _, ⟨rfl, rfl⟩,
        ⟨ps₂, _, _, h₂, ⟨rfl, rfl⟩, rfl⟩, rfl⟩, rfl⟩, rfl⟩, rfl⟩ := h
      have hend := hs.right.right.right.right.right
      cases htest : test trace with
      | true =>
        have helse := (he.reached h₂ hs.right.right.right.right.left trace values).before fun _ => .close
        rw [← List.append_assoc] at helse
        exact helse.after (haway.toLabel hn hs.right.right.right htest)
      | false =>
        have hthen := (ht.reached h₁ hs.right.left trace values).before fun trace =>
          (Opcode.Decides.jump.toLabel hn hend rfl).trans (.head rfl .refl)
        rw [← List.append_assoc] at hthen
        exact hthen.after (haway.passed rfl htest)

theorem conditional_follows {condition : Expr} {thenScope elseScope : Scope}
    (hn : (labelsOf (entriesOf text)).Nodup) (ht : thenPart.Simulates o text loop thenRun)
    (he : elsePart.Simulates o text loop elseRun)
    (honly : ∀ target position, thenScope.onlyJump? = some (target, position) →
      (∀ l ∈ labelsOf (entriesOf text), target.goal ≠ .label l) ∧
        ∀ trace, thenRun trace = ⟨trace, .goes target.goal⟩)
    (hidle : elseScope.isIdle → ∀ trace, elseRun trace = ⟨trace, .falls⟩) :
    (Part.conditional env ctx condition thenScope elseScope thenPart elsePart).Simulates o text loop
      fun trace =>
        if o.isZero (trace ++ [Action.evaluate condition]) then elseRun (trace ++ [Action.evaluate condition])
        else thenRun (trace ++ [Action.evaluate condition]) := by
  refine .given fun t _ => .evaluate (fun trace =>
    if o.isZero trace then elseRun trace else thenRun trace) ?_
  split
  next target position hjump =>
    obtain ⟨houtside, hrun⟩ := honly target position hjump
    refine .given fun op hop =>
      (jumpBefore_follows (.jumpNonzeroFor hop) houtside he).congr fun trace => ?_
    cases htest : o.isZero trace <;> simp [hrun]
  next =>
    refine .given fun away haway => .fresh fun endLabel => ?_
    split
    next h => exact alternatives_follows hn (.jumpZeroFor haway) ht he fun _ => hidle h
    next => exact .fresh fun elseLabel => alternatives_follows hn (.jumpZeroFor haway) ht he nofun

/-- If both parts are jumps, the second one is taken just if the first one is not. -/
theorem flagBranch_follows {condition : FlagCondition} {thenScope elseScope : Scope}
    (hn : (labelsOf (entriesOf text)).Nodup) (ht : thenPart.Simulates o text loop thenRun)
    (he : elsePart.Simulates o text loop elseRun)
    (hthen : ∀ target position, thenScope.leadingJump? = some (target, position) →
      (∀ l ∈ labelsOf (entriesOf text), target.goal ≠ .label l) ∧
        ∀ trace, thenRun trace = ⟨trace, .goes target.goal⟩)
    (helse : ∀ target position, elseScope.leadingJump? = some (target, position) →
      (∀ l ∈ labelsOf (entriesOf text), target.goal ≠ .label l) ∧
        ∀ trace, elseRun trace = ⟨trace, .goes target.goal⟩)
    (hidle : thenScope.isIdle → ∀ trace, thenRun trace = ⟨trace, .falls⟩)
    (hidle' : elseScope.isIdle → ∀ trace, elseRun trace = ⟨trace, .falls⟩) :
    (Part.flagBranch env ctx condition.test thenScope elseScope thenPart elsePart).Simulates o text loop
      fun trace => if condition.holds (o.flag trace) then thenRun trace else elseRun trace := by
  unfold Part.flagBranch
  split
  next h =>
    rw [Bool.and_eq_true] at h
    exact Part.Follows.just_nil.congr fun trace => by simp [hidle h.1, hidle' h.2]
  next =>
    cases hjumps : branchJumps? thenScope elseScope with
    | none =>
      refine .fresh fun elseLabel => .fresh fun endLabel =>
        (alternatives_follows hn .branch ht he hidle').congr fun trace => ?_
      rw [FlagTest.holds_complement, FlagCondition.holds_test]
      cases condition.holds (o.flag trace) <;> rfl
    | some jumps =>
      obtain ⟨⟨target, position⟩, other⟩ := jumps
      obtain ⟨htarget, ⟨hi, rfl⟩ | ⟨⟨target', position'⟩, htarget', rfl⟩⟩ := branchJumps?_ok hjumps
      · obtain ⟨houtside, hrun⟩ := hthen target position htarget
        refine (jumpBefore_follows .branch houtside .just_nil).congr fun trace => ?_
        rw [FlagCondition.holds_test, hrun, hidle' hi]
      · obtain ⟨houtside, hrun⟩ := hthen target position htarget
        obtain ⟨houtside', hrun'⟩ := helse target' position' htarget'
        refine (jumpBefore_follows .branch houtside (jump_follows .branch houtside')).congr fun trace => ?_
        rw [FlagTest.holds_complement, FlagCondition.holds_test, hrun, hrun']
        cases condition.holds (o.flag trace) <;> rfl

/-! ## Loops -/

/-- Behind the body of a loop, where a round ends. The rounds to come are followed from there. -/
structure RoundEnd (o : Oracle) (text : List Piece) (loop : Option LoopLabels) (labels : LoopLabels)
    (tail rest : List Piece) (values : List Bool) (rounds : Trace → Outcome) : Prop where
  nodup : (labelsOf (entriesOf text)).Nodup
  next : Stands text (.label labels.next :: tail) rest
  leave : Stands text [.label labels.leave, .op Opcode.nop.plain] rest
  rounds : ∀ trace, (rounds trace).Reached o text loop rest values (.runs (tail ++ rest) trace values)

/-- A round of a loop, and the rounds behind it. -/
theorem RoundEnd.afterRound {labels : LoopLabels} {tail rest : List Piece} {values : List Bool}
    {rounds : Trace → Outcome} {start : State} {r : Outcome}
    (h : RoundEnd o text loop labels tail rest values rounds)
    (hr : r.Reached o text (some labels) (.label labels.next :: tail ++ rest) values start) :
    (r.afterRound rounds).Reached o text loop rest values start := by
  refine Outcome.Reached.afterRound hr (fun trace => .step rfl (h.rounds trace)) (fun trace => ?_)
    fun trace => ?_
  · rw [h.next.at_label h.nodup]
    exact h.rounds trace
  · rw [h.leave.at_label h.nodup]
    exact .one rfl

variable {body : LoopLabels → Part} {condition : Expr} {scope : String}

/-- The machine starts at the test, and comes back to it behind each round. -/
theorem whileLoop_follows {fuel : Nat} (hn : (labelsOf (entriesOf text)).Nodup)
    (hb : ∀ labels, (body labels).Simulates o text (some labels) run) :
    (Part.whileLoop env condition scope body).Simulates o text loop (whileRounds o condition run fuel) :=
  .fresh fun start => .fresh fun leave => .fresh fun next => .given fun t _ => .given fun goOn hgo => by
    refine ⟨fun {n ps n' rest} h hs trace values => ?_⟩
    obtain ⟨_, _, _, ⟨rfl, rfl⟩, ⟨_, _, _, ⟨rfl, rfl⟩, ⟨inner, m, _, hbody, ⟨_, _, _, ⟨rfl, rfl⟩,
      ⟨_, _, _, ⟨c, -, rfl, rfl⟩, ⟨_, _, _, ⟨rfl, rfl⟩, ⟨rfl, rfl⟩, rfl⟩, rfl⟩, rfl⟩, rfl⟩, rfl⟩,
      rfl⟩ := h
    have hstart := hs.right
    have hnext := hstart.right.right
    have hrounds : ∀ n trace, (whileRounds o condition run n trace).Reached o text loop rest values
        (.runs ([Piece.code (.evaluate condition) c] ++ ([Piece.op (goOn.named start)] ++
          [Piece.label leave, .op Opcode.nop.plain]) ++ rest) trace values) := by
      intro n
      induction n with
      | zero => exact fun _ => ⟨_, _, .refl⟩
      | succ n ih =>
        intro trace
        refine .after .evaluate ?_
        have hdecides : goOn.Decides o text _ _ := .jumpNonzeroFor hgo
        simp only [whileRounds]
        split
        next htest => exact .after (hdecides.passed rfl (by simp [htest])) Steps.close
        next htest =>
          have hend : RoundEnd o text loop ⟨leave, next⟩ _ rest values _ :=
            ⟨hn, hnext, hnext.right.right.right, ih⟩
          have hround := hend.afterRound ((hb ⟨leave, next⟩).reached hbody hstart.right.left
            (trace ++ [Action.evaluate condition]) values)
          rw [← List.append_assoc] at hround
          exact hround.after (hdecides.toLabel hn hstart (by simp [htest]))
    exact (hrounds fuel trace).after (Opcode.Decides.jump.toLabel hn hnext rfl)

/-- A round comes first, and the test behind it. -/
theorem repeatLoop_follows {fuel : Nat} (hn : (labelsOf (entriesOf text)).Nodup)
    (hb : ∀ labels, (body labels).Simulates o text (some labels) run) :
    (Part.repeatLoop env condition scope body).Simulates o text loop
      (repeatRounds o condition run fuel) :=
  .frame fun f => .given fun t _ => .given fun goOn hgo => by
    refine ⟨fun {n ps n' rest} h hs trace values => ?_⟩
    obtain ⟨_, _, _, ⟨rfl, rfl⟩, ⟨inner, m, _, hbody, ⟨_, _, _, ⟨rfl, rfl⟩, ⟨_, _, _, ⟨c, -, rfl, rfl⟩,
      ⟨_, _, _, ⟨rfl, rfl⟩, ⟨rfl, rfl⟩, rfl⟩, rfl⟩, rfl⟩, rfl⟩, rfl⟩ := h
    have hnext := hs.right.right
    have hdecides : goOn.Decides o text _ _ := .jumpZeroFor hgo
    have hrounds : ∀ n trace, (repeatRounds o condition run n trace).Reached o text loop rest values
        (.runs (inner ++ ([Piece.label f.next] ++ ([Piece.code (.evaluate condition) c] ++
          ([Piece.op (goOn.named f.start)] ++ [Piece.label f.leave, .op Opcode.nop.plain]))) ++ rest)
            trace values) := by
      intro n
      induction n with
      | zero => exact fun _ => ⟨_, _, .refl⟩
      | succ n ih =>
        intro trace
        have hend : RoundEnd o text loop f.labels [.code (.evaluate condition) c,
            .op (goOn.named f.start), .label f.leave, .op Opcode.nop.plain] rest values fun trace =>
            if o.isZero (trace ++ [Action.evaluate condition]) then
              repeatRounds o condition run n (trace ++ [Action.evaluate condition])
            else ⟨trace ++ [Action.evaluate condition], .falls⟩ := by
          refine ⟨hn, hnext, hnext.right.right.right, fun trace => .after .evaluate ?_⟩
          split
          next htest => exact (ih _).after (hdecides.toLabel hn hs (by simp [htest]))
          next htest => exact .after (hdecides.passed rfl (by simp [htest])) Steps.close
        have hround := hend.afterRound ((hb f.labels).reached hbody hs.right.left trace values)
        rw [← List.append_assoc] at hround
        exact hround
    exact (hrounds fuel trace).step rfl

theorem exit_follows {kind : LoopExit} :
    (Part.exit ctx kind).Simulates o text ctx.loop fun trace => ⟨trace, .exits kind⟩ where
  reached h _ _ _ := by
    obtain ⟨labels, hl, rfl, -⟩ := h
    exact ⟨labels, hl, Opcode.Decides.jump.taken rfl rfl rfl⟩

end Constructs

/-! ## Statements -/

theorem Statement.exec_of_isNop {s : Statement} {fuel : Nat} {trace : Trace} (h : s.isNop) :
    s.exec o fuel trace = ⟨trace, .falls⟩ := by
  cases s <;> first | rfl | cases h

theorem Scope.exec_of_isIdle {s : Scope} {fuel : Nat} (h : s.isIdle) (trace : Trace) :
    s.exec o fuel trace = ⟨trace, .falls⟩ := by
  obtain ⟨name, statements, position⟩ := s
  rw [Scope.exec]
  rw [isIdle] at h
  simp only at h
  induction statements with
  | nil => rfl
  | cons s ss ih =>
    rw [List.all_cons, Bool.and_eq_true] at h
    rw [Statement.execAll, Statement.exec_of_isNop h.1]
    exact ih h.2

/-- A jump at the start of a scope leads out of the text, and what stands behind it is not done. -/
theorem Scope.exec_of_jump {s : Scope} {target : JumpTarget} {position : Position}
    {labels : List String} {fuel : Nat} (hs : ∀ x ∈ s.inner, x.JumpsClearOf labels)
    (h : ∃ rest, s.statements = .jump target position :: rest) :
    (∀ l ∈ labels, target.goal ≠ .label l) ∧
      ∀ trace, s.exec o fuel trace = ⟨trace, .goes target.goal⟩ := by
  obtain ⟨rest, h⟩ := h
  refine ⟨hs (.jump target position) (Scope.mem_inner_of_cons h), fun trace => ?_⟩
  obtain ⟨name, statements, p⟩ := s
  cases h
  rfl

section Statements

variable {env : Environment} {fuel : Nat}

mutual

/-- **The code of a plain statement follows its run.** -/
theorem Statement.emits_simulates (hn : (labelsOf (entriesOf text)).Nodup) : ∀ s : Statement,
    s.isPlain → (∀ x ∈ s.withInner, x.JumpsClearOf (labelsOf (entriesOf text))) → ∀ ctx : Context,
    (s.emits env ctx).Simulates o text ctx.loop fun trace => s.exec o fuel trace
  | .varDecl _, _, _, _ | .nop, _, _, _ => .just_nil
  | .assign .., _, _, _ | .step .., _, _, _ | .call .., _, _, _ => .act fun _ => rfl
  | .jump _ _, _, hj, _ => jump_follows .jump (hj _ List.mem_cons_self)
  | .cond condition thenPart elsePart _, hp, hj, ctx => by
    rw [Statement.isPlain, Bool.and_eq_true] at hp
    have hthen := fun x hx => hj x (List.mem_cons_of_mem _ (List.mem_append_left _ hx))
    have helse := fun x hx => hj x (List.mem_cons_of_mem _ (List.mem_append_right _ hx))
    exact conditional_follows hn (thenPart.emits_simulates hn hp.1 hthen ctx)
      (elsePart.emits_simulates hn hp.2 helse ctx)
      (fun _ _ h => Scope.exec_of_jump hthen ⟨[], Scope.onlyJump?_ok h⟩) Scope.exec_of_isIdle
  | .branch condition thenPart elsePart _, hp, hj, ctx => by
    rw [Statement.isPlain, Bool.and_eq_true] at hp
    have hthen := fun x hx => hj x (List.mem_cons_of_mem _ (List.mem_append_left _ hx))
    have helse := fun x hx => hj x (List.mem_cons_of_mem _ (List.mem_append_right _ hx))
    exact flagBranch_follows hn (thenPart.emits_simulates hn hp.1 hthen ctx)
      (elsePart.emits_simulates hn hp.2 helse ctx)
      (fun _ _ h => Scope.exec_of_jump hthen (Scope.leadingJump?_ok h))
      (fun _ _ h => Scope.exec_of_jump helse (Scope.leadingJump?_ok h)) Scope.exec_of_isIdle
      Scope.exec_of_isIdle
  | .exit _ _, _, _, _ => exit_follows
  | .whileLoop _ body _, hp, hj, ctx => whileLoop_follows hn fun labels =>
    body.emits_simulates hn hp (fun x hx => hj x (List.mem_cons_of_mem _ hx)) (ctx.inLoop labels)
  | .repeatLoop body _ _, hp, hj, ctx => repeatLoop_follows hn fun labels =>
    body.emits_simulates hn hp (fun x hx => hj x (List.mem_cons_of_mem _ hx)) (ctx.inLoop labels)
  | .scope s, hp, hj, ctx => s.emits_simulates hn hp (fun x hx => hj x (List.mem_cons_of_mem _ hx)) ctx

theorem Scope.emits_simulates (hn : (labelsOf (entriesOf text)).Nodup) : ∀ s : Scope,
    s.isPlain → (∀ x ∈ s.inner, x.JumpsClearOf (labelsOf (entriesOf text))) → ∀ ctx : Context,
    (s.emits env ctx).Simulates o text ctx.loop fun trace => s.exec o fuel trace
  | ⟨name, statements, position⟩, hp, hj, ctx =>
    Statement.emitsAll_simulates hn statements hp hj (ctx.inside ⟨name, statements, position⟩)

theorem Statement.emitsAll_simulates (hn : (labelsOf (entriesOf text)).Nodup) : ∀ ss : List Statement,
    Statement.arePlain ss → (∀ x ∈ Statement.allOf ss, x.JumpsClearOf (labelsOf (entriesOf text))) →
    ∀ ctx : Context, (Statement.emitsAll env ctx ss).Simulates o text ctx.loop
      fun trace => Statement.execAll o fuel ss trace
  | [], _, _, _ => .just_nil
  | s :: rest, hp, hj, ctx => by
    rw [Statement.arePlain, Bool.and_eq_true] at hp
    exact (s.emits_simulates hn hp.1 (fun x hx => hj x (List.mem_append_left _ hx)) ctx).append
      (Statement.emitsAll_simulates hn rest hp.2 (fun x hx => hj x (List.mem_append_right _ hx)) ctx)

end

end Statements

end StackCode
