/-
Line markers change nothing but themselves. The run that marks no lines goes through the
outputs of the run that does, with the markers left out of them, and it ends in the same way.
-/
import StackCode.Proofs.Lowering.Program
import StackCode.Proofs.Lowering.Twins

namespace StackCode

/-! ## Without markers -/

/-- The entries that are no line markers. -/
def unmarkedEntries (es : List Entry) : List Entry := es.filter (!·.isLine)

def Block.unmarked (b : Block) : Block := { b with entries := unmarkedEntries b.entries }

/-- The program without its line markers. -/
def Program.unmarked (p : Program) : Program := { p with blocks := p.blocks.map (·.unmarked) }

def OpenBlock.unmarked (b : OpenBlock) : OpenBlock := { b with recent := unmarkedEntries b.recent }

def Sink.unmarked (s : Sink) : Sink :=
  { s with closed := s.closed.map (·.unmarked), current := s.current.map (·.unmarked) }

def Output.unmarked (out : Output) : Output := { out with sink := out.sink.unmarked }

theorem OpenBlock.close_unmarked (b : OpenBlock) : b.unmarked.close = b.close.unmarked := by
  simp only [close, unmarked, Block.unmarked, unmarkedEntries, List.filter_reverse]

theorem Sink.program_unmarked (s : Sink) : s.unmarked.program = s.program.unmarked := by
  cases h : s.current <;>
    simp [program, unmarked, Program.unmarked, h, OpenBlock.close_unmarked]

/-- The latest instruction stands before the markers that are looked past. -/
theorem Sink.takeLatest_unmarkedEntries : ∀ recent : List Entry,
    takeLatest (unmarkedEntries recent) = (takeLatest recent).map (Prod.map id unmarkedEntries)
  | [] => rfl
  | .label .. :: _ => rfl
  | .instruction i :: rest => by
    have ih := takeLatest_unmarkedEntries rest
    cases hi : i.isLine with
    | true =>
      have hdrop : unmarkedEntries (.instruction i :: rest) = unmarkedEntries rest := by
        simp [unmarkedEntries, Entry.isLine, hi]
      rw [hdrop, ih, takeLatest, if_pos hi, Option.map_map]
      refine congrFun (congrArg _ (funext fun r => ?_)) _
      obtain ⟨taken, left⟩ := r
      simp [unmarkedEntries, Entry.isLine, hi]
    | false =>
      have hkeep : unmarkedEntries (.instruction i :: rest) =
          .instruction i :: unmarkedEntries rest := by
        simp [unmarkedEntries, Entry.isLine, hi]
      rw [hkeep, takeLatest, takeLatest, hi]
      rfl

/-! ## Steps -/

/-- From outputs with the property the second steps do, without markers, what the first steps do. They
come to the same end, with a block open. -/
def Writer.Unmarks {α : Type} (pre : Output → Prop) (w w' : Writer α) : Prop :=
  ∀ out, pre out → w' out.unmarked = (w out).map (Prod.map id Output.unmarked) ∧
    ∀ a out', w out = .ok (a, out') → out'.IsOpen

namespace Writer.Unmarks

variable {α β : Type} {pre : Output → Prop} {w w' : Writer α} {f f' : α → Writer β}

theorem bind (hw : w.Unmarks pre w') (hf : ∀ a, (f a).Unmarks Output.IsOpen (f' a)) :
    (w >>= f).Unmarks pre (w' >>= f') := by
  intro out hpre
  obtain ⟨hsame, hopen⟩ := hw out hpre
  have hall : (w >>= f) out = (w out >>= fun r => f r.1 r.2) := rfl
  have hall' : (w' >>= f') out.unmarked = (w' out.unmarked >>= fun r => f' r.1 r.2) := rfl
  rw [hall, hall', hsame]
  cases hrun : w out with
  | error e => exact ⟨rfl, nofun⟩
  | ok r => exact hf r.1 r.2 (hopen r.1 r.2 hrun)

theorem lifted (x : Lowered α) : (liftM x : Writer α).Unmarks Output.IsOpen (liftM x) := by
  intro out hopen
  refine ⟨?_, fun a out' h => ?_⟩
  · cases x <;> rfl
  · obtain ⟨-, rfl⟩ := Writer.lift_ok_iff.1 h
    exact hopen

theorem pure (a : α) : (Pure.pure a : Writer α).Unmarks Output.IsOpen (Pure.pure a) :=
  lifted (.ok a)

theorem lift {x : Lowered α} (hf : ∀ a, x = .ok a → (f a).Unmarks Output.IsOpen (f' a)) :
    (liftM x >>= f).Unmarks Output.IsOpen (liftM x >>= f') := by
  cases x with
  | error e => exact fun out _ => ⟨rfl, nofun⟩
  | ok a => exact hf a rfl

theorem fresh (scope suffix : String) :
    (freshLabel scope suffix).Unmarks Output.IsOpen (freshLabel scope suffix) := by
  intro out hopen
  refine ⟨rfl, fun a out' h => ?_⟩
  cases h
  exact hopen

/-- An operation on the sink that gives the same with and without markers. -/
theorem perform {op : SinkM α}
    (hsame : ∀ s : Sink, s.current.isSome →
      op.result s.unmarked = Prod.map id Sink.unmarked (op.result s))
    (hopen : ∀ s : Sink, s.current.isSome → (op.result s).2.current.isSome) :
    (StackCode.perform op).Unmarks Output.IsOpen (StackCode.perform op) := by
  intro out h
  rw [perform_eq, perform_eq, show out.unmarked.sink = out.sink.unmarked from rfl, hsame _ h]
  replace hopen := hopen out.sink h
  rcases hop : op.result out.sink with ⟨_ | a, sink⟩
  · exact ⟨rfl, nofun⟩
  · refine ⟨rfl, fun a out' hrun => ?_⟩
    cases hrun
    rwa [hop] at hopen

theorem modifyBlock {f : OpenBlock → OpenBlock} (hf : ∀ b, f b.unmarked = (f b).unmarked) :
    (StackCode.perform (Sink.modifyBlock f)).Unmarks Output.IsOpen
      (StackCode.perform (Sink.modifyBlock f)) := by
  refine perform (fun s hs => ?_) fun s hs => ?_
  · obtain ⟨b, hb⟩ := Option.isSome_iff_exists.1 hs
    have hb' : s.unmarked.current = some b.unmarked := by simp [Sink.unmarked, hb]
    rw [Sink.modifyBlock_result hb, Sink.modifyBlock_result hb', hf]
    rfl
  · obtain ⟨b, hb⟩ := Option.isSome_iff_exists.1 hs
    rw [Sink.modifyBlock_result hb]
    rfl

theorem write {i : Instruction} (hi : i.isLine = false) :
    (StackCode.perform (Sink.instruction i)).Unmarks Output.IsOpen
      (StackCode.perform (Sink.instruction i)) :=
  modifyBlock fun b => by simp [OpenBlock.unmarked, unmarkedEntries, Entry.isLine, hi]

theorem pointer (name : String) (address : UInt16) (t : DataType) :
    (StackCode.perform (Sink.pointer name address t)).Unmarks Output.IsOpen
      (StackCode.perform (Sink.pointer name address t)) :=
  modifyBlock fun _ => rfl

theorem declare (name : String) (t : DataType) (storage : Storage) (length : Option UInt16) :
    (StackCode.perform (Sink.declare name t storage length)).Unmarks Output.IsOpen
      (StackCode.perform (Sink.declare name t storage length)) := by
  cases storage with
  | plain => exact modifyBlock fun _ => rfl
  | const => exact modifyBlock fun _ => rfl
  | memory address => exact pointer name address t

theorem label (name : String) (isSubroutine : Bool) :
    (StackCode.perform (Sink.label name isSubroutine)).Unmarks Output.IsOpen
      (StackCode.perform (Sink.label name isSubroutine)) := by
  refine perform (fun s hs => ?_) fun s hs => ?_
  · obtain ⟨b, hb⟩ := Option.isSome_iff_exists.1 hs
    have hb' : s.unmarked.current = some b.unmarked := by simp [Sink.unmarked, hb]
    rw [Sink.label_result, Sink.label_result, hb, hb', show s.unmarked.labels = s.labels from rfl]
    split <;> rfl
  · obtain ⟨b, hb⟩ := Option.isSome_iff_exists.1 hs
    rw [Sink.label_result, hb]
    split
    · exact hs
    · rfl

theorem removeLatest :
    (StackCode.perform Sink.removeLatest).Unmarks Output.IsOpen
      (StackCode.perform Sink.removeLatest) := by
  refine perform (fun s hs => ?_) fun s hs => ?_
  · obtain ⟨b, hb⟩ := Option.isSome_iff_exists.1 hs
    have hb' : s.unmarked.current = some b.unmarked := by simp [Sink.unmarked, hb]
    have hlatest : Sink.takeLatest b.unmarked.recent = _ := Sink.takeLatest_unmarkedEntries b.recent
    simp only [Sink.removeLatest_result, hb, hb', hlatest]
    cases Sink.takeLatest b.recent <;> rfl
  · obtain ⟨b, hb⟩ := Option.isSome_iff_exists.1 hs
    simp only [Sink.removeLatest_result, hb]
    split
    · exact hs
    · rfl

/-- A marker is nothing without markers. -/
theorem mark (env : Environment) (p : Position) :
    (env.mark p).Unmarks Output.IsOpen (env.unmarked.mark p) := by
  intro out hopen
  rw [show env.unmarked.mark p = Pure.pure () from rfl]
  unfold Environment.mark
  split
  · obtain ⟨b, hb⟩ := Option.isSome_iff_exists.1 hopen
    have hmark : unmarkedEntries (Sink.mark (Sink.lineMarker p.line.toNat p.file) b.recent) =
        unmarkedEntries b.recent := filter_mark rfl b.recent
    rw [perform_eq, Sink.line, Sink.modifyBlock_result hb]
    refine ⟨?_, fun a out' h => ?_⟩
    · change Except.ok ((), out.unmarked) = .ok ((), Output.unmarked _)
      simp only [Output.unmarked, Sink.unmarked, OpenBlock.unmarked, Option.map_some, hb, hmark]
    · cases h
      rfl
  · exact pure () out hopen

end Writer.Unmarks

/-- What a run does that marks lines, a run that marks none does without the markers. -/
theorem Writer.Twins.unmarks {casts : Prop} {α : Type} {w w' : Writer α} (h : Writer.Twins casts w w') :
    w.Unmarks Output.IsOpen w' := by
  induction h with
  | lifted => exact .lifted _
  | fresh scope suffix => exact .fresh scope suffix
  | write _ hm => exact .write hm
  | label name isSubroutine => exact .label name isSubroutine
  | declare name t storage length => exact .declare name t storage length
  | pointer name address t => exact .pointer name address t
  | removeLatest => exact .removeLatest
  | mark env p => exact .mark env p
  | bind _ _ ihw ihf => exact ihw.bind ihf
  | lift _ _ ihf => exact .lift ihf

/-! ## Programs -/

/-- A block is opened in any output. -/
theorem Writer.Unmarks.openBlock (name : String) (address : Option UInt16) (options : List String) :
    (StackCode.perform (Sink.openBlock name address options)).Unmarks (fun _ => True)
      (StackCode.perform (Sink.openBlock name address options)) := by
  intro out _
  refine ⟨?_, fun a out' h => ?_⟩
  · have hclosed : (out.sink.unmarked.current.map OpenBlock.close).toList ++
        out.sink.unmarked.closed =
          ((out.sink.current.map OpenBlock.close).toList ++ out.sink.closed).map (·.unmarked) := by
      cases hb : out.sink.current <;> simp [Sink.unmarked, hb, OpenBlock.close_unmarked]
    change Except.ok ((), _) = Except.ok ((), Output.unmarked _)
    simp only [Output.unmarked, hclosed]
    rfl
  · cases h
    rfl

theorem Tree.Block.lower_unmarks (env : Environment) (b : Tree.Block) :
    (b.lower env).Unmarks (fun _ => True) (b.lower env.unmarked) := by
  rw [lower_eq, lower_eq]
  exact (Writer.Unmarks.openBlock _ _ _).bind fun _ => (b.fill_twins env fun _ => trivial).unmarks

/-- Steps that are taken one after another, each from the output that the one before has led to. -/
theorem Writer.forM_unmarked {γ : Type} {f f' : γ → Writer Unit} {xs : List γ} (out : Output)
    (h : ∀ x out, f' x out.unmarked = (f x out).map (Prod.map id Output.unmarked)) :
    xs.forM f' out.unmarked = (xs.forM f out).map (Prod.map id Output.unmarked) := by
  induction xs generalizing out with
  | nil => rfl
  | cons x xs ih =>
    have hall : (x :: xs).forM f out = (f x out >>= fun r => xs.forM f r.2) := rfl
    have hall' : (x :: xs).forM f' out.unmarked = (f' x out.unmarked >>= fun r => xs.forM f' r.2) :=
      rfl
    rw [hall, hall', h]
    cases f x out with
    | error e => rfl
    | ok r => exact ih r.2

theorem Tree.Module.run_unmarked (env : Environment) (m : Tree.Module) (out : Output) :
    m.lower env.unmarked out.unmarked = (m.lower env out).map (Prod.map id Output.unmarked) :=
  Writer.forM_unmarked out fun b out => (b.lower_unmarks { env with source := m.source } out trivial).1

/-- **Line markers are pure annotation.** Without them a program fails as it does with them, or it has
the same blocks, where the markers are missing and nothing else. -/
theorem Tree.lower_unmarked (t : Tree) (env : Environment) :
    t.lower { env with markLines := false } = (t.lower env).map Program.unmarked := by
  have hsteps : t.steps env.unmarked t.start = (t.steps env t.start).map (Prod.map id Output.unmarked) :=
    Writer.forM_unmarked t.start fun m out => m.run_unmarked env out
  change t.lower env.unmarked = _
  rw [lower_eq, lower_eq, hsteps]
  cases t.steps env t.start with
  | error e => rfl
  | ok r => exact congrArg Except.ok (Sink.program_unmarked r.2.sink)

end StackCode
