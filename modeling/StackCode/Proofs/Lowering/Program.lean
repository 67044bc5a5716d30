/-
What a whole program is lowered to: one block for each block of the tree, in the order
of the source, with the text of its statements in it. The labels of a block are
distinct, because those of the whole program are.
-/
import StackCode.Compiler
import StackCode.Proofs.Lowering.Emits

namespace StackCode

/-- The block has the text of these statements, line markers left out. -/
structure Block.Holds (env : Environment) (b : Tree.Block) (out : Block) : Prop where
  entries : ∃ source n ps n', Statement.emitsAll { env with source } { scope := b.name } b.statements
    n ps n' ∧ out.entries.filter (!·.isLine) = entriesOf ps
  labels : (labelsOf (out.entries.filter (!·.isLine))).Nodup

/-- The labels that stand in a block. -/
def Block.labels (b : Block) : List String := labelsOf b.entries

def Program.instructions (p : Program) : List Instruction := p.blocks.flatMap (·.instructions)

/-- The labels that stand in a program, block by block. -/
def Program.labels (p : Program) : List String := p.blocks.flatMap (·.labels)

theorem labelsOf_filter_isLine (es : List Entry) : labelsOf (es.filter (!·.isLine)) = labelsOf es := by
  rw [labelsOf, List.filterMap_filter]
  refine List.filterMap_congr fun e _ => ?_
  cases e with
  | label => rfl
  | instruction i => cases h : (Entry.instruction i).isLine <;> simp [Entry.label?]

variable {env : Environment}

theorem declareVars_appends {ds : List Declaration} {out out' : Output} {u : Unit}
    (h : declareVars ds out = .ok (u, out')) : Appends out [] out' := by
  unfold declareVars at h
  induction ds generalizing out with
  | nil =>
    obtain ⟨-, rfl⟩ := Writer.pure_ok_iff.1 h
    exact .refl out
  | cons d ds ih =>
    obtain ⟨v, mid, hd, hrest⟩ := Writer.bind_ok_iff.1 h
    have hfirst : Appends out [] mid := by
      cases d with
      | var d =>
        simp only at hd
        split at hd
        · obtain ⟨-, rfl⟩ := Writer.pure_ok_iff.1 hd
          exact .refl out
        · exact declare_appends hd
      | parameter s p => exact declare_appends hd
      | label | subroutine =>
        obtain ⟨-, rfl⟩ := Writer.pure_ok_iff.1 hd
        exact .refl out
    exact hfirst.append (ih hrest)

/-- What stands behind the blocks that were there, with the labels in it. -/
def AddsBlocks (env : Environment) (bs : List Tree.Block) (out out' : Output) : Prop :=
  ∃ new, out'.sink.program.blocks = out.sink.program.blocks ++ new ∧
    List.Forall₂ (Block.Holds env) bs new ∧
    out'.sink.labels = (new.flatMap (·.labels)).reverse ++ out.sink.labels ∧
    (out.sink.labels.Nodup → out'.sink.labels.Nodup)

theorem AddsBlocks.refl (out : Output) : AddsBlocks env [] out out :=
  ⟨[], (List.append_nil _).symm, .nil, rfl, id⟩

theorem AddsBlocks.append {bs bs' : List Tree.Block} {out mid out' : Output}
    (h : AddsBlocks env bs out mid) (h' : AddsBlocks env bs' mid out') :
    AddsBlocks env (bs ++ bs') out out' := by
  obtain ⟨new, hnew, hall, hlabels, hnodup⟩ := h
  obtain ⟨new', hnew', hall', hlabels', hnodup'⟩ := h'
  refine ⟨new ++ new', by rw [hnew', hnew, List.append_assoc], List.rel_append hall hall', ?_,
    hnodup' ∘ hnodup⟩
  rw [hlabels', hlabels, List.flatMap_append, List.reverse_append, List.append_assoc]

/-- A block is opened behind the blocks that were there, and what is written goes there. -/
theorem Tree.Block.lower_writes {source : String} {b : Tree.Block} {out out' : Output} {u : Unit}
    (h : b.lower { env with source } out = .ok (u, out')) :
    ∃ ps block, Statement.emitsAll { env with source } { scope := b.name } b.statements
        out.generated ps out'.generated ∧
      out'.sink.program.blocks = out.sink.program.blocks ++ [block] ∧
      block.entries.filter (!·.isLine) = entriesOf ps ∧ (labelsOf (entriesOf ps)).Nodup ∧
      out'.sink.labels = (labelsOf (entriesOf ps)).reverse ++ out.sink.labels ∧
      ∀ l ∈ labelsOf (entriesOf ps), l ∉ out.sink.labels := by
  obtain ⟨v, opened, hopen, hrest⟩ := Writer.bind_ok_iff.1 h
  have hadds : Writer.Adds (declareVars (Declaration.ofList b.statements) >>= fun _ =>
      Environment.mark { env with source } b.position >>= fun _ =>
        Statement.lowerAll { env with source } { scope := b.name } b.statements) _ :=
    .quiet declareVars_appends fun _ => .mark fun _ => Statement.lowerAll_adds _ _ _
  obtain ⟨ps, hp, hw⟩ := hadds.writes hrest
  simp only [perform_ok_iff, Sink.openBlock, SinkM.modify_ok_iff] at hopen
  obtain ⟨_, rfl, rfl⟩ := hopen
  obtain ⟨block, hcurrent⟩ := Option.isSome_iff_exists.1 hw.opened
  have hentries : block.close.entries.filter (!·.isLine) = entriesOf ps := by
    have hcode := hw.code
    simp only [Sink.code, hcurrent] at hcode
    exact hcode
  refine ⟨ps, block.close, hp, ?_, hentries, hw.distinct, hw.labels, hw.new⟩
  simp only [Sink.program, hcurrent, hw.closed, List.reverse_append, Option.map_some, Option.toList_some]
  cases out.sink.current <;> rfl

theorem Tree.Block.lower_adds {source : String} {b : Tree.Block} {out out' : Output} {u : Unit}
    (h : b.lower { env with source } out = .ok (u, out')) : AddsBlocks env [b] out out' := by
  obtain ⟨ps, block, hps, hblocks, hentries, hdistinct, hlabels, hnew⟩ := lower_writes h
  have hown : block.labels = labelsOf (entriesOf ps) := by
    rw [Block.labels, ← labelsOf_filter_isLine, hentries]
  refine ⟨[block], hblocks, .cons ⟨⟨source, _, ps, _, hps, hentries⟩, hentries ▸ hdistinct⟩ .nil, ?_,
    fun hnodup => ?_⟩
  · rw [List.flatMap_singleton, hown]
    exact hlabels
  · rw [hlabels]
    exact (List.nodup_reverse.2 hdistinct).append hnodup fun l hl => hnew l (List.mem_reverse.1 hl)

/-! ## Programs -/

/-- What a program is lowered in, before its modules give their paths. -/
def Tree.environment (t : Tree) (c : Configuration) (loader : IncludeLoader) : Environment where
  symbols := .ofTree t
  markLines := c.markLines
  loader := loader

theorem Tree.program_eq (t : Tree) (c : Configuration) (loader : IncludeLoader) :
    t.program c loader = t.lower (t.environment c loader) := rfl

/-- What a program is written into at first. -/
def Tree.start (t : Tree) : Output := { sink := { name := t.name, loadAddress := t.loadAddress } }

/-- The steps that write a program. -/
def Tree.steps (env : Environment) (t : Tree) : Writer Unit := t.modules.forM (·.lower env)

theorem Tree.lower_eq (env : Environment) (t : Tree) :
    t.lower env = (t.steps env t.start >>= fun r => .ok r.2.sink.program) := rfl

theorem Tree.lower_ok_iff {t : Tree} {p : Program} :
    t.lower env = .ok p ↔ ∃ out, t.steps env t.start = .ok ((), out) ∧ out.sink.program = p := by
  simp only [lower_eq, Lowered.bind_ok_iff, Except.ok.injEq, Prod.exists]
  exact ⟨fun ⟨_, out, h⟩ => ⟨out, h⟩, fun ⟨out, h⟩ => ⟨(), out, h⟩⟩

/-- A relation between outputs that holds of each part of a list, and of lists if it holds of their parts,
holds of the whole list. -/
theorem Writer.forM_relates {α β : Type} {R : List β → Output → Output → Prop} {f : α → Writer Unit}
    {g : α → List β} (hnil : ∀ out, R [] out out)
    (happend : ∀ {ys ys' out mid out'}, R ys out mid → R ys' mid out' → R (ys ++ ys') out out')
    (hstep : ∀ {x out out' u}, f x out = .ok (u, out') → R (g x) out out') {xs : List α}
    {out out' : Output} {u : Unit} (h : xs.forM f out = .ok (u, out')) : R (xs.flatMap g) out out' := by
  induction xs generalizing out with
  | nil =>
    obtain ⟨-, rfl⟩ := Writer.pure_ok_iff.1 h
    exact hnil out
  | cons x xs ih =>
    obtain ⟨v, mid, hx, hrest⟩ := Writer.bind_ok_iff.1 h
    rw [List.flatMap_cons]
    exact happend (hstep hx) (ih hrest)

/-- What holds of each block that is written holds of all blocks of a program. -/
theorem Tree.steps_relates {R : List Tree.Block → Output → Output → Prop} (hnil : ∀ out, R [] out out)
    (happend : ∀ {bs bs' out mid out'}, R bs out mid → R bs' mid out' → R (bs ++ bs') out out')
    (hblock : ∀ {source out out' u} {b : Tree.Block},
      b.lower { env with source } out = .ok (u, out') → R [b] out out') {t : Tree} {out out' : Output}
    {u : Unit} (h : t.steps env out = .ok (u, out')) : R t.blocks out out' := by
  refine Writer.forM_relates hnil happend (fun {m out out' u} hm => ?_) h
  have hblocks : m.blocks.forM (·.lower { env with source := m.source }) out = .ok (u, out') := hm
  rw [← List.flatMap_singleton' m.blocks]
  exact Writer.forM_relates hnil happend (fun hb => hblock hb) hblocks

theorem Tree.steps_adds {t : Tree} {out out' : Output} {u : Unit}
    (h : t.steps env out = .ok (u, out')) : AddsBlocks env t.blocks out out' :=
  steps_relates .refl .append Tree.Block.lower_adds h

/-- **A program that is lowered has the blocks of the tree**, each with the text of its statements. -/
theorem Tree.lower_blocks {t : Tree} {p : Program} (h : t.lower env = .ok p) :
    List.Forall₂ (Block.Holds env) t.blocks p.blocks := by
  obtain ⟨out, hrun, rfl⟩ := lower_ok_iff.1 h
  obtain ⟨new, hnew, hall, -⟩ := steps_adds hrun
  rw [hnew]
  exact hall

/-- The labels that a sink knows are those in its program. -/
theorem Tree.steps_labels {t : Tree} {out : Output} (h : t.steps env t.start = .ok ((), out)) :
    out.sink.program.labels.reverse = out.sink.labels := by
  obtain ⟨new, hnew, -, hlabels, -⟩ := steps_adds h
  rw [hlabels, Program.labels, hnew]
  exact (List.append_nil _).symm

/-- **No label stands in a program twice**, whatever is declared. -/
theorem Tree.lower_labels_nodup {t : Tree} {p : Program} (h : t.lower env = .ok p) :
    p.labels.Nodup := by
  obtain ⟨out, hrun, rfl⟩ := lower_ok_iff.1 h
  obtain ⟨new, -, -, -, hnodup⟩ := steps_adds hrun
  rw [← List.nodup_reverse, steps_labels hrun]
  exact hnodup .nil

end StackCode
