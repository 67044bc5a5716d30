/-
Blocks are lowered independently of each other. What came before a block shows in its
code only in the numbers of made-up names, and so the blocks of a program can be lowered
in any order.
-/
import StackCode.Proofs.Names.Distinct
import StackCode.Proofs.Order.Statement

namespace StackCode

variable {env : Environment} {own : OwnNames}

/-! ## Blocks -/

theorem declareVars_uniform (ds : List Declaration) : Uniform own fun _ => declareVars ds := by
  refine .forM fun d _ => ?_
  cases d with
  | var d =>
    simp only
    split
    · exact .pure
    · obtain ⟨name, type, storage, length, members, position⟩ := d
      cases storage with
      | plain => exact .declare (.own name) type length
      | const => exact .modifyBlock fun b => ⟨b, fun _ => rfl⟩
      | memory address => exact .pointer name address type
  | parameter s p => exact .declare (.own (s.slot p)) p.type none
  | label | subroutine => exact .pure

theorem Tree.Block.fill_uniform (env : Environment) {b : Tree.Block}
    (h : labelNames (Statement.allDefinitions b.statements) ⊆ own.names) :
    Uniform own fun _ => b.fill env :=
  (declareVars_uniform _).bind fun _ => (Uniform.mark env b.position).bind fun _ =>
    Statement.lowerAll_uniform env { scope := b.name } b.statements h

/-- The names of the labels in the text of a block. -/
def Tree.Block.labels (b : Tree.Block) : List String :=
  labelNames (Statement.allDefinitions b.statements)

/-- What a block is lowered to, and how many names are made up for it. -/
structure LoweredBlock where
  form : BlockForm
  count : Nat
deriving Inhabited

def LoweredBlock.numbered (n : Nat) (p : LoweredBlock) : Block := (p.form.numbered n).close

/-- The block is lowered to this, wherever its labels and made-up names are not in use. -/
def Tree.Block.LowersTo (env : Environment) (b : Tree.Block) (p : LoweredBlock) : Prop :=
  ∀ out : Output, out.sink.Admits b.labels out.generated → ∃ out', b.lower env out = .ok ((), out') ∧
    out'.generated = out.generated + p.count ∧
    out'.sink.program = { out.sink.program with
      blocks := out.sink.program.blocks ++ [p.numbered out.generated] }

/-- Lowering the block fails in this way, wherever its labels and made-up names are not in use. -/
def Tree.Block.FailsWith (env : Environment) (b : Tree.Block) (e : ErrorForm) : Prop :=
  ∀ out : Output, out.sink.Admits b.labels out.generated →
    b.lower env out = .error (e.numbered out.generated)

/-- A block is lowered to one form, or it fails in one way. -/
theorem Tree.Block.lower_uniform (env : Environment) {b : Tree.Block}
    (h : ∀ name ∈ b.labels, ¬ IsGenerated name) :
    (∃ e, b.FailsWith env e) ∨ ∃ p, b.LowersTo env p := by
  let own : OwnNames := ⟨b.labels, h⟩
  let start : Draft own := ⟨{ name := b.name, address := b.address, options := b.options }, [], 0, nofun⟩
  let opened (s : Sink) : Sink := { s with
    closed := (s.current.map OpenBlock.close).toList ++ s.closed
    current := some { name := b.name, address := b.address, options := b.options } }
  have hopen : ∀ out, b.lower env out =
      b.fill env (start.output out.generated (opened out.sink)) := fun _ => rfl
  have hadmits : ∀ out : Output, out.sink.Admits b.labels out.generated →
      (opened out.sink).Admits own.names out.generated := fun _ hout => ⟨hout.own, hout.known⟩
  have hfill : Uniform own fun _ => b.fill env := fill_uniform env (List.Subset.refl _)
  rcases hfill start with ⟨e, he⟩ | ⟨d, hd⟩
  · exact .inl ⟨e, fun out hout => (hopen out).trans (he _ _ (hadmits out hout))⟩
  · refine .inr ⟨⟨d.block, d.count⟩, fun out hout => ⟨_, (hopen out).trans (hd _ _ (hadmits out hout)),
      rfl, ?_⟩⟩
    cases hcurrent : out.sink.current <;>
      simp [Draft.output, Sink.program, opened, LoweredBlock.numbered, hcurrent]

/-! ## Blocks one after the other -/

/-- A block, with the path of its source file. -/
structure SourcedBlock where
  source : String
  block : Tree.Block

def SourcedBlock.labels (b : SourcedBlock) : List String := b.block.labels

def SourcedBlock.environment (env : Environment) (b : SourcedBlock) : Environment :=
  { env with source := b.source }

def SourcedBlock.lower (env : Environment) (b : SourcedBlock) : Writer Unit :=
  b.block.lower (b.environment env)

/-- The blocks of a program, in their order. -/
def Tree.sourcedBlocks (t : Tree) : List SourcedBlock :=
  t.modules.flatMap fun m => m.blocks.map fun b => ⟨m.source, b⟩

/-- A program is lowered block by block. -/
theorem Tree.steps_eq (env : Environment) (t : Tree) :
    t.steps env = t.sourcedBlocks.forM (·.lower env) := by
  unfold steps sourcedBlocks
  induction t.modules with
  | nil => rfl
  | cons m ms ih =>
    simp only [List.forM_eq_forM] at ih ⊢
    rw [List.forM_cons, ih, List.flatMap_cons, List.forM_append, List.forM_map]
    rfl

/-- The blocks, numbered one after the other. -/
def assemble : Nat → List LoweredBlock → List Block
  | _, [] => []
  | n, p :: ps => p.numbered n :: assemble (n + p.count) ps

/-- When a block has been lowered, nothing is in the way of the blocks behind it. -/
theorem Tree.Block.admits_behind {b : Tree.Block} {names : List String} {out out' : Output} {u : Unit}
    (hb : ∀ name ∈ b.labels, ¬ IsGenerated name) (hnames : ∀ name ∈ names, ¬ IsGenerated name)
    (hd : (b.labels ++ names).Nodup) (hout : out.sink.Admits (b.labels ++ names) out.generated)
    (h : b.lower env out = .ok (u, out')) : out'.sink.Admits names out'.generated := by
  obtain ⟨made, -, hnum, -, hdone⟩ := b.lower_leads env out trivial
  obtain ⟨hbehind, -⟩ := hdone h
  obtain ⟨fresh, hfresh, hperm⟩ := hbehind.labels
  have hown : labelNames b.definitions = b.labels := by
    rw [definitions, labelNames_append, labelNames_pointers, List.nil_append, labels]
  have hmem : ∀ l ∈ out'.sink.labels, l ∈ b.labels ∨ l ∈ made ∨ l ∈ out.sink.labels := by
    intro l hl
    simp only [hperm.mem_iff, List.mem_append, hown, or_assoc] at hl
    exact hl.imp_right (Or.imp_left fun hl => hfresh.subset hl)
  constructor
  · intro name hname hl
    rcases hmem name hl with hl | hl | hl
    · exact List.disjoint_of_nodup_append hd hl hname
    · exact hnames name hname (hnum.isGenerated hl)
    · exact hout.own name (List.mem_append_right _ hname) hl
  · intro l hl
    rw [hbehind.generated]
    rcases hmem l hl with hl | hl | hl
    · exact known_of_not_isGenerated (hb l hl)
    · exact hnum.known hl
    · exact (hout.known l hl).mono (Nat.le_add_right _ _)

variable {bs : List SourcedBlock}

/-- Blocks that can be lowered by themselves can be lowered one after the other. -/
theorem SourcedBlock.forM_lower (hgen : ∀ name ∈ bs.flatMap (·.labels), ¬ IsGenerated name)
    (hd : (bs.flatMap (·.labels)).Nodup) {f : SourcedBlock → LoweredBlock}
    (hf : ∀ b ∈ bs, b.block.LowersTo (b.environment env) (f b)) {out : Output}
    (hout : out.sink.Admits (bs.flatMap (·.labels)) out.generated) :
    ∃ out', bs.forM (·.lower env) out = .ok ((), out') ∧ out'.sink.program =
      { out.sink.program with
        blocks := out.sink.program.blocks ++ assemble out.generated (bs.map f) } := by
  induction bs generalizing out with
  | nil => exact ⟨out, rfl, by simp [assemble]⟩
  | cons b bs ih =>
    rw [List.flatMap_cons] at hgen hd hout
    obtain ⟨hb, hbs⟩ := List.forall_mem_append.1 hgen
    obtain ⟨hfirst, hrest⟩ := List.forall_mem_cons.1 hf
    obtain ⟨mid, hmid, hcount, hprogram⟩ := hfirst out hout.left
    obtain ⟨out', hrun, hprogram'⟩ := ih hbs hd.of_append_right hrest
      (Tree.Block.admits_behind hb hbs hd hout hmid)
    refine ⟨out', Writer.bind_ok_iff.2 ⟨(), mid, hmid, hrun⟩, ?_⟩
    simp [hprogram', hprogram, hcount, assemble]

/-- Blocks that have been lowered one after the other can be lowered by themselves. -/
theorem SourcedBlock.lowersTo_of_forM (hgen : ∀ name ∈ bs.flatMap (·.labels), ¬ IsGenerated name)
    (hd : (bs.flatMap (·.labels)).Nodup) {out out' : Output} {u : Unit}
    (hout : out.sink.Admits (bs.flatMap (·.labels)) out.generated)
    (h : bs.forM (·.lower env) out = .ok (u, out')) :
    ∀ b ∈ bs, ∃ p, b.block.LowersTo (b.environment env) p := by
  induction bs generalizing out with
  | nil => exact nofun
  | cons b bs ih =>
    rw [List.flatMap_cons] at hgen hd hout
    obtain ⟨hb, hbs⟩ := List.forall_mem_append.1 hgen
    obtain ⟨v, mid, hmid, hrest⟩ := Writer.bind_ok_iff.1 h
    refine List.forall_mem_cons.2 ⟨?_, ih hbs hd.of_append_right
      (Tree.Block.admits_behind hb hbs hd hout hmid) hrest⟩
    -- A block that fails in one way would have failed in this run, too.
    refine (b.block.lower_uniform (b.environment env) hb).resolve_left fun ⟨e, he⟩ => ?_
    cases (he out hout.left).symm.trans hmid

/-! ## Programs -/

/-- The names of the labels in the text of a program. -/
def Tree.labels (t : Tree) : List String := t.sourcedBlocks.flatMap (·.labels)

theorem Tree.labels_eq (t : Tree) : t.labels = labelNames t.written := by
  unfold labels sourcedBlocks written blocks labelNames
  simp only [List.flatMap_assoc, List.flatMap_map, List.filterMap_flatMap]
  rfl

/-- The labels of a program that is lowered are distinct. -/
theorem Tree.labels_nodup {t : Tree} {out : Output} (h : t.steps env t.start = .ok ((), out)) :
    t.labels.Nodup := by
  obtain ⟨made, -, -, -, hdone⟩ := t.steps_leads env t.start trivial
  obtain ⟨fresh, -, hperm⟩ := (hdone h).1.labels
  have hnodup : out.sink.labels.Nodup := by
    rw [← steps_labels h, List.nodup_reverse]
    exact lower_labels_nodup (lower_ok_iff.2 ⟨out, h, rfl⟩)
  rw [labels_eq, ← t.labelNames_definitions.nodup_iff]
  exact (hperm.nodup_iff.1 hnodup).of_append_left.of_append_left

/-- Nothing is in the way at first. -/
theorem Tree.admits_start (t : Tree) (names : List String) :
    t.start.sink.Admits names t.start.generated := ⟨fun _ _ => nofun, nofun⟩

/-- **Blocks are lowered independently of each other, up to the numbers in made-up names.** A block whose
own labels do not look like made-up ones fails in one way, or it is lowered to one form and takes one
count of numbers, wherever its labels and the numbers behind those that were made up are not in use. So
if a program is lowered, it is also lowered with its blocks in another order, and nothing changes but
this order and the numbers. -/
theorem Tree.lower_independent (env : Environment) :
    (∀ b : Tree.Block, (∀ name ∈ b.labels, ¬ IsGenerated name) →
      (∃ e, b.FailsWith env e) ∨ ∃ p, b.LowersTo env p) ∧
    ∀ t t' : Tree, (∀ name ∈ t.labels, ¬ IsGenerated name) →
      t.sourcedBlocks.Perm t'.sourcedBlocks → ∀ p, t.lower env = .ok p →
      ∃ f : SourcedBlock → LoweredBlock,
        (∀ b ∈ t.sourcedBlocks, b.block.LowersTo (b.environment env) (f b)) ∧
        p = ⟨t.name, t.loadAddress, assemble 0 (t.sourcedBlocks.map f)⟩ ∧
        t'.lower env = .ok ⟨t'.name, t'.loadAddress, assemble 0 (t'.sourcedBlocks.map f)⟩ := by
  refine ⟨fun b h => b.lower_uniform env h, fun t t' hgen hperm p hp => ?_⟩
  -- The run in the first order tells that no label is there twice and that each block can be lowered.
  -- None of that depends on the order.
  obtain ⟨out, hrun, rfl⟩ := lower_ok_iff.1 hp
  have hd := labels_nodup hrun
  have hlabels : t.labels.Perm t'.labels := hperm.flatMap_right _
  have hlowered := hrun
  rw [steps_eq] at hlowered
  have hall := SourcedBlock.lowersTo_of_forM hgen hd (t.admits_start _) hlowered
  choose! f hf using hall
  refine ⟨f, hf, ?_, ?_⟩
  · obtain ⟨out', hrun', hprogram⟩ := SourcedBlock.forM_lower hgen hd hf (t.admits_start _)
    obtain rfl : out = out' := congrArg Prod.snd (Except.ok.inj (hlowered.symm.trans hrun'))
    exact hprogram
  · have hgen' : ∀ name ∈ t'.labels, ¬ IsGenerated name := fun name hname =>
      hgen name (hlabels.mem_iff.2 hname)
    have hf' : ∀ b ∈ t'.sourcedBlocks, b.block.LowersTo (b.environment env) (f b) := fun b hb =>
      hf b (hperm.mem_iff.2 hb)
    obtain ⟨out', hrun', hprogram⟩ :=
      SourcedBlock.forM_lower hgen' (hlabels.nodup_iff.1 hd) hf' (t'.admits_start _)
    exact lower_ok_iff.2 ⟨out', (t'.steps_eq env).symm ▸ hrun', hprogram⟩

/-- A block with a loop that goes on forever. -/
def endless (name : String) : Tree.Block where
  name := name
  address := none
  options := []
  statements := [.label (name ++ ".start") {}, .whileLoop (.number (.wrapped .ubyte 1)) ⟨"", [], {}⟩ {}]
  position := {}

/-- Blocks with such loops, all from one file. -/
def endlessLoops (names : List String) : Tree where
  name := "sample"
  loadAddress := none
  modules := [{ name := "main", source := "main", blocks := names.map endless }]

/-- An environment in which no names are known. -/
def bareEnvironment : Environment where
  symbols := {}
  markLines := false
  loader := .ofTexts []

/-- The labels of the loops follow the order of the blocks, and nothing else does. -/
theorem endlessLoops_independent :
    ((∃ e, (endless "main").FailsWith bareEnvironment e) ∨
      ∃ p, (endless "main").LowersTo bareEnvironment p) ∧
    ∃ (p p' : Program) (f : SourcedBlock → LoweredBlock),
      (endlessLoops ["main", "lib"]).lower bareEnvironment = .ok p ∧
      (endlessLoops ["lib", "main"]).lower bareEnvironment = .ok p' ∧
      p.labels = ["main.start", "main.<s-1-loop>", "main.<s-3-continue>", "main.<s-2-break>",
        "lib.start", "lib.<s-4-loop>", "lib.<s-6-continue>", "lib.<s-5-break>"] ∧
      p'.labels = ["lib.start", "lib.<s-1-loop>", "lib.<s-3-continue>", "lib.<s-2-break>",
        "main.start", "main.<s-4-loop>", "main.<s-6-continue>", "main.<s-5-break>"] ∧
      p.blocks = assemble 0 ((endlessLoops ["main", "lib"]).sourcedBlocks.map f) ∧
      p'.blocks = assemble 0 ((endlessLoops ["lib", "main"]).sourcedBlocks.map f) := by
  have hlabels : (endlessLoops ["main", "lib"]).labels = ["main.start", "lib.start"] := rfl
  have hlowered : ((endlessLoops ["main", "lib"]).lower bareEnvironment).toOption.map (·.labels) =
      some ["main.start", "main.<s-1-loop>", "main.<s-3-continue>", "main.<s-2-break>",
        "lib.start", "lib.<s-4-loop>", "lib.<s-6-continue>", "lib.<s-5-break>"] := by decide +kernel
  have hlowered' : ((endlessLoops ["lib", "main"]).lower bareEnvironment).toOption.map (·.labels) =
      some ["lib.start", "lib.<s-1-loop>", "lib.<s-3-continue>", "lib.<s-2-break>",
        "main.start", "main.<s-4-loop>", "main.<s-6-continue>", "main.<s-5-break>"] := by decide +kernel
  have hown : ∀ name ∈ ["main.start", "lib.start"], ¬ IsGenerated name := by
    intro name hname
    rcases List.mem_pair.1 hname with rfl | rfl <;> exact not_isGenerated (by decide)
  refine ⟨(Tree.lower_independent bareEnvironment).1 _ fun name hname =>
    hown name (List.mem_pair.2 (.inl (List.mem_singleton.1 hname))), ?_⟩
  cases h : (endlessLoops ["main", "lib"]).lower bareEnvironment with
  | error e => simp [h, Except.toOption] at hlowered
  | ok p =>
    rw [h] at hlowered
    obtain ⟨f, -, hp, hp'⟩ := (Tree.lower_independent bareEnvironment).2
      (endlessLoops ["main", "lib"]) (endlessLoops ["lib", "main"]) (hlabels ▸ hown)
      (List.Perm.swap _ _ _) p h
    rw [hp'] at hlowered'
    exact ⟨p, _, f, rfl, hp', Option.some.inj hlowered, Option.some.inj hlowered', by rw [hp], rfl⟩

end StackCode
