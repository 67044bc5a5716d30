/-
The labels of a program are bound where they belong: each made-up label that a jump goes
to stands once in the program, in the block of the jump, and the labels that an exit
goes to are those of the innermost loop around it. A jump that has its target in the
source goes to a name, whatever the name looks like. A subroutine of a fixed address has
no label, so nothing keeps a made-up label from having its name, and a jump to the
subroutine then goes to a made-up label, in another block as well.
-/
import StackCode.Proofs.Labels.Closed
import StackCode.Proofs.Labels.Loops
import StackCode.Proofs.Lowering.Program
import StackCode.Proofs.Names.Distinct

namespace StackCode

/-- A jump in the block has this name as its target. -/
def Tree.Block.Names (b : Tree.Block) (name : String) : Prop :=
  ∃ position, .jump (.named name) position ∈ Statement.allOf b.statements

/-- The source has no jumps to labels that stand for themselves. -/
def Tree.HasOwnTargets (t : Tree) : Prop :=
  ∀ b ∈ t.blocks, ∀ label position, .jump (.generated label) position ∉ Statement.allOf b.statements

/-- What the labels of a block are bound to. -/
structure Block.Binds (p : Program) (b : Tree.Block) (out : Block) : Prop where
  /-- The targets are made-up labels of the block, apart from those that jumps of its source name. -/
  targets : ∀ l ∈ targetsOf out.entries, ¬ b.Names l →
    IsGenerated l ∧ l ∈ out.labels ∧ p.labels.count l = 1
  loops : Statement.allText none b.statements (out.entries.filter (!·.isLine))

theorem targetsOf_filter_isLine (es : List Entry) :
    targetsOf (es.filter (!·.isLine)) = targetsOf es := by
  rw [targetsOf, List.filterMap_filter]
  refine List.filterMap_congr fun e _ => ?_
  cases e with
  | label => rfl
  | instruction i =>
    cases h : i.opcode <;>
      simp [Entry.target?, Entry.isLine, Instruction.isLine, Opcode.isJump, h]

variable {env : Environment} {b : Tree.Block} {out : Block}

/-- A jump of the block goes to a name in its source, or to a made-up label in the block. -/
theorem Block.Holds.closed (h : Block.Holds env b out)
    (hown : ∀ label position, .jump (.generated label) position ∉ Statement.allOf b.statements) :
    ClosedText b.Names [] out.entries := by
  obtain ⟨source, n, ps, n', hps, hentries⟩ := h.entries
  have hjumps : ∀ x ∈ Statement.allOf b.statements, x.JumpsWithin b.Names := by
    intro x hx
    cases x with
    | jump target position =>
      cases target with
      | address => trivial
      | named name => exact ⟨position, hx⟩
      | generated label => exact hown label position hx
    | _ => trivial
  have hpart : (Statement.emitsAll { env with source } { scope := b.name } b.statements).Closed
      b.Names [] [] :=
    Statement.emitsAll_closed _ b.statements hjumps (Context.knows_of_loop rfl)
  have hclosed := hpart.targets hps
  intro l hl
  rw [← hentries, ClosedText, targetsOf_filter_isLine, labelsOf_filter_isLine] at hclosed
  exact hclosed l hl

theorem Block.Holds.text (h : Block.Holds env b out) :
    Statement.allText none b.statements (out.entries.filter (!·.isLine)) := by
  obtain ⟨source, n, ps, n', hps, hentries⟩ := h.entries
  rw [hentries]
  exact (Statement.emitsAll_spells _ b.statements { scope := b.name }).text hps

theorem Block.Holds.binds {p : Program} (h : Block.Holds env b out) (hmem : out ∈ p.blocks)
    (hnodup : p.labels.Nodup)
    (hown : ∀ label position, .jump (.generated label) position ∉ Statement.allOf b.statements) :
    Block.Binds p b out where
  targets l hl hname := by
    rcases h.closed hown l hl with hname' | hknown | ⟨hg, hl⟩
    · exact absurd hname' hname
    · cases hknown
    · have hl' : l ∈ p.labels := List.mem_flatMap.2 ⟨out, hmem, hl⟩
      exact ⟨hg, hl, List.count_eq_one_of_mem hnodup hl'⟩
  loops := h.text

/-- **Made-up labels are closed and bound to the right construct**: in each block a jump to a made-up
label that no jump of its source names has that label in the block, once in the whole program, and an
exit goes to a label of the innermost loop around it in its subroutine. -/
theorem Tree.program_binds_labels {t : Tree} {c : Configuration} {loader : IncludeLoader}
    {p : Program} (hown : t.HasOwnTargets) (h : t.program c loader = .ok p) :
    List.Forall₂ (Block.Binds p) t.blocks p.blocks := by
  rw [program_eq] at h
  have hnodup := lower_labels_nodup h
  obtain ⟨hlength, hholds⟩ := List.forall₂_iff_zip.1 (lower_blocks h)
  refine List.forall₂_iff_zip.2 ⟨hlength, fun {b out} hpair => ?_⟩
  obtain ⟨hb, hout⟩ := List.of_mem_zip hpair
  exact (hholds hpair).binds hout hnodup (hown b hb)

theorem nestedLoops_binds_labels : nestedLoops.HasOwnTargets ∧
    ∃ p, nestedLoops.program {} (.ofTexts []) = .ok p ∧
      List.Forall₂ (Block.Binds p) nestedLoops.blocks p.blocks := by
  have hown : nestedLoops.HasOwnTargets := by
    intro b hb label position hjump
    obtain rfl := List.mem_singleton.1 hb
    simp [Statement.allOf, Statement.withInner, Scope.inner, Choice.innerOf] at hjump
  have hlowered : (nestedLoops.program {} (.ofTexts [])).toOption.isSome := by decide +kernel
  cases h : nestedLoops.program {} (.ofTexts []) with
  | error e => simp [h, Except.toOption] at hlowered
  | ok p => exact ⟨hown, p, rfl, nestedLoops.program_binds_labels hown h⟩

/-- A loop beside a subroutine of a fixed address that has the name of the loop's first label, and a
jump to the subroutine in another block. -/
def borrowedLabel : Tree where
  name := "sample"
  loadAddress := none
  modules :=
    [{ name := "main"
       source := "main"
       blocks :=
        [{ name := "main"
           address := none
           options := []
           statements :=
            [.varDecl ⟨"main.b", .ubyte, .plain, none, [], {}⟩,
              .whileLoop (.var "main.b") ⟨"", [.step (.var "main.b") .down {}], {}⟩ {},
              .subroutine
                { name := "main.<s-1-loop>", parameters := [], returnTypes := []
                  machine := some
                    { address := some 65280, parameters := [], returns := [], clobbers := [] } }
                [] {}]
           position := {} },
         { name := "other"
           address := none
           options := []
           statements := [.jump (.named "main.<s-1-loop>") {}]
           position := {} }] }]

/-- The label of the loop is the target of the jump in the other block. -/
theorem borrowedLabel_strays : borrowedLabel.HasOwnTargets ∧
    ∃ p, borrowedLabel.program {} (.ofTexts []) = .ok p ∧
      ∃ home ∈ p.blocks, ∃ out ∈ p.blocks, ∃ l ∈ targetsOf out.entries,
        IsGenerated l ∧ l ∈ home.labels ∧ l ∉ out.labels := by
  have hown : borrowedLabel.HasOwnTargets := by
    intro b hb label position hjump
    obtain rfl | rfl := List.mem_pair.1 hb <;>
      simp [Statement.allOf, Statement.withInner, Scope.inner] at hjump
  have hlowered : (borrowedLabel.program {} (.ofTexts [])).toOption.map
      (·.blocks.map fun out => (targetsOf out.entries, out.labels)) =
        some [(["main.<s-3-continue>", "main.<s-1-loop>"],
            ["main.<s-1-loop>", "main.<s-3-continue>", "main.<s-2-break>"]),
          (["main.<s-1-loop>"], [])] := by decide +kernel
  cases h : borrowedLabel.program {} (.ofTexts []) with
  | error e => simp [h, Except.toOption] at hlowered
  | ok p =>
    simp only [h, Except.toOption, Option.map_some, Option.some.injEq] at hlowered
    obtain ⟨home, _, hblocks, hhome, hrest⟩ := List.map_eq_cons_iff.1 hlowered
    obtain ⟨out, _, rfl, hout, hnil⟩ := List.map_eq_cons_iff.1 hrest
    obtain rfl := List.map_eq_nil_iff.1 hnil
    rw [Prod.mk.injEq] at hhome hout
    refine ⟨hown, p, rfl, home, by simp [hblocks], out, by simp [hblocks], "main.<s-1-loop>", ?_,
      ⟨"main", "loop", 1, rfl⟩, ?_, ?_⟩
    · simp [hout.1]
    · simp [hhome.2]
    · simp [hout.2]

end StackCode
