/-
Whole programs are read back from the JSON values that they are written as. So no two
programs are written as the same value, and what one tool writes another one reads.
-/
import StackCode.Proofs.Data.Finite
import StackCode.Proofs.Data.Nodes

namespace StackCode

/-- What is written is a node. -/
theorem Statement.exists_node (s : Statement) : ∃ kind parts, s.toJson = .node kind parts := by
  cases s <;> exact ⟨_, _, by rw [toJson]⟩

/-- At the statements of a block the kind is a name, and a name is what is written. -/
theorem Statement.ofJson?_toJson (s : Statement) : ofJson? s.toJson = some s := by
  have h := s.atDepth?_toJson s.toJson.height (Nat.le_refl _)
  obtain ⟨kind, parts, hnode⟩ := s.exists_node
  rw [hnode] at h ⊢
  exact h

namespace Tree

theorem Block.ofJson?_toJson (b : Block) : ofJson? b.toJson = some b := by
  have hstatements : Json.listOf? Statement.ofJson? (.arr (b.statements.map Statement.toJson)) =
      some b.statements :=
    Json.listOf?_map fun s _ => s.ofJson?_toJson
  show (do some (⟨b.name, ← (Json.ofOption Json.ofWord b.address).orNull? Json.word?,
    ← Json.listOf? Json.str? (.arr (b.options.map .str)),
    ← Json.listOf? Statement.ofJson? (.arr (b.statements.map Statement.toJson)),
    ← Position.ofJson? b.position.toJson⟩ : Block)) = _
  rw [Json.orNull?_word, Json.listOf?_str, hstatements, Position.ofJson?_toJson]
  rfl

theorem Module.ofJson?_toJson (m : Module) : ofJson? m.toJson = some m := by
  have hblocks : Json.listOf? Block.ofJson? (.arr (m.blocks.map Block.toJson)) = some m.blocks :=
    Json.listOf?_map fun b _ => b.ofJson?_toJson
  show (do some (⟨m.name, m.source,
    ← Json.listOf? Block.ofJson? (.arr (m.blocks.map Block.toJson))⟩ : Module)) = _
  rw [hblocks]
  rfl

theorem ofJson?_toJson (t : Tree) : ofJson? t.toJson = some t := by
  have hmodules : Json.listOf? Module.ofJson? (.arr (t.modules.map Module.toJson)) = some t.modules :=
    Json.listOf?_map fun m _ => m.ofJson?_toJson
  show (do some (⟨t.name, ← (Json.ofOption Json.ofWord t.loadAddress).orNull? Json.word?,
    ← Json.listOf? Module.ofJson? (.arr (t.modules.map Module.toJson))⟩ : Tree)) = _
  rw [Json.orNull?_word, hmodules]
  rfl

/-- **Decoding undoes encoding.** A program whose float literals are finite is read back as it is. -/
theorem ofJson?_settled {t : Tree} (finite : ∀ x ∈ t.floats, x.isFinite) :
    ofJson? t.toJson.settled = some t := by
  rw [Json.settled_eq_self t.toJson (by rwa [t.floats_toJson]), t.ofJson?_toJson]

/-- A program with a literal, a storage, a target and a choice of each sort. -/
def mixed : Tree where
  name := "sample"
  loadAddress := some 2049
  modules :=
    [{ name := "main"
       source := "main.p8"
       blocks :=
        [{ name := "main"
           address := none
           options := ["force_output"]
           statements :=
            [.varDecl ⟨"main.x", .ubyte, .memory 53280, some 3, ["low"], {}⟩,
              .directive "%breakpoint" [.int (-1), .str "here"] ⟨"main.p8", 7⟩,
              .assign (.var "main.f") (.number (.float 1.5)) {},
              .forEach (some .x) none (.range (.var "main.a") (.var "main.b") Expr.unitStep)
                ⟨"", [.jump (.address 64738) {}], {}⟩ {},
              .choose (.var "main.x")
                [⟨some [.number (.wrapped .byte (-1))], ⟨"one", [.nop], {}⟩⟩,
                  ⟨none, ⟨"", [.jump (.generated "skip") {}], {}⟩⟩] {},
              .subroutine
                { name := "main.chrout"
                  parameters := [⟨"char", .ubyte⟩]
                  returnTypes := []
                  machine := some ⟨some 65490, [.register .a, .flag .carry], [.pair .ax], [.x]⟩ } [] {}]
           position := {} }] }]

theorem mixed_reads_back : mixed.floats = [1.5] ∧ ofJson? mixed.toJson.settled = some mixed :=
  have finite : ∀ x ∈ mixed.floats, x.isFinite := fun x hx => by
    obtain rfl : x = 1.5 := List.mem_singleton.1 hx
    rfl
  ⟨rfl, ofJson?_settled finite⟩

end Tree
end StackCode
