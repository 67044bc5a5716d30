/-
What a whole program defines: in each block the names of its variables with a fixed
address, and what the text of its statements defines.
-/
import StackCode.Proofs.Lowering.Program
import StackCode.Proofs.Names.Statement
import Mathlib.Data.List.Perm.Basic

namespace StackCode

open Writer

variable {env : Environment}

/-- The variables with a fixed address and the definitions in the text of a block. -/
def Tree.Block.definitions (b : Tree.Block) : List Definition :=
  (Declaration.ofList b.statements).filterMap (·.pointer?) ++ Statement.allDefinitions b.statements

def Tree.definitions (t : Tree) : List Definition := t.blocks.flatMap (·.definitions)

theorem Tree.definitions_perm (t : Tree) :
    t.definitions.Perm (t.declarations.filterMap (·.pointer?) ++ t.written) := by
  rw [declarations, List.filterMap_flatMap]
  exact (List.flatMap_append_perm t.blocks _ _).symm

/-- A name for a fixed address is no label. -/
theorem labelNames_pointers (ds : List Declaration) : labelNames (ds.filterMap (·.pointer?)) = [] := by
  rw [labelNames, List.filterMap_eq_nil_iff]
  intro x hx
  obtain ⟨d, -, hd⟩ := List.mem_filterMap.1 hx
  obtain ⟨-, p, -, rfl, -⟩ := Declaration.pointer?_eq hd
  rfl

/-- Only labels of the statements are among the labels. -/
theorem Tree.labelNames_definitions (t : Tree) : (labelNames t.definitions).Perm (labelNames t.written) := by
  have hperm := t.definitions_perm.filterMap (·.label?)
  rw [List.filterMap_append] at hperm
  refine hperm.trans (.of_eq ?_)
  rw [← labelNames, labelNames_pointers, List.nil_append, labelNames]

theorem declareVar_defines {d : VarDecl} (h : d.type ≠ .struct) :
    (perform (Sink.declare d.name d.type d.storage d.length)).Defines
      (Declaration.pointer? (.var d)).toList := by
  obtain ⟨name, type, storage, length, members, position⟩ := d
  rw [Declaration.pointer?, if_neg h]
  cases storage with
  | plain => exact declare_defines
  | const =>
    have hquiet : Sink.IsQuiet (Sink.modifyBlock id) := Sink.isQuiet_modifyBlock fun _ => rfl
    exact .quiet hquiet
  | memory address => exact .pointer name address type

theorem declareVars_defines (ds : List Declaration) :
    (declareVars ds).Defines (ds.filterMap (·.pointer?)) := by
  rw [List.filterMap_eq_flatMap_toList]
  refine .forM fun d _ => ?_
  cases d with
  | var d =>
    simp only
    split
    next hstruct =>
      rw [Declaration.pointer?, if_pos hstruct]
      exact .pure ()
    next hstruct => exact declareVar_defines hstruct
  | parameter s p => exact declare_defines
  | label | subroutine => exact .pure ()

/-- Nothing needs to be open before a block is written. -/
theorem Tree.Block.lower_leads (env : Environment) (b : Tree.Block) :
    Leads (fun _ => True) (b.lower env) b.definitions fun _ => True :=
  ((Leads.openBlock b.name b.address b.options).after fun _ =>
    (declareVars_defines _).bind fun _ => Leads.mark.after fun _ =>
    Statement.lowerAll_defines env { scope := b.name } b.statements).weaken fun _ _ => trivial

theorem Tree.steps_leads (env : Environment) (t : Tree) :
    Leads (fun _ => True) (t.steps env) t.definitions fun _ => True := by
  rw [definitions, blocks, List.flatMap_assoc]
  exact .forM fun m _ => .forM fun b _ => b.lower_leads _

end StackCode
