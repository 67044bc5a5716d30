/-
What lowering writes is sound. Each instruction in the output carries the operands that its
opcode takes, and converts to a wider type if the program has no casts. A step preserves this,
so a whole run does. No step branches on a status flag to a fixed address.
-/
import StackCode.Proofs.Lowering.Program
import StackCode.Proofs.Lowering.Twins

namespace StackCode

variable {casts : Prop}

/-! ## Outputs -/

/-- All that has been written is sound. -/
def Output.IsSound (casts : Prop) (out : Output) : Prop :=
  ∀ i ∈ out.sink.program.instructions, i.IsSound casts

/-- What stands in a program that is being written, stands in a finished block or in the open one. -/
theorem Sink.mem_instructions {s : Sink} {i : Instruction} : i ∈ s.program.instructions ↔
    (∃ b ∈ s.closed, i ∈ b.instructions) ∨ ∃ b ∈ s.current, .instruction i ∈ b.recent := by
  cases h : s.current <;>
    simp [program, Program.instructions, h, OpenBlock.mem_instructions_close, or_comm]

theorem Sink.takeLatest_sublist {i : Instruction} : ∀ {recent left : List Entry},
    takeLatest recent = some (i, left) → left.Sublist recent
  | [], _, h => by cases h
  | .label .. :: _, _, h => by cases h
  | .instruction j :: rest, left, h => by
    unfold takeLatest at h
    split at h
    · obtain ⟨⟨taken, left'⟩, hrest, hleft⟩ := Option.map_eq_some_iff.1 h
      cases hleft
      exact (takeLatest_sublist hrest).cons_cons _
    · cases h
      exact List.sublist_cons_self _ _

theorem Sink.mem_mark {marker : Instruction} {recent : List Entry} {e : Entry}
    (h : e ∈ mark marker recent) : e ∈ recent ∨ e = .instruction marker := by
  unfold mark at h
  split at h
  · split at h
    · exact (List.mem_cons.1 h).symm.imp_left (List.mem_cons_of_mem _)
    · exact (List.mem_cons.1 h).symm
  · exact .inr (List.mem_singleton.1 h)

/-- The steps keep what is written sound. If they fail, it is not for a branch on a status flag that is
to go to an address. -/
def Writer.KeepsSound {α : Type} (casts : Prop) (w : Writer α) : Prop :=
  ∀ out, out.IsSound casts → (∀ address, w out ≠ .error (.branchToAddress address)) ∧
    ∀ a out', w out = .ok (a, out') → out'.IsSound casts

namespace Writer.KeepsSound

variable {α β : Type} {w : Writer α} {f : α → Writer β}

theorem bind (hw : w.KeepsSound casts) (hf : ∀ a, (f a).KeepsSound casts) :
    (w >>= f).KeepsSound casts := by
  intro out hout
  obtain ⟨hbranch, hdone⟩ := hw out hout
  rw [show (w >>= f) out = (w out >>= fun r => f r.1 r.2) from rfl]
  cases hrun : w out with
  | error e => exact ⟨fun address h => hbranch address (hrun.trans (Except.error.inj h ▸ rfl)), nofun⟩
  | ok r => exact hf r.1 r.2 (hdone r.1 r.2 hrun)

theorem lift {x : Lowered α} (hx : x.Faultless) (hf : ∀ a, x = .ok a → (f a).KeepsSound casts) :
    (liftM x >>= f).KeepsSound casts := by
  cases x with
  | error e =>
    have he := hx e rfl
    refine fun out _ => ⟨fun address h => ?_, nofun⟩
    cases h
    cases he
  | ok a => exact hf a rfl

theorem pure (a : α) : (Pure.pure a : Writer α).KeepsSound casts := fun out hout =>
  ⟨nofun, fun b out' h => by
    obtain ⟨-, rfl⟩ := Writer.pure_ok_iff.1 h
    exact hout⟩

theorem lifted {x : Lowered α} (hx : x.Faultless) : (liftM x : Writer α).KeepsSound casts := by
  have hall : (liftM x >>= Pure.pure : Writer α).KeepsSound casts := lift hx fun a _ => pure a
  rwa [bind_pure] at hall

theorem fresh (scope suffix : String) : (freshLabel scope suffix).KeepsSound casts := fun out hout =>
  ⟨nofun, fun a out' h => by
    cases h
    exact hout⟩

/-- An operation on the sink that changes the open block, where it adds sound instructions, if any. -/
theorem perform {op : SinkM α} (hop : ∀ out a out', StackCode.perform op out = .ok (a, out') →
    ∃ b b', out.sink.current = some b ∧ out'.sink.current = some b' ∧
      out'.sink.closed = out.sink.closed ∧ ∀ i, Entry.instruction i ∈ b'.recent →
        Entry.instruction i ∈ b.recent ∨ i.IsSound casts) :
    (StackCode.perform op).KeepsSound casts := by
  intro out hout
  refine ⟨fun address h => ?_, fun a out' h i hi => ?_⟩
  · rw [perform_eq] at h
    split at h <;> cases h
  · obtain ⟨b, b', hb, hb', hclosed, hrecent⟩ := hop out a out' h
    rw [Sink.mem_instructions, hclosed, hb'] at hi
    obtain hi | ⟨_, ⟨⟩, hi⟩ := hi
    · exact hout i (Sink.mem_instructions.2 (.inl hi))
    · exact (hrecent i hi).elim (fun h => hout i (Sink.mem_instructions.2 (.inr ⟨b, hb, h⟩))) id

theorem modifyBlock {f : OpenBlock → OpenBlock} (hf : ∀ b i, Entry.instruction i ∈ (f b).recent →
    Entry.instruction i ∈ b.recent ∨ i.IsSound casts) :
    (StackCode.perform (Sink.modifyBlock f)).KeepsSound casts :=
  perform fun out _ out' h => by
    obtain ⟨b, hb, rfl⟩ := modifyBlock_ok h
    exact ⟨b, f b, hb, rfl, rfl, hf b⟩

theorem write {i : Instruction} (hi : i.IsSound casts) :
    (StackCode.perform (Sink.instruction i)).KeepsSound casts :=
  modifyBlock fun b j hj => (List.mem_cons.1 hj).symm.imp_right fun h => by
    cases h
    exact hi

theorem declare (name : String) (t : DataType) (storage : Storage) (length : Option UInt16) :
    (StackCode.perform (Sink.declare name t storage length)).KeepsSound casts := by
  unfold Sink.declare
  split <;> exact modifyBlock fun _ _ => .inl

theorem label (name : String) (isSubroutine : Bool) :
    (StackCode.perform (Sink.label name isSubroutine)).KeepsSound casts :=
  perform fun out _ out' h => by
    obtain ⟨b, hb, -, rfl⟩ := label_ok h
    exact ⟨b, _, hb, rfl, rfl, fun i hi => .inl ((List.mem_cons.1 hi).resolve_left nofun)⟩

theorem removeLatest : (StackCode.perform Sink.removeLatest).KeepsSound casts :=
  perform fun out _ out' h => by
    obtain ⟨b, left, hb, htake, rfl⟩ := removeLatest_taken h
    exact ⟨b, _, hb, rfl, rfl, fun i hi => .inl ((Sink.takeLatest_sublist htake).subset hi)⟩

/-- A marker carries a name, as it should. -/
theorem mark (env : Environment) (p : Position) : (env.mark p).KeepsSound casts := by
  unfold Environment.mark
  split
  · refine modifyBlock fun b i hi => (Sink.mem_mark hi).imp_right fun h => ?_
    cases h
    exact .named rfl _
  · exact pure ()

end Writer.KeepsSound

theorem Writer.Twins.keepsSound {α : Type} {w w' : Writer α} (h : Writer.Twins casts w w') :
    w.KeepsSound casts := by
  induction h with
  | lifted hx => exact .lifted hx
  | fresh scope suffix => exact .fresh scope suffix
  | write hi => exact .write hi
  | label name isSubroutine => exact .label name isSubroutine
  | declare name t storage length => exact .declare name t storage length
  | pointer name address t => exact .modifyBlock fun _ _ => .inl
  | removeLatest => exact .removeLatest
  | mark env p => exact .mark env p
  | bind _ _ ihw ihf => exact ihw.bind ihf
  | lift hx _ ihf => exact .lift hx ihf

/-! ## Programs -/

/-- A block is opened with nothing in it. -/
theorem Writer.KeepsSound.openBlock (name : String) (address : Option UInt16) (options : List String) :
    (StackCode.perform (Sink.openBlock name address options)).KeepsSound casts := by
  refine fun out hout => ⟨nofun, fun a out' h i hi => ?_⟩
  cases h
  obtain ⟨b, hb, hi⟩ | ⟨_, ⟨⟩, hi⟩ := Sink.mem_instructions.1 hi
  · obtain hb | hb := List.mem_append.1 hb
    · obtain ⟨b, hcurrent, rfl⟩ := Option.map_eq_some_iff.1 (Option.mem_toList.1 hb)
      have hrecent := OpenBlock.mem_instructions_close.1 hi
      exact hout i (Sink.mem_instructions.2 (.inr ⟨b, hcurrent, hrecent⟩))
    · exact hout i (Sink.mem_instructions.2 (.inl ⟨b, hb, hi⟩))
  · cases hi

theorem Writer.KeepsSound.forM {γ : Type} {f : γ → Writer Unit} {xs : List γ}
    (h : ∀ x ∈ xs, (f x).KeepsSound casts) : (xs.forM f).KeepsSound casts := by
  induction xs with
  | nil => exact .pure ()
  | cons x xs ih =>
    exact (h x List.mem_cons_self).bind fun _ => ih fun y hy => h y (List.mem_cons_of_mem _ hy)

theorem Tree.Block.lower_keepsSound (env : Environment) (b : Tree.Block)
    (hc : Statement.anyCast b.statements → casts) : (b.lower env).KeepsSound casts := by
  rw [lower_eq]
  exact (Writer.KeepsSound.openBlock _ _ _).bind fun _ => (b.fill_twins env hc).keepsSound

/-- What a program is lowered to is sound, and no branch is to go to an address. -/
theorem Tree.lower_sound {t : Tree} (env : Environment) (hc : t.hasCast → casts) :
    (∀ address, t.lower env ≠ .error (.branchToAddress address)) ∧
      ∀ p, t.lower env = .ok p → ∀ i ∈ p.instructions, i.IsSound casts := by
  have hsteps : (t.steps env).KeepsSound casts := .forM fun m hm => .forM fun b hb =>
    b.lower_keepsSound _ fun hcast => hc (List.any_eq_true.2 ⟨b, List.mem_flatMap.2 ⟨m, hm, hb⟩, hcast⟩)
  have hstart : t.start.IsSound casts := fun i hi => by
    obtain ⟨b, hb, -⟩ | ⟨b, hb, -⟩ := Sink.mem_instructions.1 hi <;> cases hb
  obtain ⟨hbranch, hdone⟩ := hsteps t.start hstart
  refine ⟨fun address h => ?_, fun p h => ?_⟩
  · rw [lower_eq] at h
    cases hrun : t.steps env t.start <;> rw [hrun] at h <;> cases h
    exact hbranch address hrun
  · obtain ⟨out, hrun, rfl⟩ := lower_ok_iff.1 h
    exact hdone _ _ hrun

/-- **Every instruction is well formed**: in a program that has been lowered each of them carries the
operands that its opcode takes, and no others. A branch on a status flag never comes to an address. -/
theorem Tree.lower_isWellFormed (t : Tree) (env : Environment) :
    (∀ address, t.lower env ≠ .error (.branchToAddress address)) ∧
      ∀ p, t.lower env = .ok p → ∀ b ∈ p.blocks, ∀ i ∈ b.instructions, i.IsWellFormed := by
  obtain ⟨hbranch, hsound⟩ := t.lower_sound env (fun _ => trivial : t.hasCast → True)
  exact ⟨hbranch, fun p h b hb i hi => (hsound p h i (List.mem_flatMap.2 ⟨b, hb, hi⟩)).fits⟩

/-- A loop that writes the letters. -/
def alphabet : Tree where
  name := "sample"
  loadAddress := none
  modules :=
    [{ name := "main"
       source := "main"
       blocks :=
        [{ name := "main"
           address := none
           options := []
           statements :=
            [.varDecl ⟨"main.letter", .ubyte, .plain, none, [], {}⟩,
              .forEach none (some "main.letter")
                (.range (.number (.wrapped .ubyte 65)) (.number (.wrapped .ubyte 90))
                  (.number (.wrapped .ubyte 1)))
                ⟨"", [.call "vm_write_char" [.var "main.letter"] {}], {}⟩ {}]
           position := {} }] }]

theorem alphabet_isWellFormed : ∃ p, alphabet.program {} (.ofTexts []) = .ok p ∧
    p.instructions.length = 9 ∧ ∀ b ∈ p.blocks, ∀ i ∈ b.instructions, i.IsWellFormed := by
  have hlowered : (alphabet.program {} (.ofTexts [])).toOption.map (·.instructions.length) = some 9 := by
    decide +kernel
  cases h : alphabet.program {} (.ofTexts []) with
  | error e => simp [h, Except.toOption] at hlowered
  | ok p =>
    have hlength : p.instructions.length = 9 := by simpa [h, Except.toOption] using hlowered
    rw [Tree.program_eq] at h
    exact ⟨p, rfl, hlength, (alphabet.lower_isWellFormed _).2 p h⟩

end StackCode
