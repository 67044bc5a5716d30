/-
What steps access. The account is kept for names without a home: at least and at most
these of them are accessed meanwhile. A variable that a step declares in a block need
not be in the account, because the block has it from then on.
-/
import StackCode.Proofs.Lowering.Program
import StackCode.Proofs.Storage.Access

namespace StackCode

/-! ## Programs -/

/-- The name that an entry accesses. -/
def Entry.accessed : Entry → List String
  | .instruction i => i.accessed?.toList
  | .label .. => []

/-- The names that a block accesses. -/
def Block.accessed (b : Block) : List String := accessesOf b.instructions

/-- The names that a program accesses. -/
def Program.accessed (p : Program) : List String := accessesOf p.instructions

/-- The variables in the blocks of a program. -/
def Program.recorded (p : Program) : List String := p.blocks.flatMap fun b => b.vars.map (·.name)

theorem Program.mem_accessed {p : Program} {name : String} :
    name ∈ p.accessed ↔ ∃ b ∈ p.blocks, name ∈ b.accessed := by
  simp only [accessed, instructions, Block.accessed, mem_accessesOf, List.mem_flatMap]
  exact ⟨fun ⟨i, ⟨b, hb, hi⟩, h⟩ => ⟨b, hb, i, hi, h⟩, fun ⟨b, hb, i, hi, h⟩ => ⟨i, ⟨b, hb, hi⟩, h⟩⟩

def Output.accessed (out : Output) : List String := out.sink.program.accessed

def Output.recorded (out : Output) : List String := out.sink.program.recorded

/-- One output comes behind another one. Of the names without a home, at least and at most these have
been accessed meanwhile. -/
structure Output.Touched (symbols : SymbolTable) (least most : List String) (out out' : Output) :
    Prop where
  recorded : out.recorded ⊆ out'.recorded
  accessed : out.accessed ⊆ out'.accessed
  least : least ⊆ out'.accessed
  most : ∀ name ∈ out'.accessed,
    name ∈ out.accessed ∨ name ∈ most ∨ symbols.IsHome name ∨ name ∈ out'.recorded

namespace Output.Touched

variable {symbols : SymbolTable} {least most least' most' : List String} {out mid out' : Output}

theorem refl (out : Output) : out.Touched symbols [] [] out :=
  ⟨List.Subset.refl _, List.Subset.refl _, List.nil_subset _, fun _ => .inl⟩

theorem append (h : out.Touched symbols least most mid) (h' : mid.Touched symbols least' most' out') :
    out.Touched symbols (least ++ least') (most ++ most') out' where
  recorded := List.Subset.trans h.recorded h'.recorded
  accessed := List.Subset.trans h.accessed h'.accessed
  least := List.append_subset.2 ⟨List.Subset.trans h.least h'.accessed, h'.least⟩
  most name hname := by
    rcases h'.most name hname with hmid | hmost | hrest
    · rcases h.most name hmid with hout | hmost | hhome | hvar
      · exact .inl hout
      · exact .inr (.inl (List.mem_append_left _ hmost))
      · exact .inr (.inr (.inl hhome))
      · exact .inr (.inr (.inr (h'.recorded hvar)))
    · exact .inr (.inl (List.mem_append_right _ hmost))
    · exact .inr (.inr hrest)

/-- The account may be less exact, and leave out what has a home or has been declared. -/
theorem weaken (h : out.Touched symbols least most out') (hl : least' ⊆ least)
    (hm : ∀ name ∈ most, name ∈ most' ∨ symbols.IsHome name ∨ name ∈ out'.recorded) :
    out.Touched symbols least' most' out' where
  recorded := h.recorded
  accessed := h.accessed
  least := List.Subset.trans hl h.least
  most name hname := by
    rcases h.most name hname with hout | hmost | hrest
    · exact .inl hout
    · exact .inr (hm name hmost)
    · exact .inr (.inr hrest)

end Output.Touched

/-! ## The open block -/

theorem OpenBlock.mem_accessed {b : OpenBlock} {name : String} :
    name ∈ b.close.accessed ↔ ∃ i, .instruction i ∈ b.recent ∧ i.accessed? = some name := by
  simp only [Block.accessed, mem_accessesOf, mem_instructions_close]

/-- A change of the open block that keeps its variables and what it accesses. -/
theorem modifyBlock_touched {symbols : SymbolTable} {f : OpenBlock → OpenBlock} {names : List String}
    {out out' : Output} {u : Unit} (hvars : ∀ b : OpenBlock, b.vars ⊆ (f b).vars)
    (hf : ∀ (b : OpenBlock) name,
      name ∈ (f b).close.accessed ↔ name ∈ b.close.accessed ∨ name ∈ names)
    (h : perform (Sink.modifyBlock f) out = .ok (u, out')) : out.Touched symbols names names out' := by
  obtain ⟨b, hb, hb'⟩ := modifyBlock_blocks h
  have haccessed : ∀ name, name ∈ out'.accessed ↔ name ∈ out.accessed ∨ name ∈ names := by
    intro name
    simp only [Output.accessed, Program.mem_accessed, hb, hb', List.mem_append, List.mem_singleton,
      or_and_right, exists_or, exists_eq_left, hf, or_assoc]
  refine ⟨?_, fun name hname => (haccessed name).2 (.inl hname),
    fun name hname => (haccessed name).2 (.inr hname), fun name hname => ?_⟩
  · simp only [Output.recorded, Program.recorded, hb, hb', List.flatMap_append,
      List.flatMap_singleton]
    exact List.append_subset.2 ⟨List.subset_append_left _ _,
      List.subset_append_of_subset_right _ (List.map_subset _ (hvars b))⟩
  · exact ((haccessed name).1 hname).imp_right .inl

/-! ## Steps -/

/-- Of the names without a home, the steps access at least and at most these. -/
structure Writer.Touches {α : Type} (symbols : SymbolTable) (least most : List String) (w : Writer α) :
    Prop where
  touched : ∀ {out a out'}, w out = .ok (a, out') → out.Touched symbols least most out'

/-- Of the names without a home, the steps access just these. -/
abbrev Writer.Accesses {α : Type} (symbols : SymbolTable) (names : List String) (w : Writer α) : Prop :=
  w.Touches symbols names names

namespace Writer.Touches

variable {α β : Type} {symbols : SymbolTable} {least most least' most' names : List String}
  {w : Writer α} {f : α → Writer β}

theorem bind (hw : w.Touches symbols least most) (hf : ∀ a, (f a).Touches symbols least' most') :
    (w >>= f).Touches symbols (least ++ least') (most ++ most') where
  touched h := by
    obtain ⟨a, mid, h₁, h₂⟩ := Writer.bind_ok_iff.1 h
    exact (hw.touched h₁).append ((hf a).touched h₂)

/-- Behind steps that access nothing without a home. -/
theorem after (hw : w.Accesses symbols []) (hf : ∀ a, (f a).Touches symbols least most) :
    (w >>= f).Touches symbols least most :=
  hw.bind hf

/-- In front of steps that access nothing without a home. -/
theorem before (hw : w.Touches symbols least most) (hf : ∀ a, (f a).Accesses symbols []) :
    (w >>= f).Touches symbols least most := by
  rw [← List.append_nil least, ← List.append_nil most]
  exact hw.bind hf

theorem weaken (hw : w.Touches symbols least most) (hl : least' ⊆ least)
    (hm : ∀ name ∈ most, name ∈ most' ∨ symbols.IsHome name) : w.Touches symbols least' most' :=
  ⟨fun h => (hw.touched h).weaken hl fun name hname => (hm name hname).imp_right .inl⟩

theorem perm {names' : List String} (hw : w.Accesses symbols names) (hp : names.Perm names') :
    w.Accesses symbols names' :=
  hw.weaken hp.symm.subset fun _ hname => .inl (hp.subset hname)

theorem lifted {x : Lowered α} : (liftM x : Writer α).Accesses symbols [] where
  touched h := by
    obtain ⟨-, rfl⟩ := Writer.lift_ok_iff.1 h
    exact .refl _

theorem lift {x : Lowered α} (hf : ∀ a, x = .ok a → (f a).Touches symbols least most) :
    (liftM x >>= f).Touches symbols least most where
  touched h := by
    obtain ⟨a, mid, h₁, h₂⟩ := Writer.bind_ok_iff.1 h
    obtain ⟨hx, rfl⟩ := Writer.lift_ok_iff.1 h₁
    exact (hf a hx).touched h₂

theorem pure (a : α) : (Pure.pure a : Writer α).Accesses symbols [] := @lifted α symbols (.ok a)

theorem throw {e : LowerError} : (MonadExcept.throw e : Writer α).Touches symbols least most :=
  ⟨fun h => (Writer.throw_ok_iff.1 h).elim⟩

theorem throw_bind {e : LowerError} :
    ((MonadExcept.throw e : Writer α) >>= f).Touches symbols least most where
  touched h := by
    obtain ⟨a, mid, h, -⟩ := Writer.bind_ok_iff.1 h
    exact (Writer.throw_ok_iff.1 h).elim

theorem fresh {scope suffix : String} {f : String → Writer β}
    (hf : ∀ name, (f name).Touches symbols least most) :
    (freshLabel scope suffix >>= f).Touches symbols least most where
  touched h := by
    obtain ⟨name, mid, h₁, h₂⟩ := Writer.bind_ok_iff.1 h
    cases h₁
    have hrest := (hf _).touched h₂
    exact ⟨hrest.recorded, hrest.accessed, hrest.least, hrest.most⟩

theorem frame {scope : String} {f : LoopFrame → Writer Unit}
    (hf : ∀ frame, (f frame).Touches symbols least most) :
    (freshFrame scope >>= f).Touches symbols least most := by
  simp only [freshFrame, bind_assoc, pure_bind]
  exact fresh fun _ => fresh fun _ => fresh fun _ => hf _

theorem forM {γ : Type} {f : γ → Writer Unit} {g : γ → List String} {xs : List γ}
    (h : ∀ x ∈ xs, (f x).Accesses symbols (g x)) : (xs.forM f).Accesses symbols (xs.flatMap g) := by
  induction xs with
  | nil => exact pure ()
  | cons x xs ih =>
    rw [List.flatMap_cons]
    exact (h x List.mem_cons_self).bind fun _ => ih fun y hy => h y (List.mem_cons_of_mem _ hy)

/-! ### Operations on the sink -/

theorem write (e : Entry) : (perform (Sink.write e)).Accesses symbols e.accessed := by
  refine ⟨modifyBlock_touched (fun b => List.Subset.refl _) fun b name => ?_⟩
  simp only [OpenBlock.mem_accessed, List.mem_cons, or_and_right, exists_or]
  rw [or_comm]
  refine or_congr_right ?_
  cases e <;> simp [Entry.accessed]

theorem declare {name : String} {t : DataType} {storage : Storage} {length : Option UInt16} :
    (perform (Sink.declare name t storage length)).Accesses symbols [] := by
  unfold Sink.declare
  split <;>
    refine ⟨modifyBlock_touched (fun b => ?_) fun b _ => by simp [OpenBlock.mem_accessed]⟩
  · exact List.subset_append_left _ _
  all_goals exact List.Subset.refl _

theorem pointer {name : String} {address : UInt16} {t : DataType} :
    (perform (Sink.pointer name address t)).Accesses symbols [] :=
  ⟨modifyBlock_touched (fun b => List.Subset.refl _) fun b _ => by simp [OpenBlock.mem_accessed]⟩

/-- A marker accesses nothing, and it only takes the place of a marker. -/
theorem mark {env : Environment} {position : Position} :
    (env.mark position).Accesses symbols [] := by
  unfold Environment.mark
  split
  · refine ⟨modifyBlock_touched (fun b => List.Subset.refl _) fun b name => ?_⟩
    have hkept : ∀ {entries : List Entry},
        (∃ i, .instruction i ∈ entries ∧ i.accessed? = some name) ↔
          ∃ i, .instruction i ∈ entries.filter (!·.isLine) ∧ i.accessed? = some name := by
      intro entries
      refine exists_congr fun i => and_congr_left fun h => ?_
      have hline : i.isLine = false := by
        cases hop : i.opcode <;>
          simp_all [Instruction.isLine, Instruction.accessed?, Opcode.isAccess]
      simp [List.mem_filter, Entry.isLine, hline]
    rw [OpenBlock.mem_accessed, OpenBlock.mem_accessed, hkept, filter_mark rfl, ← hkept]
    simp
  · exact pure ()

theorem label {name : String} {isSubroutine : Bool} :
    (perform (Sink.label name isSubroutine)).Accesses symbols [] := by
  refine ⟨fun {out u out'} h => ?_⟩
  obtain ⟨b, hb, -, rfl⟩ := label_ok h
  have hwrite : (perform (Sink.write (.label name isSubroutine))).Accesses symbols [] :=
    write (.label name isSubroutine)
  have hrest := hwrite.touched (perform_ok_iff.2 ⟨_, Sink.modifyBlock_result hb, rfl⟩)
  exact ⟨hrest.recorded, hrest.accessed, hrest.least, hrest.most⟩

theorem place {name : String} : (placeLabel name).Accesses symbols [] := label

theorem emit_all (code : Code) : (StackCode.emit code).Accesses symbols (accessesOf code) := by
  induction code with
  | nil =>
    refine ⟨fun {out u out'} h => ?_⟩
    simp only [StackCode.emit, List.forM, perform_ok_iff, SinkM.pure_ok_iff] at h
    obtain ⟨sink, ⟨-, rfl⟩, rfl⟩ := h
    exact .refl out
  | cons i code ih =>
    refine ⟨fun {out u out'} h => ?_⟩
    simp only [StackCode.emit, List.forM, perform_ok_iff, SinkM.bind_ok_iff] at h
    obtain ⟨sink, ⟨v, mid, hi, hrest⟩, rfl⟩ := h
    have hwrite : (perform (Sink.write (.instruction i))).Accesses symbols i.accessed?.toList :=
      write (.instruction i)
    have hfirst := hwrite.touched (perform_ok_iff.2 ⟨mid, hi, rfl⟩ : perform _ out = _)
    have hthen := ih.touched (perform_ok_iff.2 ⟨sink, hrest, rfl⟩ :
      StackCode.emit code { out with sink := mid } = _)
    have hnames : accessesOf (i :: code) = i.accessed?.toList ++ accessesOf code := by
      cases h : i.accessed? <;> simp [accessesOf, h]
    rw [hnames]
    exact hfirst.append hthen

theorem emit {code : Code} (hl : least ⊆ accessesOf code)
    (hm : ∀ name ∈ accessesOf code, name ∈ most ∨ symbols.IsHome name) :
    (StackCode.emit code).Touches symbols least most :=
  (emit_all code).weaken hl hm

/-- Code that accesses nothing. -/
theorem emit_still {code : Code} (h : accessesOf code = []) : (StackCode.emit code).Accesses symbols [] :=
  emit (List.nil_subset _) (by simp [h])

theorem emitLowered {x : Lowered Code} (h : ∀ code, x = .ok code →
      least ⊆ accessesOf code ∧ ∀ name ∈ accessesOf code, name ∈ most ∨ symbols.IsHome name) :
    (StackCode.emitLowered x).Touches symbols least most :=
  lift fun code hx => emit (h code hx).1 (h code hx).2

/-- Code that only accesses what has a home. -/
theorem emit_housed {x : Lowered Code} (h : x.All symbols.Houses) :
    (StackCode.emitLowered x).Accesses symbols [] :=
  emitLowered fun code hx => ⟨List.nil_subset _, fun name hname => .inr ((h code hx).accesses name hname)⟩

theorem close {name : String} : (closeAt name).Accesses symbols [] :=
  place.after fun _ => emit_still rfl

/-- What a step declares in a block need not be in the account of what follows. -/
theorem declaring {index : String} {t : DataType} {length : Option UInt16} {w : Writer β}
    (hw : w.Touches symbols least (index :: most)) :
    (perform (Sink.declare index t .plain length) >>= fun _ => w).Touches symbols least most := by
  refine ⟨fun {out b out'} h => ?_⟩
  obtain ⟨u, mid, h₁, h₂⟩ := Writer.bind_ok_iff.1 h
  have hmid : index ∈ mid.recorded := by
    obtain ⟨b, -, hb⟩ := modifyBlock_blocks h₁
    simp [Output.recorded, Program.recorded, hb, OpenBlock.close]
  have hrest := hw.touched h₂
  refine (declare.touched h₁).append (hrest.weaken (List.Subset.refl _) fun name hname => ?_)
  rcases List.mem_cons.1 hname with rfl | hname
  · exact .inr (.inr (hrest.recorded hmid))
  · exact .inl hname

end Writer.Touches
end StackCode
