/-
Where the storage of variables is respected. A block records the variables that live in
it and those of parameters, so what has a home is a register or is recorded. What a
program accesses beyond that are its strays: variables at fixed addresses, and constants,
that are stepped or counted in as if they lived in a block.
-/
import StackCode.Proofs.Storage.Statement

namespace StackCode

open Writer

/-! ## What is recorded -/

/-- The variable that a block has for a declaration. -/
def Declaration.recorded? : Declaration → Option String
  | .var d => if d.type ≠ .struct ∧ d.storage = .plain then some d.name else none
  | .parameter s p => some (s.slot p)
  | .label _ | .subroutine .. => none

/-- The steps record these variables, and keep those that are recorded. -/
structure Writer.Records {α : Type} (names : List String) (w : Writer α) : Prop where
  recorded : ∀ {out a out'}, w out = .ok (a, out') → out.recorded ++ names ⊆ out'.recorded

namespace Writer.Records

variable {α β : Type} {symbols : SymbolTable} {names names' least most : List String}
  {w : Writer α} {f : α → Writer β}

/-- Steps that access something keep what is recorded. -/
theorem of_touches (h : w.Touches symbols least most) : w.Records [] where
  recorded hrun := by
    rw [List.append_nil]
    exact (h.touched hrun).recorded

theorem pure (a : α) : (Pure.pure a : Writer α).Records [] where
  recorded h := by
    obtain ⟨-, rfl⟩ := Writer.pure_ok_iff.1 h
    simp

theorem bind (hw : w.Records names) (hf : ∀ a, (f a).Records names') :
    (w >>= f).Records (names ++ names') where
  recorded h := by
    obtain ⟨a, mid, h₁, h₂⟩ := Writer.bind_ok_iff.1 h
    have hmid := List.append_subset.1 ((hf a).recorded h₂)
    rw [← List.append_assoc]
    exact List.append_subset.2 ⟨List.Subset.trans (hw.recorded h₁) hmid.1, hmid.2⟩

theorem forM {γ : Type} {f : γ → Writer Unit} {g : γ → List String} {xs : List γ}
    (h : ∀ x ∈ xs, (f x).Records (g x)) : (xs.forM f).Records (xs.flatMap g) := by
  induction xs with
  | nil => exact pure ()
  | cons x xs ih =>
    rw [List.flatMap_cons]
    exact (h x List.mem_cons_self).bind fun _ => ih fun y hy => h y (List.mem_cons_of_mem _ hy)

theorem declare {name : String} {t : DataType} {length : Option UInt16} :
    (perform (Sink.declare name t .plain length)).Records [name] where
  recorded h := by
    obtain ⟨b, hb, hb'⟩ := modifyBlock_blocks h
    simp [Output.recorded, Program.recorded, hb, hb', OpenBlock.close]

theorem declare_elsewhere {name : String} {t : DataType} {storage : Storage} {length : Option UInt16} :
    (perform (Sink.declare name t storage length)).Records [] := by
  have htouches : (perform (Sink.declare name t storage length)).Accesses {} [] := .declare
  exact of_touches htouches

end Writer.Records

/-! ## Declarations -/

variable {symbols : SymbolTable}

theorem declareVars_accesses (ds : List Declaration) : (declareVars ds).Accesses symbols [] := by
  induction ds with
  | nil => exact .pure ()
  | cons d ds ih =>
    refine Touches.after ?_ fun _ => ih
    cases d with
    | var d =>
      simp only
      split
      · exact .pure ()
      · exact .declare
    | parameter => exact .declare
    | label | subroutine => exact .pure ()

theorem declareVars_records (ds : List Declaration) :
    (declareVars ds).Records (ds.filterMap (·.recorded?)) := by
  rw [List.filterMap_eq_flatMap_toList]
  refine .forM fun d _ => ?_
  cases d with
  | var d =>
    obtain ⟨name, type, storage, length, members, position⟩ := d
    by_cases hstruct : type = .struct
    · simpa [Declaration.recorded?, hstruct] using Writer.Records.pure ()
    · cases storage with
      | plain => simpa [Declaration.recorded?, hstruct] using Writer.Records.declare
      | const | memory =>
        simpa [Declaration.recorded?, hstruct] using Writer.Records.declare_elsewhere
  | parameter s p => exact .declare
  | label | subroutine => exact .pure ()

/-- Where a subroutine is declared, the variables of its parameters are. -/
def Declaration.Complete (ds : List Declaration) : Prop :=
  ∀ s hasBody p, .subroutine s hasBody ∈ ds → s.machine = none → p ∈ s.parameters →
    .parameter s p ∈ ds

theorem Declaration.Complete.append {ds ds' : List Declaration} (h : Complete ds) (h' : Complete ds') :
    Complete (ds ++ ds') := fun s hasBody p hs hm hp =>
  List.mem_append.2 ((List.mem_append.1 hs).imp (h s hasBody p · hm hp) (h' s hasBody p · hm hp))

theorem Declaration.complete_of_subroutine {s : Signature} {hasBody : Bool} {ds : List Declaration}
    (h : Complete ds) : Complete (.subroutine s hasBody :: parameters s ++ ds) := by
  intro s' hasBody' p hs hm hp
  rw [List.cons_append, List.mem_cons, List.mem_append] at hs
  rcases hs with heq | hparameters | hinner
  · cases heq
    refine List.mem_append_left _ (List.mem_cons_of_mem _ ?_)
    simp [parameters, hm, hp]
  · unfold parameters at hparameters
    split at hparameters
    · cases hparameters
    · obtain ⟨q, -, hq⟩ := List.mem_map.1 hparameters
      cases hq
  · exact List.mem_append_right _ (h s' hasBody' p hinner hm hp)

mutual

theorem Declaration.ofStatement_complete : ∀ s : Statement, Complete (ofStatement s)
  | .cond _ thenPart elsePart _ | .branch _ thenPart elsePart _ =>
    (ofScope_complete thenPart).append (ofScope_complete elsePart)
  | .forEach _ _ _ body _ | .whileLoop _ body _ | .repeatLoop body _ _ => ofScope_complete body
  | .scope s => ofScope_complete s
  | .subroutine _ body _ => complete_of_subroutine (ofList_complete body)
  | .choose _ choices _ => ofChoices_complete choices
  | .varDecl _ | .label _ _ => fun s hasBody p hs => by simp [ofStatement] at hs
  | .assign .. | .step .. | .jump .. | .call .. | .exit .. | .ret .. | .returnFromIrq _
  | .directive .. | .assembly .. | .nop => fun s hasBody p hs => by simp [ofStatement] at hs

theorem Declaration.ofScope_complete : ∀ s : Scope, Complete (ofScope s)
  | ⟨_, statements, _⟩ => ofList_complete statements

theorem Declaration.ofChoices_complete : ∀ cs : List Choice, Complete (ofChoices cs)
  | [] => fun s hasBody p hs => by cases hs
  | ⟨_, body⟩ :: rest => (ofScope_complete body).append (ofChoices_complete rest)

theorem Declaration.ofList_complete : ∀ ss : List Statement, Complete (ofList ss)
  | [] => fun s hasBody p hs => by cases hs
  | s :: rest => (ofStatement_complete s).append (ofList_complete rest)

end

theorem Tree.declarations_complete (t : Tree) : Declaration.Complete t.declarations := by
  unfold declarations
  induction t.blocks with
  | nil => exact fun s hasBody p hs => by cases hs
  | cons b bs ih =>
    rw [List.flatMap_cons]
    exact (Declaration.ofList_complete b.statements).append ih

/-- What has a home is a register, or it is declared as a variable that a block has. -/
theorem Tree.variable_of_isHome {t : Tree} {name : String} (h : (SymbolTable.ofTree t).IsHome name)
    (hr : ∀ r : Register, name ≠ r.name) : name ∈ t.declarations.filterMap (·.recorded?) := by
  cases h with
  | register r => exact (hr r rfl).elim
  | @var _ info found plain type =>
    have hfind : (SymbolTable.ofTree t).find? name = some (.var info) := by
      unfold SymbolTable.var? at found
      split at found
      next found' => cases found; exact found'
      next => cases found
    obtain ⟨d, hd, hbinding⟩ := SymbolTable.exists_of_find? hfind
    refine List.mem_filterMap.2 ⟨d, hd, ?_⟩
    cases d with
    | var d =>
      cases hbinding
      exact if_pos ⟨type, plain⟩
    | parameter s p =>
      cases hbinding
      rfl
    | label | subroutine => cases hbinding
  | @parameter target s p found machine mem =>
    obtain ⟨d, hd, hbinding⟩ := SymbolTable.exists_of_find? found
    cases d with
    | subroutine s' hasBody =>
      cases hbinding
      have hparameter := t.declarations_complete s hasBody p hd machine mem
      exact List.mem_filterMap.2 ⟨_, hparameter, rfl⟩
    | var | parameter | label => cases hbinding

/-! ## Programs -/

/-- The variables that a program accesses as if they lived in a block. -/
def Tree.strays (t : Tree) : List String :=
  t.blocks.flatMap fun b => Statement.allStrays (.ofTree t) b.statements

theorem openBlock_accesses {name : String} {address : Option UInt16} {options : List String} :
    (perform (Sink.openBlock name address options)).Accesses symbols [] where
  touched {out _ out'} h := by
    have hsame : out'.accessed = out.accessed ∧ out'.recorded = out.recorded := by
      cases h
      cases hb : out.sink.current <;>
        simp [Output.accessed, Output.recorded, Program.accessed, Program.instructions,
          Program.recorded, Sink.program, hb, OpenBlock.close, Block.instructions]
    obtain ⟨haccessed, hrecorded⟩ := hsame
    exact ⟨hrecorded ▸ List.Subset.refl _, haccessed ▸ List.Subset.refl _, List.nil_subset _,
      fun name hname => .inl (haccessed ▸ hname)⟩

theorem Tree.Block.lower_accesses (env : Environment) (b : Tree.Block) :
    (b.lower env).Accesses env.symbols (Statement.allStrays env.symbols b.statements) :=
  openBlock_accesses.after fun _ => (declareVars_accesses _).after fun _ => Touches.mark.after fun _ =>
    Statement.lowerAll_accesses env { scope := b.name } b.statements

theorem Tree.Block.lower_records (env : Environment) (b : Tree.Block) :
    (b.lower env).Records ((Declaration.ofList b.statements).filterMap (·.recorded?)) := by
  have hopen : (perform (Sink.openBlock b.name b.address b.options)).Accesses env.symbols [] :=
    openBlock_accesses
  have hmark : (env.mark b.position).Accesses env.symbols [] := .mark
  have htext := Statement.lowerAll_accesses env { scope := b.name } b.statements
  have hrest := hmark.after fun _ => htext
  rw [← List.append_nil (List.filterMap _ _)]
  exact (Writer.Records.of_touches hopen).bind fun _ => (declareVars_records _).bind fun _ =>
    .of_touches hrest

theorem Tree.steps_accesses (t : Tree) (c : Configuration) (loader : IncludeLoader) :
    (t.steps (t.environment c loader)).Accesses (.ofTree t) t.strays := by
  rw [strays, blocks, List.flatMap_assoc]
  exact .forM fun m _ => .forM fun b _ => b.lower_accesses { t.environment c loader with source := m.source }

theorem Tree.steps_records (t : Tree) (c : Configuration) (loader : IncludeLoader) :
    (t.steps (t.environment c loader)).Records (t.declarations.filterMap (·.recorded?)) := by
  rw [declarations, List.filterMap_flatMap, blocks, List.flatMap_assoc]
  exact .forM fun m _ => .forM fun b _ => b.lower_records _

/-- **What a program accesses beyond registers and the variables of its blocks are its strays.** So the
storage of every variable is respected just if no stray is missing in the blocks. -/
theorem Tree.program_accesses_strays {t : Tree} {c : Configuration} {loader : IncludeLoader}
    {p : Program} (h : t.program c loader = .ok p) {name : String}
    (hr : ∀ r : Register, name ≠ r.name) (hn : name ∉ p.recorded) :
    name ∈ p.accessed ↔ name ∈ t.strays := by
  rw [program_eq, lower_ok_iff] at h
  obtain ⟨out, hrun, rfl⟩ := h
  have htouched := (t.steps_accesses c loader).touched hrun
  constructor
  · intro hname
    rcases htouched.most name hname with hstart | hstray | hhome | hrecorded
    · cases hstart
    · exact hstray
    · have hvar := List.mem_append_right t.start.recorded (variable_of_isHome hhome hr)
      exact (hn ((t.steps_records c loader).recorded hrun hvar)).elim
    · exact (hn hrecorded).elim
  · exact fun hstray => htouched.least hstray

/-- A variable at a fixed address that is stepped, in a loop that counts in a variable of the block. -/
def steppedBorder : Tree where
  name := "sample"
  loadAddress := none
  modules :=
    [{ name := "main"
       source := "main"
       blocks :=
        [{ name := "main"
           address := none
           options := []
           statements :=
            [.varDecl ⟨"main.border", .ubyte, .memory 53280, none, [], {}⟩,
              .varDecl ⟨"main.x", .ubyte, .plain, none, [], {}⟩,
              .forEach none (some "main.x")
                (.range (.number (.wrapped .ubyte 1)) (.number (.wrapped .ubyte 5))
                  (.number (.wrapped .ubyte 1)))
                ⟨"", [.step (.var "main.border") .up {}], {}⟩ {}]
           position := {} }] }]

theorem steppedBorder_strays : ∃ p, steppedBorder.program {} (.ofTexts []) = .ok p ∧
    p.recorded = ["main.x"] ∧ "main.border" ∈ p.accessed := by
  have hlowered : (steppedBorder.program {} (.ofTexts [])).toOption.map (·.recorded) =
      some ["main.x"] := by decide +kernel
  cases h : steppedBorder.program {} (.ofTexts []) with
  | error e => simp [h, Except.toOption] at hlowered
  | ok p =>
    have hrecorded : p.recorded = ["main.x"] := by simpa [h, Except.toOption] using hlowered
    have hr : ∀ r : Register, "main.border" ≠ r.name := by
      intro r
      cases r <;> decide
    have hn : "main.border" ∉ p.recorded := by simp [hrecorded]
    exact ⟨p, rfl, hrecorded, (steppedBorder.program_accesses_strays h hr hn).2 (by decide +kernel)⟩

end StackCode
