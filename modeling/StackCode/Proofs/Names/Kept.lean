/-
What becomes of the labels and subroutines that a program declares. All that is written
is defined once, so a name is lost just where its definition stands in a choice on a
status flag that is written as its jumps alone.
-/
import StackCode.Proofs.Names.Distinct

namespace StackCode

/-! ## What stands in a program -/

/-- The names for fixed addresses in a program. -/
def Program.pointers (p : Program) : List MemoryPointer := p.blocks.flatMap (·.pointers)

/-- The labels, or the names for fixed addresses, that stand in a program under the name of this
definition. -/
def Definition.occurrences (p : Program) : Definition → List Definition
  | label name => (p.labels.filter (· = name)).map .label
  | pointer q => (p.pointers.filter (·.name = q.name)).map .pointer

/-- The instruction goes to a place of this name. -/
def Instruction.GoesTo (i : Instruction) (name : String) : Prop :=
  (i.opcode.isJump ∨ i.opcode = .call) ∧ i.label = some name

/-- The name can be jumped to or called. -/
def SymbolTable.IsTarget (symbols : SymbolTable) (name : String) : Prop :=
  symbols.find? name = some .label ∨ ∃ s, symbols.find? name = some (.subroutine s)

def Definition.pointer? : Definition → Option MemoryPointer
  | label _ => none
  | pointer p => some p

/-! ## Distinct names -/

/-- What comes with declarations has their names. -/
theorem filterMap_names_sublist {f : Declaration → Option Definition}
    (hf : ∀ d x, f d = some x → x.name = d.binding.1) (ds : List Declaration) :
    ((ds.filterMap f).map (·.name)).Sublist (ds.map (·.binding.1)) := by
  induction ds with
  | nil => exact .refl _
  | cons d ds ih =>
    cases h : f d with
    | none =>
      rw [List.filterMap_cons_none h]
      exact ih.cons _
    | some x =>
      rw [List.filterMap_cons_some h, List.map_cons, hf d x h]
      exact ih.cons_cons _

theorem pointerNames_sublist (ds : List Definition) :
    ((ds.filterMap (·.pointer?)).map (·.name)).Sublist (ds.map (·.name)) := by
  induction ds with
  | nil => exact .refl _
  | cons d ds ih =>
    cases d with
    | label name => exact ih.cons name
    | pointer p => exact ih.cons_cons p.name

/-- If the names are distinct, each of them stands for one thing. -/
theorem filter_name_eq {α : Type} {f : α → String} {xs : List α} {x : α} (h : (xs.map f).Nodup)
    (hx : x ∈ xs) : xs.filter (f · = f x) = [x] := by
  induction xs with
  | nil => cases hx
  | cons y ys ih =>
    rw [List.map_cons, List.nodup_cons] at h
    rcases List.mem_cons.1 hx with rfl | hx
    · rw [List.filter_cons_of_pos (by simp), List.filter_eq_nil_iff.2]
      intro z hz hname
      exact h.1 (List.mem_map.2 ⟨z, hz, by simpa using hname⟩)
    · rw [List.filter_cons_of_neg, ih h.2 hx]
      intro hname
      exact h.1 (List.mem_map.2 ⟨x, hx, (by simpa using hname : f y = f x).symm⟩)

variable {t : Tree} {c : Configuration} {loader : IncludeLoader} {p : Program}

theorem Tree.ownNames_nodup (hd : (t.declarations.map (·.binding.1)).Nodup) : t.ownNames.Nodup :=
  (filterMap_names_sublist (fun _ _ => Declaration.definition?_name) _).nodup hd

/-- No variable has the name of a label or a subroutine. -/
theorem Tree.definitions_names_nodup (hd : (t.declarations.map (·.binding.1)).Nodup) :
    ((t.declarations.filterMap (·.pointer?) ++ t.promised).map (·.name)).Nodup := by
  rw [List.map_append]
  refine .append ?_ (ownNames_nodup hd) fun name hname hown => ?_
  · refine (filterMap_names_sublist (fun d x h => ?_) _).nodup hd
    obtain ⟨v, q, rfl, rfl, hq⟩ := Declaration.pointer?_eq h
    exact hq
  · obtain ⟨x, hx, rfl⟩ := List.mem_map.1 hname
    obtain ⟨y, hy, hsame⟩ := List.mem_map.1 hown
    obtain ⟨d, hdm, hdx⟩ := List.mem_filterMap.1 hx
    obtain ⟨d', hdm', hdy⟩ := List.mem_filterMap.1 hy
    obtain ⟨v, q, rfl, rfl, hq⟩ := Declaration.pointer?_eq hdx
    have hnames : d'.binding.1 = (Declaration.var v).binding.1 := by
      rw [← Declaration.definition?_name hdy]
      exact hsame.trans hq
    rw [List.inj_on_of_nodup_map hd hdm' hdm hnames] at hdy
    cases hdy

/-! ## What is written is kept -/

/-- All labels and names for fixed addresses in a program. -/
def Program.definitions (p : Program) : List Definition :=
  p.labels.map .label ++ p.pointers.map .pointer

/-- What a program defines: its variables at fixed addresses, what is written, and labels under
made-up names. -/
theorem Tree.program_definitions (h : t.program c loader = .ok p) :
    ∃ own : List String, (∀ name ∈ own, IsGenerated name) ∧
      p.definitions.Perm
        (t.declarations.filterMap (·.pointer?) ++ t.written ++ own.map .label) := by
  rw [program_eq, lower_ok_iff] at h
  obtain ⟨out, hrun, rfl⟩ := h
  obtain ⟨made, -, hnum, -, hdone⟩ := t.steps_leads (t.environment c loader) t.start trivial
  obtain ⟨⟨-, own, hown, hperm⟩, -⟩ := hdone hrun
  refine ⟨own, fun name hname => hnum.isGenerated (hown.subset hname), ?_⟩
  have hlabels : out.sink.program.labels.Perm out.sink.labels := by
    rw [← steps_labels hrun]
    exact (List.reverse_perm _).symm
  have hstart : t.start.sink.definitions = [] := rfl
  calc out.sink.program.definitions
    _ |>.Perm out.sink.definitions := (hlabels.map _).append_right _
    _ |>.Perm (t.definitions ++ own.map .label ++ t.start.sink.definitions) := hperm
    _ |>.Perm (t.declarations.filterMap (·.pointer?) ++ t.written ++ own.map .label) := by
      rw [hstart, List.append_nil]
      exact t.definitions_perm.append_right _

theorem Program.label_mem_definitions {name : String} :
    .label name ∈ p.definitions ↔ name ∈ p.labels := by
  simp [definitions]

theorem Program.pointer_mem_definitions {q : MemoryPointer} :
    .pointer q ∈ p.definitions ↔ q ∈ p.pointers := by
  simp [definitions]

theorem Program.filterMap_pointer? : p.definitions.filterMap (·.pointer?) = p.pointers := by
  simp [definitions, List.filterMap_append, List.filterMap_map,
    Definition.pointer?]

/-- The names for fixed addresses in a program are distinct. -/
theorem Tree.program_pointers_nodup (hd : (t.declarations.map (·.binding.1)).Nodup)
    (h : t.program c loader = .ok p) : (p.pointers.map (·.name)).Nodup := by
  obtain ⟨own, -, hperm⟩ := program_definitions h
  have hpointers := (hperm.filterMap (·.pointer?)).map (·.name)
  rw [Program.filterMap_pointer?, List.filterMap_append] at hpointers
  have hown : (own.map Definition.label).filterMap (·.pointer?) = [] := by
    simp [Definition.pointer?]
  rw [hown, List.append_nil] at hpointers
  refine hpointers.nodup_iff.2 ((pointerNames_sublist _).nodup ?_)
  refine List.Sublist.nodup ?_ (definitions_names_nodup hd)
  exact ((List.Sublist.refl _).append t.written_sublist).map _

theorem Tree.occurrences_of_written (hd : (t.declarations.map (·.binding.1)).Nodup)
    (h : t.program c loader = .ok p) {d : Definition} (hw : d ∈ t.written) :
    d.occurrences p = [d] := by
  obtain ⟨own, -, hperm⟩ := program_definitions h
  have hmem : d ∈ p.definitions := by
    refine hperm.mem_iff.2 (List.mem_append_left _ (List.mem_append_right _ hw))
  cases d with
  | label name =>
    have hname := Program.label_mem_definitions.1 hmem
    have honce := List.count_eq_one_of_mem (lower_labels_nodup h) hname
    rw [Definition.occurrences, List.filter_eq, honce]
    rfl
  | pointer q =>
    have hq := Program.pointer_mem_definitions.1 hmem
    rw [Definition.occurrences, filter_name_eq (program_pointers_nodup hd h) hq]
    rfl

theorem Tree.occurrences_of_not_written (hd : (t.declarations.map (·.binding.1)).Nodup)
    (h : t.program c loader = .ok p) {d : Definition} (hp : d ∈ t.promised) (hw : d ∉ t.written)
    (hg : ¬ IsGenerated d.name) : d.occurrences p = [] := by
  obtain ⟨own, hown, hperm⟩ := program_definitions h
  obtain ⟨-, hpromised, hdisjoint⟩ := List.nodup_append'.1
    (List.map_append ▸ definitions_names_nodup hd)
  have hnone : ∀ x ∈ p.definitions, x.name ≠ d.name := by
    intro x hx hname
    rcases List.mem_append.1 (hperm.mem_iff.1 hx) with hx | hx
    · rcases List.mem_append.1 hx with hx | hx
      · exact hdisjoint (List.mem_map_of_mem hx) (hname ▸ List.mem_map_of_mem hp)
      · obtain rfl := List.inj_on_of_nodup_map hpromised (t.written_sublist.subset hx) hp hname
        exact hw hx
    · obtain ⟨l, hl, rfl⟩ := List.mem_map.1 hx
      exact hg (hname ▸ hown l hl)
  cases d with
  | label name =>
    rw [Definition.occurrences, List.filter_eq_nil_iff.2 fun l hl hname => ?_, List.map_nil]
    exact hnone _ (Program.label_mem_definitions.2 hl) (of_decide_eq_true hname)
  | pointer q =>
    rw [Definition.occurrences, List.filter_eq_nil_iff.2 fun r hr hname => ?_, List.map_nil]
    exact hnone _ (Program.pointer_mem_definitions.2 hr) (of_decide_eq_true hname)

/-- What can be jumped to or called has been declared. -/
theorem Tree.exists_promised {name : String} (h : (SymbolTable.ofTree t).IsTarget name) :
    ∃ d ∈ t.promised, d.name = name := by
  obtain ⟨s, hs, hfound⟩ : ∃ s, (SymbolTable.ofTree t).find? name = some s ∧
      ∀ d : Declaration, d.binding = (name, s) → d.definition?.isSome := by
    rcases h with h | ⟨s, h⟩
    all_goals
      refine ⟨_, h, fun d hd => ?_⟩
      cases d <;> cases hd
      rfl
  obtain ⟨d, hd, hbinding⟩ := SymbolTable.exists_of_find? hs
  obtain ⟨x, hx⟩ := Option.isSome_iff_exists.1 (hfound d hbinding)
  refine ⟨x, List.mem_filterMap.2 ⟨d, hd, hx⟩, ?_⟩
  rw [Declaration.definition?_name hx, hbinding]

/-- **What is declared is defined once if it is written**, and not at all if it is not. A jump or a call
by a name that the symbol table takes goes to what is defined once, or is not written. -/
theorem Tree.program_keeps_written (hd : (t.declarations.map (·.binding.1)).Nodup)
    (h : t.program c loader = .ok p) :
    (∀ d ∈ t.written, d.occurrences p = [d]) ∧
      (∀ d ∈ t.promised, d ∉ t.written → ¬ IsGenerated d.name → d.occurrences p = []) ∧
      ∀ i ∈ p.instructions, ∀ name, i.GoesTo name → (SymbolTable.ofTree t).IsTarget name →
        ∃ d ∈ t.promised, d.name = name ∧ (d.occurrences p = [d] ∨ d ∉ t.written) := by
  refine ⟨fun d => occurrences_of_written hd h, fun d => occurrences_of_not_written hd h,
    fun i _ name _ htarget => ?_⟩
  obtain ⟨d, hmem, hname⟩ := exists_promised htarget
  refine ⟨d, hmem, hname, ?_⟩
  by_cases hw : d ∈ t.written
  · exact .inl (occurrences_of_written hd h hw)
  · exact .inr hw

/-- A choice on the carry flag whose first part has a label behind its jump. -/
def lostLabel : Tree where
  name := "sample"
  loadAddress := none
  modules :=
    [{ name := "main"
       source := "main"
       blocks :=
        [{ name := "main"
           address := none
           options := []
           statements :=
            [.branch .cs
                ⟨"", [.jump (.named "main.a") {}, .label "main.lost" {}], {}⟩
                ⟨"", [.jump (.named "main.b") {}], {}⟩ {},
              .label "main.a" {}, .jump (.named "main.lost") {}, .label "main.b" {}]
           position := {} }] }]

theorem lostLabel_is_lost : (lostLabel.declarations.map (·.binding.1)).Nodup ∧
    ∃ p, lostLabel.program {} (.ofTexts []) = .ok p ∧
      Definition.occurrences p (.label "main.a") = [.label "main.a"] ∧
      Definition.occurrences p (.label "main.lost") = [] := by
  have hd : (lostLabel.declarations.map (·.binding.1)).Nodup := by decide
  have hlowered : (lostLabel.program {} (.ofTexts [])).toOption.isSome := by decide +kernel
  cases h : lostLabel.program {} (.ofTexts []) with
  | error e => simp [h, Except.toOption] at hlowered
  | ok p =>
    obtain ⟨hkept, hlost, -⟩ := Tree.program_keeps_written hd h
    refine ⟨hd, p, rfl, hkept _ (by decide), hlost _ (by decide) (by decide) ?_⟩
    exact not_isGenerated (by decide)

end StackCode
