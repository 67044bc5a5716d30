/-
The names that instructions access, and those that have a home: a register, the variable
of a parameter, and a variable that lives in a block. Code looks at where a variable
lives before it reads or writes it, so what it accesses has a home. Only what steps a
variable, and what counts in one, does not look.
-/
import StackCode.Proofs.Lowering.Emits

namespace StackCode

/-- The names that code accesses. -/
def accessesOf (code : Code) : List String := code.filterMap (·.accessed?)

theorem mem_accessesOf {code : Code} {name : String} :
    name ∈ accessesOf code ↔ ∃ i ∈ code, i.accessed? = some name :=
  List.mem_filterMap

/-! ## Homes -/

/-- What has this name can be accessed by it. -/
inductive SymbolTable.IsHome (symbols : SymbolTable) : String → Prop where
  | register (r : Register) : symbols.IsHome r.name
  | var {name : String} {info : VariableInfo} (found : symbols.var? name = some info)
    (plain : info.storage = .plain) (type : info.type ≠ .struct) : symbols.IsHome name
  | parameter {target : String} {s : Signature} {p : Parameter}
    (found : symbols.find? target = some (.subroutine s)) (machine : s.machine = none)
    (mem : p ∈ s.parameters) : symbols.IsHome (s.slot p)

/-- The variable of this name, if it lives elsewhere: at a fixed address, or nowhere. -/
def SymbolTable.remote (symbols : SymbolTable) (name : String) : List String :=
  match symbols.var? name with
  | some info => if info.storage = .plain then [] else [name]
  | none => []

/-- The variable that a step of this place accesses though it lives elsewhere. -/
def Place.strays (symbols : SymbolTable) : Place → List String
  | .var name => symbols.remote name
  | .register _ | .element .. | .memory _ => []

variable {symbols : SymbolTable} {name : String}

theorem SymbolTable.remote_subset : symbols.remote name ⊆ [name] := by
  unfold remote
  split
  · split
    · exact List.nil_subset _
    · exact List.Subset.refl _
  · exact List.nil_subset _

theorem SymbolTable.isHome_or_remote {info : VariableInfo} (h : symbols.var? name = some info)
    (ht : info.type ≠ .struct) : symbols.IsHome name ∨ name ∈ symbols.remote name := by
  by_cases hplain : info.storage = .plain
  · exact .inl (.var h hplain ht)
  · right
    rw [remote, h]
    simp [hplain]

/-! ## Code -/

/-- If the instruction accesses anything, then that has a home. -/
def SymbolTable.Houses (symbols : SymbolTable) (i : Instruction) : Prop :=
  ∀ name, i.accessed? = some name → symbols.IsHome name

theorem SymbolTable.houses_named {op : Opcode} (h : symbols.IsHome name) :
    symbols.Houses (op.named name) := by
  intro name' haccess
  rw [Opcode.accessed?_named] at haccess
  split at haccess <;> cases haccess
  exact h

/-- **Code of expressions and of single statements only accesses what has a home**, steps of variables
apart. -/
theorem SymbolTable.admits_houses (symbols : SymbolTable) : symbols.Admits symbols.Houses where
  other _ h _ name haccess := by
    rw [h] at haccess
    cases haccess
  register r _ := houses_named (.register r)
  var _ found plain type := houses_named (.var found plain type)
  parameter _ found machine mem := houses_named (.parameter found machine mem)

theorem Code.All.accesses {code : Code} (h : code.All symbols.Houses) :
    ∀ name ∈ accessesOf code, symbols.IsHome name := by
  intro name hname
  obtain ⟨i, hi, haccess⟩ := mem_accessesOf.1 hname
  exact h i hi name haccess

/-- A step accesses the variable that it steps. -/
theorem Place.step_accesses {op : Increment} {p : Place} {code : Code}
    (h : p.step symbols op (p.inner symbols) = .ok code) :
    p.strays symbols ⊆ accessesOf code ∧
      ∀ name ∈ accessesOf code, name ∈ p.strays symbols ∨ symbols.IsHome name := by
  have hP := symbols.admits_houses
  cases p with
  | var name =>
    obtain ⟨info, t, hinfo, htype, rfl⟩ := Place.step_var_ok h
    have haccess : accessesOf [(Opcode.stepVar op t).named name] = [name] := by
      simp [accessesOf, Opcode.isAccess_stepVar]
    rw [haccess]
    refine ⟨SymbolTable.remote_subset, fun name' hname => ?_⟩
    rw [List.mem_singleton.1 hname]
    exact (SymbolTable.isHome_or_remote hinfo (by simp [htype])).symm
  | register | element | memory =>
    have hall := Place.step_all hP (fun _ _ _ hvar => by cases hvar) code h
    exact ⟨List.nil_subset _, fun name hname => .inr (hall.accesses name hname)⟩

/-! ## Counters -/

/-- The counter of a loop over a range, if it lives elsewhere. -/
def rangeStrays (symbols : SymbolTable) : Option Register → Option String → Expr → List String
  | none, some name, .range .. => symbols.remote name
  | _, _, _ => []

theorem Counter.strays_of_find {register : Option Register} {variableName : Option String}
    {counter : Counter} {t : DataType} {first last step : Expr}
    (h : Counter.find symbols register variableName = .ok (counter, t)) :
    rangeStrays symbols register variableName (.range first last step) =
      counter.place.strays symbols := by
  obtain ⟨r, rfl, rfl, -⟩ | ⟨name, info, rfl, rfl, rfl, -⟩ := Counter.find_cases h <;> rfl

theorem Counter.strays_subset {counter : Counter} : counter.place.strays symbols ⊆ [counter.name] := by
  cases counter with
  | register r => exact List.nil_subset _
  | var name => exact SymbolTable.remote_subset

theorem Counter.isHome_or_strays {register : Option Register} {variableName : Option String}
    {counter : Counter} {t : DataType} (h : Counter.find symbols register variableName = .ok (counter, t))
    (ht : t ≠ .struct) : symbols.IsHome counter.name ∨ counter.name ∈ counter.place.strays symbols := by
  obtain ⟨r, -, rfl, -⟩ | ⟨name, info, -, -, rfl, hinfo, rfl⟩ := Counter.find_cases h
  · exact .inl (.register r)
  · exact SymbolTable.isHome_or_remote hinfo ht

namespace ConstantRange

variable {r : ConstantRange} {t : IntType} {counter start : String}

theorem initCode_accesses : accessesOf (r.initCode t counter) = [counter] := rfl

theorem stepCode_accesses {code : Code} (h : r.stepCode t counter = .ok code) :
    accessesOf code ⊆ [counter] := by
  unfold stepCode at h
  split at h
  · cases h
    intro name hname
    obtain ⟨i, hi, haccess⟩ := mem_accessesOf.1 hname
    rw [List.eq_of_mem_replicate hi, Opcode.accessed?_named, Opcode.isAccess_stepVar] at haccess
    cases haccess
    exact List.mem_singleton_self _
  · split at h <;> cases h
    split <;> simp [accessesOf, Opcode.isAccess, Value.push]

theorem testCode_accesses : accessesOf (r.testCode t counter start) ⊆ [counter] := by
  unfold testCode
  split <;> simp [accessesOf, Opcode.isAccess]

end ConstantRange

namespace ElementRange

variable {r : ElementRange} {index start : String}

theorem initCode_accesses : accessesOf (r.initCode index) ⊆ [index] :=
  List.Subset.refl [index]

theorem fetchCode_accesses {counter : Counter} {t : DataType} {code : Code}
    (h : r.fetchCode symbols index counter t = .ok code) :
    ∀ name ∈ accessesOf code, name = index ∨ symbols.IsHome name := by
  obtain ⟨e, rest, rfl, hrest⟩ := fetchCode_makes True h
  intro name hname
  rw [accessesOf, List.filterMap_cons, List.filterMap_cons] at hname
  rcases List.mem_cons.1 hname with rfl | hname
  · exact .inl rfl
  · exact .inr ((hrest.mono fun _ => symbols.admits_houses.of_makes).accesses name hname)

theorem stepCode_accesses : accessesOf (r.stepCode index start) ⊆ [index] := by
  simp [stepCode, accessesOf, Opcode.isAccess, Opcode.stepVar]

end ElementRange

end StackCode
