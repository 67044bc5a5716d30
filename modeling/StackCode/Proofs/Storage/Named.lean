/-
Which instructions name the index of a loop. A loop over elements makes up the name of its
index with a number of its own, and four of its instructions name it. No other instruction of the
program does, as the names in the source do not look like names that are made up.
-/
import StackCode.Proofs.Names.Distinct
import StackCode.Proofs.Storage.Access

namespace StackCode

/-! ## Names in instructions -/

/-- The name that an instruction has for a variable, a register or a label. What the assembler gets as it is
has none. -/
def Instruction.name? (i : Instruction) : Option String :=
  match i.opcode with
  | .inlineAssembly | .includeFile | .breakpoint => none
  | _ => i.label

/-- An instruction that is carried out names what its label says. -/
theorem Instruction.name?_eq {i : Instruction} (h : ¬ Part.IsVerbatim i.opcode) : i.name? = i.label := by
  unfold name?
  split
  case h_4 => rfl
  all_goals
    next hop => exact absurd (by simp [Part.IsVerbatim, hop]) h

def Entry.name? : Entry → Option String
  | .instruction i => i.name?
  | .label .. => none

def namesOf (es : List Entry) : List String := es.filterMap (·.name?)

theorem namesOf_append {es es' : List Entry} : namesOf (es ++ es') = namesOf es ++ namesOf es' :=
  List.filterMap_append

theorem namesOf_label {name : String} {isSubroutine : Bool} {es : List Entry} :
    namesOf (.label name isSubroutine :: es) = namesOf es := rfl

theorem mem_namesOf {es : List Entry} {name : String} :
    name ∈ namesOf es ↔ ∃ i, .instruction i ∈ es ∧ i.name? = some name := by
  rw [namesOf, List.mem_filterMap]
  constructor
  · rintro ⟨e, he, hname⟩
    cases e with
    | instruction i => exact ⟨i, he, hname⟩
    | label => cases hname
  · exact fun ⟨i, hi, hname⟩ => ⟨_, hi, hname⟩

theorem namesOf_instructions {code : Code} : namesOf (code.map .instruction) = code.filterMap (·.name?) :=
  List.filterMap_map ..

/-- The name that is made up with this number for the index of a loop. -/
def indexName (scope : String) (n : Nat) : String := labelName scope "forloop_index" n

def IsIndex (name : String) : Prop := ∃ scope n, name = indexName scope n

theorem indexName_inj {scope scope' : String} {n n' : Nat} (h : indexName scope n = indexName scope' n') :
    scope = scope' ∧ n = n' := by
  obtain ⟨hscope, -, hn⟩ := labelName_inj (by decide) (by decide) h
  exact ⟨hscope, hn⟩

theorem not_isIndex_labelName {scope suffix : String} {n : Nat} (hs : IsPurpose suffix)
    (hne : suffix ≠ "forloop_index") : ¬ IsIndex (labelName scope suffix n) := by
  rintro ⟨scope', n', h⟩
  exact hne (labelName_inj hs (by decide) h).2.1

theorem not_isIndex_of_not_isGenerated {name : String} (h : ¬ IsGenerated name) : ¬ IsIndex name :=
  fun ⟨scope, n, hname⟩ => h ⟨scope, _, n, hname⟩

/-! ## Counted names -/

/-- Among names that were written while the count of generated labels went from one number to another:
indices were made up meanwhile, and each is there four times at most. -/
structure Spans (n : Nat) (names : List String) (n' : Nat) : Prop where
  le : n ≤ n'
  count_le : ∀ scope k, names.count (indexName scope k) ≤ 4
  between : ∀ scope k, indexName scope k ∈ names → n < k ∧ k ≤ n'

namespace Spans

variable {n m n' : Nat} {names names' : List String}

/-- The numbers of the first part lie in front of those of the second one. -/
theorem append (h : Spans n names m) (h' : Spans m names' n') : Spans n (names ++ names') n' where
  le := Nat.le_trans h.le h'.le
  count_le scope k := by
    rw [List.count_append]
    by_cases hmem : indexName scope k ∈ names
    · have hnot : indexName scope k ∉ names' := fun hmem' =>
        absurd (h.between scope k hmem).2 (Nat.not_le.2 (h'.between scope k hmem').1)
      rw [List.count_eq_zero.2 hnot]
      exact h.count_le scope k
    · rw [List.count_eq_zero.2 hmem, Nat.zero_add]
      exact h'.count_le scope k
  between scope k hmem := by
    rcases List.mem_append.1 hmem with hmem | hmem
    · exact ⟨(h.between scope k hmem).1, Nat.le_trans (h.between scope k hmem).2 h'.le⟩
    · exact ⟨Nat.lt_of_le_of_lt h.le (h'.between scope k hmem).1, (h'.between scope k hmem).2⟩

theorem still (h : ∀ name ∈ names, ¬ IsIndex name) : Spans n names n where
  le := Nat.le_refl n
  count_le scope k := by
    rw [List.count_eq_zero.2 fun hmem => h _ hmem ⟨scope, k, rfl⟩]
    exact Nat.zero_le 4
  between scope k hmem := absurd ⟨scope, k, rfl⟩ (h _ hmem)

theorem later (h : Spans m names n') (hnm : n ≤ m) : Spans n names n' where
  le := Nat.le_trans hnm h.le
  count_le := h.count_le
  between scope k hmem := ⟨Nat.lt_of_le_of_lt hnm (h.between scope k hmem).1, (h.between scope k hmem).2⟩

/-- The names around a body, four of them the index that was made up in front of it. -/
theorem around {before behind : List String} {scope : String} (h : Spans m names n') (hm : n < m)
    (hnames : ∀ name ∈ before ++ behind, name = indexName scope (n + 1) ∨ ¬ IsIndex name)
    (hcount : (before ++ behind).count (indexName scope (n + 1)) ≤ 4) :
    Spans n (before ++ (names ++ behind)) n' where
  le := Nat.le_trans (Nat.le_of_lt hm) h.le
  count_le scope' k := by
    have hsum : (before ++ (names ++ behind)).count (indexName scope' k) =
        names.count (indexName scope' k) + (before ++ behind).count (indexName scope' k) := by
      simp only [List.count_append]
      omega
    rw [hsum]
    by_cases hmem : indexName scope' k ∈ before ++ behind
    · have hk : indexName scope' k = indexName scope (n + 1) :=
        (hnames _ hmem).resolve_right fun hnot => hnot ⟨scope', k, rfl⟩
      have hbody : indexName scope (n + 1) ∉ names := fun hmem' =>
        absurd (h.between scope _ hmem').1 (Nat.not_lt.2 hm)
      rw [hk, List.count_eq_zero.2 hbody, Nat.zero_add]
      exact hcount
    · rw [List.count_eq_zero.2 hmem, Nat.add_zero]
      exact h.count_le scope' k
  between scope' k hmem := by
    have hcases : indexName scope' k ∈ names ∨ indexName scope' k ∈ before ++ behind := by
      simp only [List.mem_append] at hmem ⊢
      tauto
    rcases hcases with hmem | hmem
    · exact ((h.later (Nat.le_of_lt hm)).between scope' k hmem)
    · have hk : indexName scope' k = indexName scope (n + 1) :=
        (hnames _ hmem).resolve_right fun hnot => hnot ⟨scope', k, rfl⟩
      obtain ⟨-, rfl⟩ := indexName_inj hk
      exact ⟨Nat.lt_succ_self n, Nat.le_trans hm h.le⟩

end Spans
end StackCode
