/-
Shapes of statements that the lowering looks for: a scope that is idle, a scope that is
a jump or starts with one, and the body of a subroutine that is all assembly. These
lemmas read back what a scope or a body of that shape is made of.
-/
import StackCode.Lowering.Tree
import StackCode.Tree.Traversal

namespace StackCode

theorem Statement.eq_nop_of_all {ss : List Statement} (h : ss.all (·.isNop)) {s : Statement}
    (hs : s ∈ ss) : s = .nop := by
  have hnop := List.all_eq_true.1 h s hs
  cases s <;> first | rfl | cases hnop

/-- What stands in a subroutine that is all assembly. -/
theorem soleAssembly?_ok {body : List Statement} {sole : String × Position}
    (h : soleAssembly? body = some sole) {s : Statement} (hs : s ∈ body) :
    (∃ d, s = .varDecl d) ∨ s = .nop ∨ ∃ text position, s = .assembly text position := by
  simp only [soleAssembly?] at h
  split at h
  next text position hcode =>
    cases s with
    | varDecl d => exact .inl ⟨d, rfl⟩
    | nop => exact .inr (.inl rfl)
    | assembly text position => exact .inr (.inr ⟨text, position, rfl⟩)
    | _ =>
      have hmem := hcode ▸ List.mem_filter.2 ⟨hs, rfl⟩
      simp at hmem
  next => cases h

/-! ## Jumps of scopes -/

theorem Scope.onlyJump?_ok {s : Scope} {target : JumpTarget} {position : Position}
    (h : s.onlyJump? = some (target, position)) : s.statements = [.jump target position] := by
  unfold onlyJump? at h
  split at h <;> cases h
  assumption

theorem Scope.leadingJump?_ok {s : Scope} {target : JumpTarget} {position : Position}
    (h : s.leadingJump? = some (target, position)) :
    ∃ rest, s.statements = .jump target position :: rest := by
  unfold leadingJump? at h
  split at h <;> cases h
  exact ⟨_, by assumption⟩

theorem Scope.leadingJump?_ne_address {s : Scope} {target : JumpTarget} {position : Position}
    (h : s.leadingJump? = some (target, position)) (address : UInt16) : target ≠ .address address := by
  unfold leadingJump? at h
  split at h <;> cases h
  next hnot _ => exact fun htarget => hnot address (htarget ▸ rfl)

/-- The statement that a scope starts with is inside it. -/
theorem Scope.mem_inner_of_cons {s : Scope} {x : Statement} {rest : List Statement}
    (h : s.statements = x :: rest) : x ∈ s.inner := by
  obtain ⟨name, statements, position⟩ := s
  cases h
  exact List.mem_append_left _ (by cases x <;> simp [Statement.withInner])

/-- The jumps that are all of a choice stand at the start of its parts. -/
theorem branchJumps?_ok {thenScope elseScope : Scope} {first : JumpTarget × Position}
    {other : Option (JumpTarget × Position)}
    (h : branchJumps? thenScope elseScope = some (first, other)) :
    thenScope.leadingJump? = some first ∧
      (elseScope.isIdle ∧ other = none ∨
        ∃ jump, elseScope.leadingJump? = some jump ∧ other = some jump) := by
  simp only [branchJumps?, Option.bind_eq_bind, Option.bind_eq_some_iff] at h
  obtain ⟨jump, hfirst, h⟩ := h
  split at h
  next hidle =>
    cases h
    exact ⟨hfirst, .inl ⟨hidle, rfl⟩⟩
  next =>
    obtain ⟨jump', hother, h⟩ := Option.bind_eq_some_iff.1 h
    cases h
    exact ⟨hfirst, .inr ⟨jump', hother, rfl⟩⟩

end StackCode
