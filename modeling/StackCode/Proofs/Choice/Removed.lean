/-
A jump to the label that stands right behind it. Whether it is there makes no difference: with
it and without it the machine takes the same steps, and the jump itself takes the step over the label.
This does not depend on what stands in front of the jump.
-/
import StackCode.Proofs.Choice.Dispatch

namespace StackCode

/-! ## Steps -/

section Machine

variable {W : Type} (others : Instruction → Store W → Option (Store W)) (text : List Entry)

/-- So many steps, if the machine gets that far. -/
def steps? : Nat → List Entry × Store W → Option (List Entry × Store W)
  | 0, c => some c
  | n + 1, c => (advance? others text c).bind (steps? n)

variable {others} {text} {full : List Entry} {f : List Entry → List Entry} {e : Entry} {p : List Entry}
  {name : String} {s : Store W}

/-- Two texts in which each label is found at corresponding places: steps lead to corresponding places. -/
theorem advance?_map (hf : ∀ name, entriesBehind? name full = (entriesBehind? name text).map f) :
    advance? others full (e :: f p, s) = (advance? others text (e :: p, s)).map (Prod.map f id) := by
  have hgoal (i : Instruction) : goal? full i = (goal? text i).map f := by
    unfold goal?
    cases i.label with
    | none => rfl
    | some name => exact hf name
  have hfollow (i : Instruction) (taken : Bool) (s : Store W) :
      follow? full i (f p) taken s = (follow? text i p taken s).map (Prod.map f id) := by
    unfold follow?
    rw [hgoal]
    cases taken with
    | true => cases goal? text i <;> rfl
    | false => rfl
  have hpop (z : IntSize) {g g' : BitVec z.bits → Store W → Option (List Entry × Store W)}
      (hg : ∀ b s, g b s = (g' b s).map (Prod.map f id)) : s.pop z g = (s.pop z g').map (Prod.map f id) := by
    unfold Store.pop
    cases s.stack with
    | nil => rfl
    | cons c stack =>
      dsimp only
      cases c.bits? z with
      | none => rfl
      | some b => exact hg ..
  cases e with
  | label l sub => rfl
  | instruction i =>
    simp only [advance?]
    split
    · exact hfollow ..
    · exact hfollow ..
    · exact hpop _ fun b s => hfollow ..
    · exact hpop _ fun b s => hfollow ..
    · cases s.act? others i <;> rfl

end Machine

/-! ## The jump -/

/-- The place in the text with a jump in front of its tail, for a place in the text without it. -/
def withJump (leave : String) (tail p : List Entry) : List Entry :=
  if tail.length ≤ p.length then
    p.take (p.length - tail.length) ++ .instruction (Opcode.jump.named leave) ::
      p.drop (p.length - tail.length)
  else p

section WithJump

variable {leave : String} {tail p before : List Entry} {e : Entry} {name : String}

variable (before) in
theorem withJump_append : withJump leave tail (before ++ tail) =
    before ++ .instruction (Opcode.jump.named leave) :: tail := by
  have hlen : (before ++ tail).length - tail.length = before.length := by rw [List.length_append]; omega
  rw [withJump, if_pos (by rw [List.length_append]; omega), hlen, List.take_left, List.drop_left]

theorem withJump_of_lt (h : p.length < tail.length) : withJump leave tail p = p :=
  if_neg (Nat.not_le.2 h)

/-- Anywhere but right in front of the jump. -/
theorem withJump_cons (h : (e :: p).length ≠ tail.length) :
    withJump leave tail (e :: p) = e :: withJump leave tail p := by
  have hcons : (e :: p).length = p.length + 1 := rfl
  rcases Nat.lt_or_gt_of_ne h with hlt | hgt
  · rw [withJump_of_lt hlt, withJump_of_lt (by omega)]
  · have hlen : (e :: p).length - tail.length = (p.length - tail.length) + 1 := by omega
    rw [withJump, withJump, hlen, if_pos (Nat.le_of_lt hgt), if_pos (by omega), List.take_succ_cons,
      List.drop_succ_cons, List.cons_append]

/-- Each label is found where it was. -/
theorem entriesBehind?_withJump :
    entriesBehind? name (before ++ .instruction (Opcode.jump.named leave) :: tail) =
      (entriesBehind? name (before ++ tail)).map (withJump leave tail) := by
  induction before with
  | nil =>
    rw [List.nil_append, List.nil_append, entriesBehind?]
    cases h : entriesBehind? name tail with
    | none => rfl
    | some p => rw [Option.map_some, withJump_of_lt (entriesBehind?_suffix h).2]
  | cons entry before ih =>
    cases entry with
    | instruction i => exact ih
    | label l sub =>
      simp only [List.cons_append, entriesBehind?]
      split
      · rw [Option.map_some, withJump_append before]
      · exact ih

variable {W : Type} {others : Instruction → Store W → Option (Store W)} {s : Store W} {rest : List Entry}

/-- **With the jump the machine takes the same step.** In front of the tail this is the jump instead of the
step over the label. -/
theorem advance?_withJump (hlabels : (labelsOf (before ++ .label leave false :: rest)).Nodup)
    (hp : p <:+ before ++ .label leave false :: rest) :
    advance? others (before ++ .instruction (Opcode.jump.named leave) :: .label leave false :: rest)
        (withJump leave (.label leave false :: rest) p, s) =
      (advance? others (before ++ .label leave false :: rest) (p, s)).map
        (Prod.map (withJump leave (.label leave false :: rest)) id) := by
  cases p with
  | nil =>
    rw [withJump_of_lt (by simp)]
    rfl
  | cons e p =>
    by_cases hlen : (e :: p).length = (Entry.label leave false :: rest).length
    · obtain ⟨rfl, rfl⟩ : e = .label leave false ∧ p = rest := by
        have hsuffix := List.suffix_of_suffix_length_le hp (List.suffix_append before _) (Nat.le_of_eq hlen)
        exact List.cons.inj (hsuffix.eq_of_length hlen)
      have hshort : withJump leave (.label leave false :: p) p = p := withJump_of_lt (Nat.lt_succ_self _)
      have hgoal : entriesBehind? leave (before ++ .instruction (Opcode.jump.named leave) ::
          .label leave false :: p) = some p := by
        rw [entriesBehind?_withJump, entriesBehind?_eq hlabels, Option.map_some, hshort]
      have hjump : withJump leave (.label leave false :: p) (.label leave false :: p) =
          .instruction (Opcode.jump.named leave) :: .label leave false :: p := withJump_append []
      have htaken : advance? others (before ++ .instruction (Opcode.jump.named leave) :: .label leave false :: p)
          (.instruction (Opcode.jump.named leave) :: .label leave false :: p, s) = some (p, s) :=
        congrArg (Option.map (·, s)) hgoal
      have hpassed : advance? others (before ++ .label leave false :: p) (.label leave false :: p, s) =
          some (p, s) := rfl
      rw [hjump, htaken, hpassed, Option.map_some, Prod.map, hshort]
      rfl
    · rw [withJump_cons hlen]
      exact advance?_map fun name => entriesBehind?_withJump

/-- With the jump the machine takes the same steps. -/
theorem steps?_withJump (hlabels : (labelsOf (before ++ .label leave false :: rest)).Nodup) (n : Nat)
    (hp : p <:+ before ++ .label leave false :: rest) :
    steps? others (before ++ .instruction (Opcode.jump.named leave) :: .label leave false :: rest) n
        (withJump leave (.label leave false :: rest) p, s) =
      (steps? others (before ++ .label leave false :: rest) n (p, s)).map
        (Prod.map (withJump leave (.label leave false :: rest)) id) := by
  induction n generalizing p s with
  | zero => rfl
  | succ n ih =>
    rw [steps?, steps?, advance?_withJump hlabels hp]
    cases h : advance? others (before ++ .label leave false :: rest) (p, s) with
    | none => rfl
    | some c => exact ih (advance?_suffix h hp)

end WithJump
end StackCode
