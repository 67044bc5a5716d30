/-
The machine with calls. A call of a subroutine of the text goes on there, and comes back where the subroutine
returns. All other steps are those of the machine without calls.
-/
import StackCode.Proofs.Counting.Arrival
import StackCode.Proofs.Counting.Memory

namespace StackCode

/-- Where the machine is: the text in front, and the texts to which the subroutines that are running return. -/
structure Point (W : Type) where
  text : List Entry
  returns : List (List Entry)
  store : Store W

section Program

variable {W : Type} (others : Instruction → Store W → Option (Store W)) (program : List Entry)

/-- One step without a call. -/
def Point.stay? (c : Point W) : Option (Point W) :=
  (advance? others program (c.text, c.store)).map fun d => ⟨d.1, c.returns, d.2⟩

/-- One step. A call of what is not in the program is left to `others`. -/
def Point.next? (c : Point W) : Option (Point W) :=
  match c.text with
  | .instruction i :: rest =>
    match i.opcode, goal? program i, c.returns with
    | .call, some goal, returns => some ⟨goal, rest :: returns, c.store⟩
    | .ret, _, place :: returns => some ⟨place, returns, c.store⟩
    | .ret, _, [] => none
    | _, _, _ => c.stay? others program
  | _ => c.stay? others program

/-- The machine is in the program, and comes back to it. -/
structure Point.IsIn (c : Point W) : Prop where
  text : c.text <:+ program
  returns : ∀ p ∈ c.returns, p <:+ program

variable {others} {program} {c d : Point W} {name : String}

namespace Point

/-- What one step can do: a call or a return leaves the store alone, and all other steps are those of the
machine without calls. -/
theorem next?_cases (h : c.next? others program = some d) :
    (∃ i rest, c.text = .instruction i :: rest ∧ d.text <:+ program ∧ d.returns = rest :: c.returns ∧
      d.store = c.store) ∨
    (c.returns = d.text :: d.returns ∧ d.store = c.store) ∨
    (advance? others program (c.text, c.store) = some (d.text, d.store) ∧ d.returns = c.returns) := by
  have hstay (h : c.stay? others program = some d) :
      advance? others program (c.text, c.store) = some (d.text, d.store) ∧ d.returns = c.returns := by
    obtain ⟨e, he, rfl⟩ := Option.map_eq_some_iff.1 h
    exact ⟨he, rfl⟩
  unfold next? at h
  split at h
  next i rest htext =>
    split at h
    next hgoal =>
      cases h
      exact .inl ⟨i, rest, htext, goal?_suffix hgoal, rfl, rfl⟩
    next hreturns =>
      cases h
      exact .inr (.inl ⟨hreturns, rfl⟩)
    next => cases h
    next => exact .inr (.inr (hstay h))
  next => exact .inr (.inr (hstay h))

/-- **The machine stays in the program**, and so do the places that it comes back to. -/
theorem next?_isIn (h : c.next? others program = some d) (hc : c.IsIn program) : d.IsIn program := by
  rcases next?_cases h with ⟨i, rest, htext, hd, hreturns, -⟩ | ⟨hreturns, -⟩ | ⟨hstep, hreturns⟩
  · have hrest : rest <:+ program := (htext ▸ List.suffix_cons _ rest).trans hc.text
    refine ⟨hd, ?_⟩
    rw [hreturns]
    exact List.forall_mem_cons.2 ⟨hrest, hc.returns⟩
  · have hall := hc.returns
    rw [hreturns, List.forall_mem_cons] at hall
    exact ⟨hall.1, hall.2⟩
  · exact ⟨advance?_suffix hstep hc.text, hreturns ▸ hc.returns⟩

/-- **What the instruction in front does not name, a step leaves alone.** -/
theorem next?_alone (hothers : LeavesAlone others name) (h : c.next? others program = some d)
    (hfront : ∀ i rest, c.text = .instruction i :: rest → i.name? ≠ some name) :
    d.store.slots name = c.store.slots name := by
  rcases next?_cases h with ⟨-, -, -, -, -, hstore⟩ | ⟨-, hstore⟩ | ⟨hstep, -⟩
  · rw [hstore]
  · rw [hstore]
  · obtain ⟨entry, rest, hp, -, hslots | ⟨i, rfl, hact⟩⟩ := advance?_cases hstep
    · exact congrFun hslots name
    · exact Store.leavesAlone hothers i _ _ (hfront i rest hp) hact

variable (others program) in
/-- An instruction with an effect of its own is neither a jump nor a call. -/
theorem next?_effect {i : Instruction} (rest : List Entry) (returns : List (List Entry)) (s : Store W)
    (hi : i.opcode.effect?.isSome) :
    next? others program ⟨.instruction i :: rest, returns, s⟩ =
      (s.act? others i).map (⟨rest, returns, ·⟩) := by
  have hstay : stay? others program ⟨.instruction i :: rest, returns, s⟩ =
      (s.act? others i).map (⟨rest, returns, ·⟩) := by
    rw [stay?, advance?_straight (.inl hi), Option.map_map]
    rfl
  have hcall : i.opcode ≠ .call := fun hop => by simp [hop, Opcode.effect?] at hi
  have hret : i.opcode ≠ .ret := fun hop => by simp [hop, Opcode.effect?] at hi
  unfold next?
  dsimp only
  split
  case h_1 hop _ => exact absurd hop hcall
  case h_2 hop => exact absurd hop hret
  case h_3 hop => exact absurd hop hret
  case h_4 => exact hstay

theorem next?_label {l : String} {isSubroutine : Bool} {rest : List Entry} {returns : List (List Entry)}
    {s : Store W} : next? others program ⟨.label l isSubroutine :: rest, returns, s⟩ = some ⟨rest, returns, s⟩ :=
  rfl

variable (others) in
theorem next?_branch (test : FlagTest) {l : String} {goal : List Entry} (rest : List Entry)
    (returns : List (List Entry)) (s : Store W) (hgoal : entriesBehind? l program = some goal) :
    next? others program ⟨.instruction ((Opcode.branch test).named l) :: rest, returns, s⟩ =
      some ⟨if test.holds s.flags then goal else rest, returns, s⟩ := by
  simp only [next?, stay?, advance?, follow?, goal?, Opcode.named, Option.bind_some, hgoal, Option.map_some]
  split <;> rfl

end Point

namespace Comes

variable {marked : Point W → Prop} {arrivals : List (Point W)}

theorem isIn (h : Comes (Point.next? others program) marked c arrivals d) (hc : c.IsIn program) :
    d.IsIn program := by
  induction h with
  | refl => exact hc
  | step hstep _ ih => exact ih (Point.next?_isIn hstep hc)

/-- Code without jumps and calls. -/
theorem effects {code : Code} {rest : List Entry} {returns : List (List Entry)} {s s' : Store W}
    (hcode : ∀ i ∈ code, i.opcode.effect?.isSome) (hrun : s.run others code = some s') (hne : code ≠ [])
    (hclear : ∀ p, marked p → p.text.length ≤ rest.length ∨ rest.length + code.length ≤ p.text.length) :
    Comes (Point.next? others program) marked ⟨code.map .instruction ++ rest, returns, s⟩
      (noted marked ⟨rest, returns, s'⟩) ⟨rest, returns, s'⟩ :=
  .code (fun p s => (⟨p, returns, s⟩ : Point W))
    (fun i hi rest s => Point.next?_effect others program rest returns s (hcode i hi)) hrun hne
    fun p s hp => hclear ⟨p, returns, s⟩ hp

end Comes
end Program
end StackCode
