/-
Runs that are watched at several places of the text. The machine takes down in which states it comes to the
places that are marked. This is said of any machine first, and then of the one that carries out loops.
-/
import StackCode.Proofs.Counting.Machine

namespace StackCode

section Arrivals

variable {C : Type} (next : C → Option C) (marked : C → Prop)

open Classical in
/-- The state, if it is marked. -/
noncomputable def noted (c : C) : List C := if marked c then [c] else []

/-- From one state the machine comes to another, and these are the marked states in which it has been on the
way. The state that it starts in is not one of them, the one that it ends in may be. -/
inductive Comes : C → List C → C → Prop where
  | refl (c : C) : Comes c [] c
  | step {c d e : C} {arrivals : List C} (step : next c = some d) (rest : Comes d arrivals e) :
      Comes c (noted marked d ++ arrivals) e

variable {next} {marked} {c d e : C} {arrivals arrivals' : List C}

theorem noted_of_marked (h : marked c) : noted marked c = [c] := if_pos h

theorem noted_of_not_marked (h : ¬ marked c) : noted marked c = [] := if_neg h

namespace Comes

theorem trans (h : Comes next marked c arrivals d) (h' : Comes next marked d arrivals' e) :
    Comes next marked c (arrivals ++ arrivals') e := by
  induction h with
  | refl => exact h'
  | step step _ ih =>
    rw [List.append_assoc]
    exact .step step (ih h')

/-- Behind a run that comes to no marked state. -/
theorem after (h : Comes next marked c [] d) (h' : Comes next marked d arrivals e) :
    Comes next marked c arrivals e :=
  h.trans h'

theorem one (step : next c = some d) : Comes next marked c (noted marked d) d := by
  simpa using Comes.step step (.refl d)

/-- A step to a state that is not marked. -/
theorem pass (step : next c = some d) (hd : ¬ marked d) : Comes next marked c [] d :=
  noted_of_not_marked hd ▸ one step

/-- A run without a marked state has none where fewer are marked. -/
theorem of_fewer {fewer : C → Prop} (hfewer : ∀ c, fewer c → marked c)
    (h : Comes next marked c arrivals d) (hnone : arrivals = []) : Comes next fewer c [] d := by
  induction h with
  | refl => exact .refl _
  | @step c d e arrivals step _ ih =>
    obtain ⟨hd, hrest⟩ := List.append_eq_nil_iff.1 hnone
    have hunmarked : ¬ marked d := fun hm => by simp [noted_of_marked hm] at hd
    exact .after (.pass step (mt (hfewer d) hunmarked)) (ih hrest)

/-- Code without a marked place inside, for a machine that takes one step for each instruction of it. The
place behind it may be marked. -/
theorem code {W : Type} {others : Instruction → Store W → Option (Store W)} (put : List Entry → Store W → C)
    {code : Code} {rest : List Entry} {s s' : Store W}
    (hstep : ∀ i ∈ code, ∀ rest s, next (put (.instruction i :: rest) s) = (s.act? others i).map (put rest))
    (hrun : s.run others code = some s') (hne : code ≠ [])
    (hclear : ∀ p s, marked (put p s) → p.length ≤ rest.length ∨ rest.length + code.length ≤ p.length) :
    Comes next marked (put (code.map .instruction ++ rest) s) (noted marked (put rest s')) (put rest s') := by
  induction code generalizing s with
  | nil => exact absurd rfl hne
  | cons i code ih =>
    rw [Store.run_cons, Option.bind_eq_some_iff] at hrun
    obtain ⟨t, ht, hrun⟩ := hrun
    have hfirst : next (put (.instruction i :: (code.map .instruction ++ rest)) s) =
        some (put (code.map .instruction ++ rest) t) := by
      rw [hstep i List.mem_cons_self, ht]
      rfl
    cases code with
    | nil =>
      cases hrun
      exact .one hfirst
    | cons j code =>
      rw [List.length_cons] at hclear
      have hinside : ¬ marked (put ((j :: code).map .instruction ++ rest) t) := fun hm => by
        have hlen := hclear _ _ hm
        simp only [List.length_append, List.length_map, List.length_cons] at hlen
        omega
      refine .after (.pass hfirst hinside) (ih (fun k hk => hstep k (List.mem_cons_of_mem _ hk)) hrun
        (List.cons_ne_nil _ _) fun p s hp => ?_)
      rcases hclear p s hp with hlo | hhi
      · exact .inl hlo
      · exact .inr (by omega)

end Comes
end Arrivals

section Machine

variable {W : Type} {others : Instruction → Store W → Option (Store W)} {text : List Entry}
  {marked : List Entry → Prop}

namespace Comes

/-- A branch leads to the text behind its label if the test holds, and is passed otherwise. -/
theorem branch {test : FlagTest} {name : String} {goal rest : List Entry} {s : Store W}
    (hgoal : entriesBehind? name text = some goal) :
    let d := (if test.holds s.flags then goal else rest, s)
    Comes (advance? others text) (fun c => marked c.1)
      (.instruction ((Opcode.branch test).named name) :: rest, s) (noted (fun c => marked c.1) d) d := by
  refine .one ?_
  simp only [advance?, follow?, goal?, Opcode.named, Option.bind_some, hgoal, Option.map_some]
  split <;> rfl

theorem jump {name : String} {goal rest : List Entry} {s : Store W}
    (hgoal : entriesBehind? name text = some goal) (hgoalUnmarked : ¬ marked goal) :
    Comes (advance? others text) (fun c => marked c.1)
      (.instruction (Opcode.jump.named name) :: rest, s) [] (goal, s) := by
  refine .pass ?_ hgoalUnmarked
  simp only [advance?, follow?, goal?, Opcode.named, Option.bind_some, hgoal, Option.map_some, if_true]

theorem straight {code : Code} {rest : List Entry} {s s' : Store W} (hcode : Straight code)
    (hrun : s.run others code = some s') (hne : code ≠ [])
    (hclear : ∀ p, marked p → p.length ≤ rest.length ∨ rest.length + code.length ≤ p.length) :
    Comes (advance? others text) (fun c => marked c.1) (code.map .instruction ++ rest, s)
      (noted (fun c => marked c.1) (rest, s')) (rest, s') :=
  .code Prod.mk (fun i hi _ _ => advance?_straight (hcode i hi)) hrun hne fun p _ => hclear p

end Comes
end Machine
end StackCode
