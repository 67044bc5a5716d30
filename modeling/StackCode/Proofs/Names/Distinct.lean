/-
Made-up names are new. If no label or subroutine of a program has the name of another
one or a name like those that are made up, then no made-up name is used before or
again, and so the sink is never used wrongly: each label is placed once in an open
block, and the jump that is taken back behind a choice is there.
-/
import StackCode.Proofs.Names.Program
import StackCode.Proofs.Stack.Reading

namespace StackCode

/-- Made-up names have a `<` in them. -/
theorem not_isGenerated {name : String} (h : '<' ∉ name.toList) : ¬ IsGenerated name := by
  rintro ⟨scope, suffix, n, rfl⟩
  exact h (by simp [labelName_toList])

theorem known_of_not_isGenerated {n : Nat} {name : String} (h : ¬ IsGenerated name) :
    Known n name := fun scope suffix m _ hname => absurd ⟨scope, suffix, m, hname⟩ h

theorem Numbered.isGenerated {n : Nat} {made : List String} {name : String} (h : Numbered n made)
    (hname : name ∈ made) : IsGenerated name := by
  induction h with
  | nil => cases hname
  | cons _ _ ih =>
    rcases List.mem_cons.1 hname with rfl | hname
    · exact ⟨_, _, _, rfl⟩
    · exact ih hname

theorem labelNames_sublist (ds : List Definition) : (labelNames ds).Sublist (ds.map (·.name)) := by
  induction ds with
  | nil => exact .refl _
  | cons d ds ih =>
    cases d with
    | label name => exact ih.cons_cons name
    | pointer p => exact ih.cons p.name

/-- Nothing that a program defines is in the way of its definitions at first. -/
theorem Tree.fits_start {t : Tree} (hd : t.ownNames.Nodup)
    (hg : ∀ name ∈ t.ownNames, ¬ IsGenerated name) : Fits t.start t.definitions := by
  have hsub : (labelNames t.written).Sublist t.ownNames :=
    (labelNames_sublist _).trans (t.written_sublist.map _)
  have hperm := t.labelNames_definitions
  constructor
  · rw [show t.start.sink.labels = [] from rfl, List.append_nil]
    exact hperm.nodup_iff.2 (hsub.nodup hd)
  · intro l hl
    rw [show t.start.sink.labels = [] from rfl, List.append_nil] at hl
    exact known_of_not_isGenerated (hg l (hsub.subset (hperm.mem_iff.1 hl)))

/-- **The names that a run makes up are new, and the sink is never to blame.** This holds of runs that
fail as well, and whatever the scopes and blocks are called. -/
theorem Tree.program_makes_new_names {t : Tree} {c : Configuration} {loader : IncludeLoader}
    (hd : t.ownNames.Nodup) (hg : ∀ name ∈ t.ownNames, ¬ IsGenerated name) :
    (∀ fault, t.program c loader ≠ .error (.sink fault)) ∧
      ∃ made, (t.steps (t.environment c loader)).Makes t.start made ∧ made.Nodup ∧
        ∀ name ∈ made, name ∉ t.ownNames := by
  obtain ⟨made, hmakes, hnum, hfree, -⟩ := t.steps_leads (t.environment c loader) t.start trivial
  refine ⟨?_, made, hmakes, hnum.nodup, fun name hname hown => hg name hown (hnum.isGenerated hname)⟩
  rw [program_eq, lower_eq]
  exact (hfree (fits_start hd hg)).bind fun _ => .ok _

/-- Loops and choices in a block whose name looks like one that is made up. -/
def nestedLoops : Tree where
  name := "sample"
  loadAddress := none
  modules :=
    [{ name := "main"
       source := "main"
       blocks :=
        [{ name := "main.<s-2-continue>"
           address := none
           options := []
           statements :=
            [.varDecl ⟨"main.b", .ubyte, .plain, none, [], {}⟩,
              .label "main.start" {},
              .whileLoop (.var "main.b")
                ⟨"", [.repeatLoop ⟨"main.<s-1-loop>", [.exit .leave {}], {}⟩ (.var "main.b") {},
                  .choose (.var "main.b")
                    [⟨some [.number (.wrapped .ubyte 1)], ⟨"", [.exit .next {}], {}⟩⟩] {}], {}⟩ {},
              .subroutine ⟨"main.f", [], [], none⟩ [.jump (.named "main.start") {}] {}]
           position := {} }] }]

theorem nestedLoops_makes_new_names :
    nestedLoops.ownNames = ["main.start", "main.f"] ∧
      (∀ fault, nestedLoops.program {} (.ofTexts []) ≠ .error (.sink fault)) ∧
      ∃ made, (nestedLoops.steps (nestedLoops.environment {} (.ofTexts []))).Makes nestedLoops.start
        made ∧ made.Nodup ∧ ∀ name ∈ made, name ∉ nestedLoops.ownNames := by
  have hnames : nestedLoops.ownNames = ["main.start", "main.f"] := rfl
  refine ⟨hnames, nestedLoops.program_makes_new_names ?_ fun name hname => not_isGenerated ?_⟩
  · rw [hnames]
    decide
  · rw [hnames] at hname
    rcases List.mem_pair.1 hname with rfl | rfl <;> decide

end StackCode
