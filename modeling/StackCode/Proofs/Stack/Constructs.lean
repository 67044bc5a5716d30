/-
The stack in each construct. A choice on a condition and a loop run their parts on the
stack that they found; a choice among many runs them with the value that it looks at
still on the stack.
-/
import StackCode.Proofs.Stack.Account

namespace StackCode

variable {env : Environment} {ctx : Context} {symbols : SymbolTable} {results : List Slot}
  {known : LabelStacks} {before stack : List Slot} {c c' : Prop}

/-! ## Jumps -/

/-- A jump to the target goes to no label of a construct. -/
def JumpTarget.IsOwn : JumpTarget → Prop
  | .address _ => True
  | .named label | .generated label => ¬IsGenerated label

/-- A jump to a known label, or to one that lowering did not make up. -/
theorem jump_levels {op : Opcode} {target : JumpTarget} (hop : op.Jumps symbols results before stack)
    (ht : ∀ l, target = .named l ∨ target = .generated l → (l, stack) ∈ known ∨ ¬IsGenerated l) :
    (Part.jump env op target).Levels symbols results known [] before stack True :=
  .given fun i hi => by
    obtain ⟨a, -, rfl⟩ | ⟨l, hl, rfl⟩ := Environment.jumpInstruction_ok hi
    · exact .of_walks (hop _ rfl) .nil
    · exact .of_walks (hop _ rfl) (.jumps (by simp [Opcode.named]) (ht l hl))

theorem jump_levels_own {op : Opcode} {target : JumpTarget}
    (hop : op.Jumps symbols results before stack) (ht : target.IsOwn) :
    (Part.jump env op target).Levels symbols results known [] before stack True :=
  jump_levels hop fun l hl => by
    rcases hl with rfl | rfl <;> exact .inr ht

/-! ## Choices -/

/-- Two parts behind a jump. The second one is left out if it does nothing. -/
theorem alternatives_levels {away : Opcode} {elseLabel endLabel : String} {elseIdle : Bool}
    {thenPart elsePart : Part} (haway : away.Jumps symbols results before stack)
    (ht : thenPart.Levels symbols results known [] stack stack c)
    (he : elsePart.Levels symbols results known [] stack stack c') (hidle : elseIdle → c') :
    (Part.alternatives away elseLabel endLabel elseIdle thenPart elsePart).Levels symbols results
      known [] before stack (c ∧ c') := by
  unfold Part.alternatives
  split
  next h =>
    have hthen : thenPart.Levels symbols results ([(endLabel, stack)] ++ known) [] stack stack
        (c ∧ c') := (ht.mono (by simp)).congr (by simp [hidle h])
    exact .close [(endLabel, stack)] (.cons (.op haway (.inl (by simp))) (.snoc hthen .closing))
      (by simp)
  next =>
    have helse : (Part.ops [Opcode.jump.named endLabel] ++ (Part.place elseLabel ++
        (elsePart ++ Part.close endLabel))).Levels symbols results
        ([(elseLabel, stack), (endLabel, stack)] ++ known) [(elseLabel, stack), (endLabel, stack)]
        stack stack c' :=
      .cons (.op .jump (.inl (by simp))) (.cons .place (.snoc (he.mono (by simp)) .closing))
    exact .close [(elseLabel, stack), (endLabel, stack)]
      (.cons (.op haway (.inl (by simp))) (.append (ht.mono (by simp)) helse)) (by simp)

/-- A choice on a condition. A part that is a single jump is not written: the condition jumps itself. -/
theorem conditional_levels {condition : Expr} {thenScope elseScope : Scope} {thenPart elsePart : Part}
    (hn : env.symbols.WellNamed) (hw : condition.WellCalled env.symbols)
    (ht : thenPart.Levels env.symbols results known [] stack stack c)
    (he : elsePart.Levels env.symbols results known [] stack stack c')
    (honly : ∀ target position, thenScope.onlyJump? = some (target, position) → target.IsOwn ∧ c)
    (hidle : elseScope.isIdle → c') :
    (Part.conditional env ctx condition thenScope elseScope thenPart elsePart).Levels env.symbols
      results known [] stack stack (c ∧ c') :=
  .given fun t htype => by
    refine .cons (.evaluate hn hw (Expr.needType_ok_iff.1 htype)) ?_
    split
    next target position hjump =>
      obtain ⟨hown, hc⟩ := honly target position hjump
      exact .given fun op hop => .cons (jump_levels_own (.jumpNonzeroFor hop) hown)
        (he.congr (by simp [hc]))
    next =>
      refine .given fun away haway => .fresh fun endLabel _ => ?_
      split
      next h => exact alternatives_levels (.jumpZeroFor haway) ht he fun _ => hidle h
      next => exact .fresh fun elseLabel _ => alternatives_levels (.jumpZeroFor haway) ht he (by simp)

/-- A choice on a status flag. If both parts are jumps, nothing else of them is written. -/
theorem flagBranch_levels {test : FlagTest} {thenScope elseScope : Scope} {thenPart elsePart : Part}
    (ht : thenPart.Levels symbols results known [] stack stack c)
    (he : elsePart.Levels symbols results known [] stack stack c')
    (hthen : ∀ target position, thenScope.leadingJump? = some (target, position) → target.IsOwn)
    (helse : ∀ target position, elseScope.leadingJump? = some (target, position) → target.IsOwn)
    (hidle : thenScope.isIdle → c) (hidle' : elseScope.isIdle → c') :
    (Part.flagBranch env ctx test thenScope elseScope thenPart elsePart).Levels symbols results known []
      stack stack ((branchJumps? thenScope elseScope).isSome ∨ c ∧ c') := by
  unfold Part.flagBranch
  split
  next h =>
    rw [Bool.and_eq_true] at h
    exact Part.Levels.just_nil.congr (by simp [hidle h.1, hidle' h.2])
  next =>
    cases hjumps : branchJumps? thenScope elseScope with
    | none =>
      have hparts : ∀ elseLabel endLabel, (Part.alternatives (.branch test.complement) elseLabel endLabel
          elseScope.isIdle thenPart elsePart).Levels symbols results known [] stack stack (c ∧ c') :=
        fun _ _ => alternatives_levels .branch ht he hidle'
      exact .fresh fun elseLabel _ => .fresh fun endLabel _ => (hparts elseLabel endLabel).congr (by simp)
    | some jumps =>
      obtain ⟨⟨target, position⟩, other⟩ := jumps
      refine .congr (c := True) ?_ (by simp)
      obtain ⟨htarget, ⟨-, rfl⟩ | ⟨⟨target', position'⟩, htarget', rfl⟩⟩ := branchJumps?_ok hjumps
      · exact .cons (jump_levels_own .branch (hthen _ _ htarget)) .just_nil
      · exact .cons (jump_levels_own .branch (hthen _ _ htarget))
          (jump_levels_own .branch (helse _ _ htarget'))

/-! ## Choices among many -/

/-- The parts of the choices are level on this stack just if the condition holds. -/
inductive ChoicesLevel (symbols : SymbolTable) (results : List Slot) (known : LabelStacks)
    (stack : List Slot) : List (Option (List Expr) × Part) → Prop → Prop
  | nil : ChoicesLevel symbols results known stack [] True
  | cons {values : Option (List Expr)} {part : Part} {rest : List (Option (List Expr) × Part)}
      {c c' : Prop} : part.Levels symbols results known [] stack stack c →
      ChoicesLevel symbols results known stack rest c' →
      ChoicesLevel symbols results known stack ((values, part) :: rest) (c ∧ c')

/-- The labels of the parts that are still to be written. -/
def labelStacks (stack : List Slot) (parts : List (String × Part)) : LabelStacks :=
  parts.map fun x => (x.1, stack)

/-- The tests copy the value that they look at. -/
theorem choiceTests_walks {t : IntType} {label : String} (values : List Value) :
    Walks symbols results (entriesOf ((choiceTests t label values).map Piece.op))
      (.sized (.int t.size) :: stack) (.sized (.int t.size) :: stack)
      (values.map fun _ => .jump label (.sized (.int t.size) :: stack)) := by
  rw [entriesOf_ops]
  induction values with
  | nil => exact .nil
  | cons v values ih =>
    have hdup : Runs symbols [(Opcode.dup t.size).plain] [.sized (.int t.size)]
        [.sized (.int t.size), .sized (.int t.size)] :=
      .of_opcode rfl (.cons Want.accepts_size_self .nil)
    have hcompare : Runs symbols [(Opcode.compare t).given v]
        [.sized (.int t.size), .sized (.int t.size)] [.sized (.int t.size)] :=
      (Runs.of_pop rfl).frame _
    have htest : Walks symbols results _ _ _ _ :=
      (Walks.runs ((Straight.of_effect rfl).append (.of_effect rfl)) (hdup.append hcompare) stack).append
        (Opcode.Jumps.branch ((Opcode.branch .zero).named label) rfl)
    exact htest.append ih

/-- The tests, and the parts behind them, share the work. -/
theorem choiceHeads_levels {scope endLabel : String} {t : IntType}
    {choices : List (Option (List Expr) × Part)} {n n' : Nat} {ps : List Piece}
    {parts : List (String × Part)}
    (hc : ChoicesLevel symbols results known (.sized (.int t.size) :: stack) choices c)
    (h : Part.choiceHeads symbols scope t choices n ps n' parts)
    (hparts : labelStacks (.sized (.int t.size) :: stack) parts ⊆ known)
    (hend : (endLabel, .sized (.int t.size) :: stack) ∈ known) :
    ∃ sites c₁ c₂, Walks symbols results (entriesOf ps) (.sized (.int t.size) :: stack)
        (.sized (.int t.size) :: stack) sites ∧ Accounts known sites c₁ ∧
      (Part.choiceBodies endLabel parts).Levels symbols results known
        (labelStacks (.sized (.int t.size) :: stack) parts) (.sized (.int t.size) :: stack)
        (.sized (.int t.size) :: stack) c₂ ∧ (c₁ ∧ c₂ ↔ c) := by
  induction hc generalizing n ps n' parts with
  | nil =>
    obtain ⟨rfl, -, rfl⟩ := h
    exact ⟨[], True, True, .nil, .nil, .just_nil, by simp⟩
  | @cons values part rest c c' hpart _ ih =>
    cases values with
    | none =>
      obtain ⟨ps₁, m, ps₂, hp, hrest, rfl⟩ := h
      obtain ⟨sites, hw, ha, -⟩ := hpart.walks hp
      obtain ⟨sites', c₁, c₂, hw', ha', hbodies, hiff⟩ := ih hrest hparts
      exact ⟨sites ++ sites', c ∧ c₁, c₂, entriesOf_append ▸ hw.append hw', ha.append ha', hbodies,
        by rw [and_assoc, hiff]⟩
    | some values =>
      obtain ⟨v, vs, label, ps₂, parts', -, -, hrest, rfl, rfl⟩ := h
      rw [labelStacks, List.map_cons, List.cons_subset] at hparts
      obtain ⟨sites', c₁, c₂, hw', ha', hbodies, hiff⟩ := ih hrest hparts.2
      have htests : Accounts known ((v :: vs).map fun _ =>
          .jump label (.sized (.int t.size) :: stack)) True :=
        .jumps (by simp) (.inl hparts.1)
      refine ⟨_, c₁, c ∧ c₂, entriesOf_append ▸ (choiceTests_walks (v :: vs)).append hw',
        (htests.append ha').congr (and_iff_right trivial), ?_, by rw [← hiff]; exact and_left_comm⟩
      exact .cons (.op .jump (.inl hend)) (.cons .place (.append hpart hbodies))

/-- A choice on the value of an expression. The value is dropped at the end, and is there before. -/
theorem choose_levels {condition : Expr} {choices : List (Option (List Expr) × Part)}
    (hn : env.symbols.WellNamed) (hw : condition.WellCalled env.symbols)
    (hc : ∀ {t : IntType} {known' : LabelStacks}, known ⊆ known' →
      ChoicesLevel env.symbols results known' (.sized (.int t.size) :: stack) choices c) :
    (Part.choose env ctx condition choices).Levels env.symbols results known [] stack stack c :=
  .given fun type htype => .given fun t ht => by
    obtain rfl : type = .int t := by
      rw [orInvalid_ok_iff] at ht
      rcases type with (n | _) | _ | _ | _ | _ <;> cases ht
      rfl
    have hdrop : ∀ {known : LabelStacks}, (Part.ops [(Opcode.discard (.int t.size)).plain]).Levels
        env.symbols results known [] (.sized (.int t.size) :: stack) stack True :=
      .ops (.of_effect rfl) (.of_pop rfl) stack
    refine .cons (.evaluate hn hw (Expr.needType_ok_iff.1 htype)) ?_
    split
    next hempty =>
      rw [List.isEmpty_iff] at hempty
      subst hempty
      have hnil : ChoicesLevel env.symbols results known (.sized (.int t.size) :: stack) [] c :=
        hc (List.Subset.refl known)
      cases hnil
      exact hdrop
    next =>
      refine .fresh fun endLabel _ => ⟨fun h => ?_⟩
      obtain ⟨ps₁, m, ps₂, parts, hheads, hbodies, rfl⟩ := h
      let top : List Slot := .sized (.int t.size) :: stack
      have hown : labelStacks top parts ⊆ ((endLabel, top) :: labelStacks top parts) ++ known :=
        fun x hx => List.mem_append_left _ (List.mem_cons_of_mem _ hx)
      obtain ⟨sites, c₁, c₂, hwalks, ha, hlevels, hiff⟩ :=
        choiceHeads_levels (hc (List.subset_append_right _ _)) hheads hown
          (List.mem_append_left _ List.mem_cons_self)
      obtain ⟨sites', hwalks', ha', hplaced⟩ := (hlevels.snoc (.cons .place hdrop)).walks hbodies
      refine ⟨sites ++ sites', entriesOf_append ▸ hwalks.append hwalks',
        ((ha.append ha').congr hiff).close fun x hx => List.mem_append_right _ (hplaced x ?_), by simp⟩
      simpa [or_comm] using hx

end StackCode
