/-
Accounts of the places that count. The stack at a label and the stack at the jumps to
it are met with at different times, and a jump out of a loop even in another statement
than its label. So an account of a part is given relative to labels that are known to
stand elsewhere, and at the end of a construct its own labels are taken off that list.

An account goes both ways: it says when the part is level, and that the part has to be
like that if the whole text is.
-/
import StackCode.Proofs.Stack.Reading

namespace StackCode

/-- Labels with the stacks that they stand at. -/
abbrev LabelStacks := List (String × List Slot)

/-- With the known labels around them, the sites are level just if the condition holds. -/
structure Accounts (known : LabelStacks) (sites : List Site) (condition : Prop) : Prop where
  /-- In a level text the condition holds. -/
  needed : ∀ {all : List Site}, sites ⊆ all → Level all →
    (∀ x ∈ known, .label x.1 x.2 ∈ all) → condition
  reached : condition → ∀ {l stack}, .jump l stack ∈ sites → IsGenerated l →
    .label l stack ∈ sites ∨ (l, stack) ∈ known
  ret : condition → ∀ {stack results}, .ret stack results ∈ sites → stack = results

namespace Accounts

variable {known own : LabelStacks} {sites sites' : List Site} {c c' : Prop}

theorem nil : Accounts known [] True where
  needed _ _ _ := trivial
  reached _ _ _ h := by cases h
  ret _ _ _ h := by cases h

theorem append (h : Accounts known sites c) (h' : Accounts known sites' c') :
    Accounts known (sites ++ sites') (c ∧ c') where
  needed hsub hl hk :=
    ⟨h.needed (List.append_subset.1 hsub).1 hl hk, h'.needed (List.append_subset.1 hsub).2 hl hk⟩
  reached hc _ _ hj hg := by
    rcases List.mem_append.1 hj with hj | hj
    · exact (h.reached hc.1 hj hg).imp_left (List.mem_append_left _)
    · exact (h'.reached hc.2 hj hg).imp_left (List.mem_append_right _)
  ret hc _ _ hr := (List.mem_append.1 hr).elim (h.ret hc.1) (h'.ret hc.2)

theorem label {l : String} {stack : List Slot} : Accounts known [.label l stack] True where
  needed _ _ _ := trivial
  reached _ _ _ h := by simp at h
  ret _ _ _ h := by simp at h

/-- Jumps to a known label, or to one that lowering did not make up. -/
theorem jumps {l : String} {stack : List Slot} (hs : ∀ s ∈ sites, s = .jump l stack)
    (h : (l, stack) ∈ known ∨ ¬IsGenerated l) : Accounts known sites True where
  needed _ _ _ := trivial
  reached _ _ _ hj hg := by
    cases hs _ hj
    exact .inr (h.resolve_right (not_not.2 hg))
  ret _ _ _ hr := by cases hs _ hr

/-- A jump from anywhere to a known label. -/
theorem exit {l : String} {stack stack' : List Slot} (hk : (l, stack') ∈ known)
    (hg : IsGenerated l) : Accounts known [.jump l stack] (stack = stack') where
  needed hsub hl hknown := (hl.agree (hsub List.mem_cons_self) hg (hknown _ hk)).symm
  reached hc _ _ hj _ := by
    simp only [List.mem_singleton, Site.jump.injEq] at hj
    obtain ⟨rfl, rfl⟩ := hj
    exact .inr (hc ▸ hk)
  ret _ _ _ h := by simp at h

theorem returns {stack results : List Slot} :
    Accounts known [.ret stack results] (stack = results) where
  needed hsub hl _ := hl.ret (hsub List.mem_cons_self)
  reached _ _ _ h := by simp at h
  ret hc _ _ hr := by
    simp only [List.mem_singleton, Site.ret.injEq] at hr
    obtain ⟨rfl, rfl⟩ := hr
    exact hc

theorem congr (h : Accounts known sites c) (hc : c ↔ c') : Accounts known sites c' := propext hc ▸ h

theorem mono {known' : LabelStacks} (h : Accounts known sites c) (hsub : known ⊆ known') :
    Accounts known' sites c where
  needed hs hl hk := h.needed hs hl fun x hx => hk x (hsub hx)
  reached hc _ _ hj hg := (h.reached hc hj hg).imp_right (hsub ·)
  ret := h.ret

/-- Labels that stand among the sites need not be known from elsewhere. -/
theorem close (h : Accounts (own ++ known) sites c) (hown : ∀ x ∈ own, .label x.1 x.2 ∈ sites) :
    Accounts known sites c where
  needed hsub hl hk :=
    h.needed hsub hl fun x hx => (List.mem_append.1 hx).elim (fun ho => hsub (hown x ho)) (hk x)
  reached hc _ _ hj hg := by
    rcases h.reached hc hj hg with hl | hx
    · exact .inl hl
    · exact (List.mem_append.1 hx).imp_left (hown _)
  ret := h.ret

end Accounts

/-! ## Parts -/

/-- The part takes the stack from one state to another, defines these labels on the way, and is level
just if the condition holds. -/
structure Part.Levels (symbols : SymbolTable) (results : List Slot) (p : Part)
    (known placed : LabelStacks) (before after : List Slot) (condition : Prop) : Prop where
  walks : ∀ {n : Nat} {ps : List Piece} {n' : Nat}, p n ps n' →
    ∃ sites, Walks symbols results (entriesOf ps) before after sites ∧
      Accounts known sites condition ∧ ∀ x ∈ placed, .label x.1 x.2 ∈ sites

namespace Part.Levels

variable {symbols : SymbolTable} {results before between after : List Slot} {p q : Part}
  {known own placed placed' : LabelStacks} {c c' : Prop}

theorem just_nil : (Part.just []).Levels symbols results known [] before before True where
  walks h := by
    obtain ⟨rfl, -⟩ := h
    exact ⟨[], .nil, .nil, by simp⟩

theorem append (h : p.Levels symbols results known placed before between c)
    (h' : q.Levels symbols results known placed' between after c') :
    (p ++ q).Levels symbols results known (placed ++ placed') before after (c ∧ c') where
  walks hpq := by
    obtain ⟨ps₁, m, ps₂, hp, hq, rfl⟩ := hpq
    obtain ⟨sites, hw, ha, hpl⟩ := h.walks hp
    obtain ⟨sites', hw', ha', hpl'⟩ := h'.walks hq
    refine ⟨sites ++ sites', entriesOf_append ▸ hw.append hw', ha.append ha', fun x hx => ?_⟩
    rcases List.mem_append.1 hx with hx | hx
    · exact List.mem_append_left _ (hpl x hx)
    · exact List.mem_append_right _ (hpl' x hx)

theorem congr (h : p.Levels symbols results known placed before after c) (hc : c ↔ c') :
    p.Levels symbols results known placed before after c' := propext hc ▸ h

/-- Behind a part that is level anyway. -/
theorem cons (h : p.Levels symbols results known placed before between True)
    (h' : q.Levels symbols results known placed' between after c) :
    (p ++ q).Levels symbols results known (placed ++ placed') before after c :=
  (h.append h').congr (and_iff_right trivial)

/-- Before a part that is level anyway. -/
theorem snoc (h : p.Levels symbols results known placed before between c)
    (h' : q.Levels symbols results known placed' between after True) :
    (p ++ q).Levels symbols results known (placed ++ placed') before after c :=
  (h.append h').congr (and_iff_left trivial)

theorem given {α : Type} {x : Lowered α} {f : α → Part}
    (h : ∀ a, x = .ok a → (f a).Levels symbols results known placed before after c) :
    (Part.given x f).Levels symbols results known placed before after c where
  walks hp := by
    obtain ⟨a, hx, hp⟩ := hp
    exact (h a hx).walks hp

/-- A label of its own is a generated one. -/
theorem fresh {scope suffix : String} {f : String → Part}
    (h : ∀ l, IsGenerated l → (f l).Levels symbols results known placed before after c) :
    (Part.fresh scope suffix f).Levels symbols results known placed before after c where
  walks hp := (h _ ⟨scope, suffix, _, rfl⟩).walks hp

theorem mono {known' : LabelStacks} (h : p.Levels symbols results known placed before after c)
    (hsub : known ⊆ known') : p.Levels symbols results known' placed before after c where
  walks hp := by
    obtain ⟨sites, hw, ha, hpl⟩ := h.walks hp
    exact ⟨sites, hw, ha.mono hsub, hpl⟩

/-- A construct whose labels are its own. -/
theorem close (own : LabelStacks)
    (h : p.Levels symbols results (own ++ known) placed before after c)
    (hown : ∀ x ∈ own, x ∈ placed) : p.Levels symbols results known [] before after c where
  walks hp := by
    obtain ⟨sites, hw, ha, hpl⟩ := h.walks hp
    exact ⟨sites, hw, ha.close fun x hx => hpl x (hown x hx), by simp⟩

theorem of_walks {ps : List Piece} {sites : List Site}
    (hw : Walks symbols results (entriesOf ps) before after sites) (ha : Accounts known sites c) :
    (Part.just ps).Levels symbols results known [] before after c where
  walks h := by
    obtain ⟨rfl, -⟩ := h
    exact ⟨sites, hw, ha, by simp⟩

theorem place {l : String} :
    (Part.place l).Levels symbols results known [(l, before)] before before True where
  walks h := by
    obtain ⟨rfl, -⟩ := h
    exact ⟨[.label l before], .label l, .label, by simp⟩

/-- Straight code that runs. -/
theorem ops {code : Code} (hs : Straight code) (h : Runs symbols code before after)
    (below : List Slot) :
    (Part.ops code).Levels symbols results known [] (before ++ below) (after ++ below) True :=
  of_walks (entriesOf_ops code ▸ .runs hs h below) .nil

theorem act {a : Action} (hn : symbols.WellNamed) (hw : a.WellCalled symbols) :
    (Part.act symbols a).Levels symbols results known [] before (a.gives symbols ++ before) True :=
  given fun c hc => of_walks
    (entriesOf_code a c ▸ .runs (a.code_straight c hc) (Action.code_runs hn hw hc) before) .nil

/-- An action that leaves nothing. -/
theorem act_still {a : Action} (hn : symbols.WellNamed) (hw : a.WellCalled symbols)
    (hgives : a.gives symbols = []) :
    (Part.act symbols a).Levels symbols results known [] before before True := by
  have h : Part.Levels symbols results (.act symbols a) known [] before _ True := act hn hw
  rwa [hgives] at h

/-- A condition, before something is done about its value. -/
theorem evaluate {e : Expr} {t : DataType} (hn : symbols.WellNamed) (hw : e.WellCalled symbols)
    (ht : e.type? symbols = some t) :
    (Part.act symbols (.evaluate e)).Levels symbols results known [] before (t.slot :: before) True := by
  have hgives : t.slot :: before = Action.gives symbols (.evaluate e) ++ before := by
    simp [Action.gives, ht]
  exact hgives ▸ act hn hw

theorem closing {l : String} :
    (Part.close l).Levels symbols results known [(l, before)] before before True where
  walks h := by
    obtain ⟨rfl, -⟩ := h
    have hnop : Walks symbols results [.instruction Opcode.nop.plain] before before [] :=
      .straight (Straight.of_effect (i := Opcode.nop.plain) rfl) (Runs.of_still rfl before)
    exact ⟨[.label l before], (Walks.label l).append hnop, .label, by simp⟩

/-- A jump by one instruction. -/
theorem op {op : Opcode} {l : String} (hop : op.Jumps symbols results before after)
    (hl : (l, after) ∈ known ∨ ¬IsGenerated l) :
    (Part.ops [op.named l]).Levels symbols results known [] before after True :=
  of_walks (by rw [List.map_singleton]; exact hop _ rfl) (.jumps (by simp [Opcode.named]) hl)

/-- A jump by an instruction behind straight code. -/
theorem ops_op {code : Code} {op : Opcode} {l : String} {below : List Slot} (hs : Straight code)
    (h : Runs symbols code before between) (hop : op.Jumps symbols results (between ++ below) after)
    (hl : (l, after) ∈ known ∨ ¬IsGenerated l) :
    (Part.ops (code ++ [op.named l])).Levels symbols results known [] (before ++ below) after True := by
  have hwalks : Walks symbols results (entriesOf ((code ++ [op.named l]).map Piece.op))
      (before ++ below) after ([] ++ [.jump l after]) := by
    rw [List.map_append, entriesOf_append, entriesOf_ops, entriesOf_ops]
    exact (Walks.runs hs h below).append (hop (op.named l) rfl)
  exact of_walks hwalks (.jumps (by simp) hl)

end Part.Levels
end StackCode
