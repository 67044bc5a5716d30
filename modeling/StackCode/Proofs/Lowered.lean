/-
Parts of a program that were lowered: what a lowering that succeeded went through,
read back from its result. Each function of the lowering is a chain of steps that
may fail; these lemmas take such a chain apart, one step at a time.
-/
import Mathlib.Data.List.Forall2
import StackCode.Code.Expr

namespace StackCode

/-! ## Steps -/

theorem Lowered.bind_ok_iff {α β : Type} {x : Lowered α} {f : α → Lowered β} {b : β} :
    (x >>= f) = .ok b ↔ ∃ a, x = .ok a ∧ f a = .ok b := by
  cases x <;> simp [bind, Except.bind]

theorem Lowered.pure_ok_iff {α : Type} {a b : α} : (pure a : Lowered α) = .ok b ↔ a = b := by
  simp [pure, Except.pure]

theorem Lowered.throw_ok_iff {α : Type} {e : LowerError} {b : α} :
    (throw e : Lowered α) = .ok b ↔ False := by
  simp [throw, throwThe, MonadExceptOf.throw]

/-- A check in front of the rest. -/
theorem Lowered.check_ok_iff {α β : Type} {p : Prop} [Decidable p] {e : LowerError}
    {f : α → Lowered β} {x : Lowered β} {b : β} :
    (if p then (throw e : Lowered α) >>= f else x) = .ok b ↔ ¬p ∧ x = .ok b := by
  split <;> simp_all [throw, throwThe, MonadExceptOf.throw, bind, Except.bind]

/-- A check that is all there is. -/
theorem Lowered.checked_iff {p : Prop} [Decidable p] {e : LowerError} {u : Unit} :
    (if p then (throw e : Lowered Unit) else pure ()) = .ok u ↔ ¬p := by
  split <;> simp_all [throw, throwThe, MonadExceptOf.throw, pure, Except.pure]

/-- Parts of a list that were lowered each by itself. -/
theorem Lowered.mapM_ok_iff {α β : Type} {f : α → Lowered β} {xs : List α} {ys : List β} :
    xs.mapM f = .ok ys ↔ List.Forall₂ (fun x y => f x = .ok y) xs ys := by
  induction xs generalizing ys with
  | nil =>
    rw [List.mapM_nil, Lowered.pure_ok_iff]
    exact ⟨fun h => h ▸ .nil, fun h => by cases h; rfl⟩
  | cons x xs ih =>
    simp only [List.mapM_cons, Lowered.bind_ok_iff, Lowered.pure_ok_iff, ih]
    constructor
    · rintro ⟨y, hy, ys', hys, rfl⟩
      exact .cons hy hys
    · intro h
      cases h with
      | cons hy hys => exact ⟨_, hy, _, hys, rfl⟩

/-- What is on the right of matched lists is matched by something on the left. -/
theorem exists_of_mem_right {α β : Type} {R : α → β → Prop} {xs : List α} {ys : List β}
    (h : List.Forall₂ R xs ys) {y : β} (hy : y ∈ ys) : ∃ x ∈ xs, R x y := by
  induction h with
  | nil => cases hy
  | cons hx _ ih =>
    rcases List.mem_cons.1 hy with rfl | hy
    · exact ⟨_, List.mem_cons_self, hx⟩
    · obtain ⟨x, hmem, hx⟩ := ih hy
      exact ⟨x, List.mem_cons_of_mem _ hmem, hx⟩

/-- Each part that came out was lowered from one that went in. -/
theorem Lowered.exists_of_mem_mapM {α β : Type} {f : α → Lowered β} {xs : List α} {ys : List β}
    (h : xs.mapM f = .ok ys) {y : β} (hy : y ∈ ys) : ∃ x ∈ xs, f x = .ok y :=
  exists_of_mem_right (Lowered.mapM_ok_iff.1 h) hy

/-- Each part that went in was lowered. -/
theorem Lowered.ok_of_mem_mapM {α β : Type} {f : α → Lowered β} {xs : List α} {ys : List β}
    (h : xs.mapM f = .ok ys) {x : α} (hx : x ∈ xs) : ∃ y, f x = .ok y := by
  rw [Lowered.mapM_ok_iff] at h
  induction h with
  | nil => cases hx
  | cons hy _ ih =>
    rcases List.mem_cons.1 hx with rfl | hx
    · exact ⟨_, hy⟩
    · exact ih hx

theorem Lowered.forM_ok_iff {α : Type} {f : α → Lowered Unit} {xs : List α} {u : Unit} :
    xs.forM f = .ok u ↔ ∀ x ∈ xs, f x = .ok () := by
  induction xs with
  | nil => simp [List.forM, pure, Except.pure]
  | cons x xs ih =>
    simp only [List.forM, Lowered.bind_ok_iff, List.mem_cons, forall_eq_or_imp]
    exact ⟨fun ⟨_, hx, hxs⟩ => ⟨hx, ih.1 hxs⟩, fun ⟨hx, hxs⟩ => ⟨(), hx, ih.2 hxs⟩⟩

theorem Lowered.option_mapM_ok_iff {α β : Type} {f : α → Lowered β} {x : Option α} {y : Option β} :
    x.mapM f = .ok y ↔ (x = none ∧ y = none) ∨ ∃ a b, x = some a ∧ y = some b ∧ f a = .ok b := by
  cases x with
  | none => simp [Option.mapM_none, pure, Except.pure, eq_comm]
  | some a =>
    simp only [Option.mapM_some, Functor.map]
    cases h : f a <;> simp [Except.map, h, eq_comm]

/-! ## Look-ups -/

theorem orInvalid_ok_iff {α : Type} {operation : String} {t : DataType} {x : Option α} {a : α} :
    orInvalid operation t x = .ok a ↔ x = some a := by
  cases x <;> simp [orInvalid]

/-- What a name stands for in a table, it was declared to stand for. -/
theorem SymbolTable.exists_of_find? {ds : List Declaration} {name : String} {s : Symbol}
    (h : (ofDeclarations ds).find? name = some s) : ∃ d ∈ ds, d.binding = (name, s) := by
  -- Later declarations only take bindings out, so the bindings themselves are the invariant.
  have hinv : ∀ (later : List Declaration) (t : SymbolTable), later ⊆ ds →
      (∀ b ∈ t.bindings, ∃ d ∈ ds, d.binding = b) →
      ∀ b ∈ (later.foldl (fun t d => t.insert d.binding.1 d.binding.2) t).bindings,
        ∃ d ∈ ds, d.binding = b := by
    intro later
    induction later with
    | nil => exact fun _ _ h => h
    | cons d later ih =>
      intro t hsub ht
      refine ih _ (List.subset_of_cons_subset hsub) fun b hb => ?_
      rcases List.mem_cons.1 hb with rfl | hb
      · exact ⟨d, hsub List.mem_cons_self, rfl⟩
      · exact ht b (List.mem_filter.1 hb).1
  obtain ⟨l₁, l₂, hl, -⟩ := List.lookup_eq_some_iff.1 h
  exact hinv ds {} (List.Subset.refl ds) (by simp) (name, s) (by rw [ofDeclarations] at hl; simp [hl])

theorem SymbolTable.needVar_ok_iff {symbols : SymbolTable} {name : String} {info : VariableInfo} :
    symbols.needVar name = .ok info ↔ symbols.var? name = some info := by
  unfold SymbolTable.needVar
  split <;> simp_all

theorem Expr.needType_ok_iff {symbols : SymbolTable} {e : Expr} {t : DataType} :
    e.needType symbols = .ok t ↔ e.type? symbols = some t := by
  unfold Expr.needType
  split <;> simp_all

theorem Place.needType_ok_iff {symbols : SymbolTable} {p : Place} {t : DataType} :
    p.needType symbols = .ok t ↔ p.type? symbols = some t := by
  unfold Place.needType
  split <;> simp_all

end StackCode
