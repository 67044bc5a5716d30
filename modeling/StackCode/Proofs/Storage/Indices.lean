/-
The index variables of loops. Each loop over the elements of an array or a string
declares an index of its own where its code is written. Which arrays these are, and in
which order, can be read off the statements.
-/
import StackCode.Proofs.Lowering.Program
import StackCode.Proofs.Lowering.Shape
import StackCode.Proofs.Names.Generated

namespace StackCode

/-! ## Arrays that are iterated -/

/-- The array or string whose elements are gone through. -/
def Expr.array? : Expr → Option String
  | .var name => some name
  | _ => none

mutual

/-- The arrays and strings that the written loops of a statement go through, in the order of the
code. A loop with an idle body is not written. -/
def Statement.iterated : Statement → List String
  | .cond _ thenPart elsePart _ => thenPart.iterated ++ elsePart.iterated
  | .branch _ thenPart elsePart _ =>
    if (branchJumps? thenPart elsePart).isSome then []
    else thenPart.iterated ++ elsePart.iterated
  | .forEach _ _ iterable body _ =>
    if body.isIdle then [] else iterable.array?.toList ++ body.iterated
  | .whileLoop _ body _ | .repeatLoop body _ _ => body.iterated
  | .scope s => s.iterated
  | .subroutine _ body _ => Statement.allIterated body
  | .choose _ choices _ => Choice.iterated true choices ++ Choice.iterated false choices
  | _ => []

def Scope.iterated : Scope → List String
  | ⟨_, statements, _⟩ => Statement.allIterated statements

/-- The same for the choices that are written among the tests, or for those that are written behind
them. -/
def Choice.iterated (inline : Bool) : List Choice → List String
  | [] => []
  | ⟨values, body⟩ :: rest =>
    (if values.isNone = inline then body.iterated else []) ++ Choice.iterated inline rest

def Statement.allIterated : List Statement → List String
  | [] => []
  | s :: rest => s.iterated ++ Statement.allIterated rest

end

theorem Statement.allIterated_eq_nil {ss : List Statement} (h : ∀ s ∈ ss, s.iterated = []) :
    allIterated ss = [] := by
  induction ss with
  | nil => rfl
  | cons s ss ih =>
    rw [allIterated, h s List.mem_cons_self, List.nil_append]
    exact ih fun x hx => h x (List.mem_cons_of_mem _ hx)

theorem Statement.allIterated_of_nops {ss : List Statement} (h : ss.all (·.isNop)) :
    allIterated ss = [] :=
  allIterated_eq_nil fun _ hs => by rw [eq_nop_of_all h hs]; rfl

theorem Scope.iterated_of_isIdle : ∀ {s : Scope}, s.isIdle → s.iterated = []
  | ⟨_, _, _⟩, h => Statement.allIterated_of_nops h

theorem Scope.iterated_of_onlyJump {s : Scope} {jump : JumpTarget × Position}
    (h : s.onlyJump? = some jump) : s.iterated = [] := by
  have hs : s.statements = [.jump jump.1 jump.2] := onlyJump?_ok h
  obtain ⟨name, statements, position⟩ := s
  cases hs
  rfl

/-- There are no loops in a subroutine that is all assembly. -/
theorem Statement.allIterated_of_soleAssembly {body : List Statement} {sole : String × Position}
    (h : soleAssembly? body = some sole) : allIterated body = [] := by
  refine allIterated_eq_nil fun s hs => ?_
  obtain ⟨d, rfl⟩ | rfl | ⟨text, position, rfl⟩ := soleAssembly?_ok h hs <;> rfl

/-! ## Index variables -/

/-- The variable is an index for the elements of this array, with the given number in its name. It is a
byte if it need not count further than to 255. -/
structure SymbolTable.HasIndex (symbols : SymbolTable) (array : String) (number : Nat)
    (v : Variable) : Prop where
  name : ∃ scope, v.name = labelName scope "forloop_index" number
  length : v.length = none
  datatype : ∃ info length, symbols.var? array = some info ∧ info.type.element?.isSome ∧
    info.length = some length ∧ v.datatype = if length.toNat ≤ 255 then .ubyte else .uword

/-- The variables are indices for these arrays. Their numbers grow, from behind the first number on up
to the last one. -/
inductive SymbolTable.Indices (symbols : SymbolTable) : Nat → List String → List Variable → Nat → Prop
  | nil {n m : Nat} (h : n ≤ m) : Indices symbols n [] [] m
  | cons {n k m : Nat} {array : String} {v : Variable} {arrays : List String} {vs : List Variable}
    (h : n < k) (hv : symbols.HasIndex array k v) (hrest : Indices symbols k arrays vs m) :
    Indices symbols n (array :: arrays) (v :: vs) m

namespace SymbolTable.Indices

variable {symbols : SymbolTable} {n n' k m : Nat} {arrays arrays' : List String} {vs vs' : List Variable}

theorem widen (h : symbols.Indices n arrays vs m) (hn : n' ≤ n) : symbols.Indices n' arrays vs m := by
  cases h with
  | nil h => exact .nil (Nat.le_trans hn h)
  | cons h hv hrest => exact .cons (Nat.lt_of_le_of_lt hn h) hv hrest

theorem append (h : symbols.Indices n arrays vs k) (h' : symbols.Indices k arrays' vs' m) :
    symbols.Indices n (arrays ++ arrays') (vs ++ vs') m := by
  induction h with
  | nil h => exact h'.widen h
  | cons h hv _ ih => exact .cons h hv (ih h')

theorem forall₂ (h : symbols.Indices n arrays vs m) :
    List.Forall₂ (fun array v => ∃ number, symbols.HasIndex array number v) arrays vs := by
  induction h with
  | nil => exact .nil
  | cons _ hv _ ih => exact .cons ⟨_, hv⟩ ih

theorem number_lt (h : symbols.Indices n arrays vs m) {v : Variable} (hv : v ∈ vs) :
    ∃ array number, n < number ∧ symbols.HasIndex array number v := by
  induction h with
  | nil => cases hv
  | cons h hv' _ ih =>
    rcases List.mem_cons.1 hv with rfl | hv
    · exact ⟨_, _, h, hv'⟩
    · obtain ⟨array, number, hlt, hindex⟩ := ih hv
      exact ⟨array, number, Nat.lt_trans h hlt, hindex⟩

/-- No two indices have the same name. -/
theorem names_nodup (h : symbols.Indices n arrays vs m) : (vs.map (·.name)).Nodup := by
  induction h with
  | nil => exact List.nodup_nil
  | cons _ hv hrest ih =>
    refine List.nodup_cons.2 ⟨fun hmem => ?_, ih⟩
    obtain ⟨v', hv', hname⟩ := List.mem_map.1 hmem
    obtain ⟨array, number, hlt, hindex⟩ := hrest.number_lt hv'
    obtain ⟨scope, hscope⟩ := hv.name
    obtain ⟨scope', hscope'⟩ := hindex.name
    have hnumber := (labelName_inj (by decide) (by decide) (hscope'.symm.trans (hname.trans hscope))).2.2
    exact Nat.ne_of_gt hlt hnumber

end SymbolTable.Indices

/-- A loop over elements takes the index that is right for its array. -/
theorem ElementRange.find_hasIndex {symbols : SymbolTable} {array : String} {r : ElementRange}
    (h : find symbols array = .ok r) (scope : String) (number : Nat) :
    symbols.HasIndex array number
      ⟨labelName scope "forloop_index" number, .int r.indexType, none⟩ := by
  unfold find at h
  simp only [Lowered.bind_ok_iff, SymbolTable.needVar_ok_iff, orInvalid_ok_iff] at h
  obtain ⟨info, hinfo, element, helement, h⟩ := h
  split at h
  next length hlength =>
    rw [Lowered.check_ok_iff, Lowered.pure_ok_iff] at h
    obtain ⟨-, rfl⟩ := h
    refine ⟨⟨scope, rfl⟩, rfl, info, length, hinfo, by rw [helement]; rfl, hlength, ?_⟩
    have hle : length ≤ 255 ↔ length.toNat ≤ 255 := UInt16.le_iff_toNat_le
    by_cases hsmall : length.toNat ≤ 255
    · rw [if_pos hsmall, indexType, if_pos (hle.2 hsmall)]
    · rw [if_neg hsmall, indexType, if_neg (mt hle.1 hsmall)]
  next => simp only [Lowered.throw_ok_iff] at h

/-! ## Steps that declare indices -/

/-- The name of the open block, and its variables. -/
def Output.variables? (out : Output) : Option (String × List Variable) :=
  out.sink.current.map fun b => (b.name, b.vars)

/-- The second output comes behind the first one. Meanwhile the open block got these variables, and
indices for these arrays. -/
def Output.Declared (symbols : SymbolTable) (own : List Variable) (arrays : List String)
    (out out' : Output) : Prop :=
  ∃ vs, symbols.Indices out.generated arrays vs out'.generated ∧
    out'.sink.closed = out.sink.closed ∧
    out'.variables? = out.variables?.map fun (name, vars) => (name, vars ++ (own ++ vs))

/-- The steps declare these variables in the open block, and then indices for these arrays. -/
structure Writer.Declares {α : Type} (symbols : SymbolTable) (own : List Variable)
    (arrays : List String) (w : Writer α) : Prop where
  declared : ∀ {out a out'}, w out = .ok (a, out') → out.Declared symbols own arrays out'

/-- The only variables that the steps declare are indices for these arrays. -/
abbrev Writer.Indexes {α : Type} (symbols : SymbolTable) (arrays : List String) (w : Writer α) : Prop :=
  w.Declares symbols [] arrays

namespace Writer.Declares

variable {α β : Type} {symbols : SymbolTable} {own own' : List Variable} {arrays arrays' : List String}
  {w : Writer α} {f : α → Writer β}

/-- Steps that keep the variables and the numbers. -/
theorem still (h : ∀ {out a out'}, w out = .ok (a, out') → out.generated ≤ out'.generated ∧
    out'.sink.closed = out.sink.closed ∧ out'.variables? = out.variables?) : w.Indexes symbols [] where
  declared hrun := by
    obtain ⟨hle, hclosed, hvars⟩ := h hrun
    exact ⟨[], .nil hle, hclosed, by simp [hvars]⟩

theorem bind (hw : w.Indexes symbols arrays) (hf : ∀ a, (f a).Indexes symbols arrays') :
    (w >>= f).Indexes symbols (arrays ++ arrays') where
  declared h := by
    obtain ⟨a, mid, h₁, h₂⟩ := Writer.bind_ok_iff.1 h
    obtain ⟨vs, hvs, hclosed, hvars⟩ := hw.declared h₁
    obtain ⟨vs', hvs', hclosed', hvars'⟩ := (hf a).declared h₂
    refine ⟨vs ++ vs', hvs.append hvs', hclosed'.trans hclosed, ?_⟩
    simp only [hvars', hvars, Option.map_map, Function.comp_def, List.nil_append, List.append_assoc]

/-- In front of what the other steps declare. -/
theorem append (hw : w.Declares symbols own []) (hf : ∀ a, (f a).Declares symbols own' arrays) :
    (w >>= f).Declares symbols (own ++ own') arrays where
  declared h := by
    obtain ⟨a, mid, h₁, h₂⟩ := Writer.bind_ok_iff.1 h
    obtain ⟨vs, hvs, hclosed, hvars⟩ := hw.declared h₁
    obtain ⟨vs', hvs', hclosed', hvars'⟩ := (hf a).declared h₂
    cases hvs with
    | nil hle =>
      refine ⟨vs', hvs'.widen hle, hclosed'.trans hclosed, ?_⟩
      simp only [hvars', hvars, Option.map_map, Function.comp_def, List.append_nil, List.append_assoc]

/-- Behind steps that declare nothing. -/
theorem after (hw : w.Indexes symbols []) (hf : ∀ a, (f a).Indexes symbols arrays) :
    (w >>= f).Indexes symbols arrays :=
  hw.bind hf

/-- In front of steps that declare nothing. -/
theorem before (hw : w.Indexes symbols arrays) (hf : ∀ a, (f a).Indexes symbols []) :
    (w >>= f).Indexes symbols arrays := by
  rw [← List.append_nil arrays]
  exact hw.bind hf

theorem lift {x : Lowered α} (hf : ∀ a, x = .ok a → (f a).Indexes symbols arrays) :
    (liftM x >>= f).Indexes symbols arrays where
  declared h := by
    obtain ⟨a, mid, h₁, h₂⟩ := Writer.bind_ok_iff.1 h
    obtain ⟨hx, rfl⟩ := Writer.lift_ok_iff.1 h₁
    exact (hf a hx).declared h₂

theorem pure (a : α) : (Pure.pure a : Writer α).Indexes symbols [] :=
  still fun h => by
    obtain ⟨-, rfl⟩ := Writer.pure_ok_iff.1 h
    exact ⟨Nat.le_refl _, rfl, rfl⟩

theorem throw {e : LowerError} : (MonadExcept.throw e : Writer α).Indexes symbols arrays :=
  ⟨fun h => (Writer.throw_ok_iff.1 h).elim⟩

theorem throw_bind {e : LowerError} :
    ((MonadExcept.throw e : Writer α) >>= f).Indexes symbols arrays where
  declared h := by
    obtain ⟨a, mid, h, -⟩ := Writer.bind_ok_iff.1 h
    exact (Writer.throw_ok_iff.1 h).elim

theorem fresh {scope suffix : String} : (freshLabel scope suffix).Indexes symbols [] :=
  still fun h => by
    cases h
    exact ⟨Nat.le_succ _, rfl, rfl⟩

theorem frame {scope : String} {f : LoopFrame → Writer Unit}
    (hf : ∀ frame, (f frame).Indexes symbols arrays) :
    (freshFrame scope >>= f).Indexes symbols arrays := by
  simp only [freshFrame, bind_assoc, pure_bind]
  exact fresh.after fun _ => fresh.after fun _ => fresh.after fun _ => hf _

theorem forM {γ : Type} {f : γ → Writer Unit} {xs : List γ}
    (h : ∀ x ∈ xs, (f x).Indexes symbols []) : (xs.forM f).Indexes symbols [] := by
  induction xs with
  | nil => exact pure ()
  | cons x xs ih =>
    exact (h x List.mem_cons_self).after fun _ => ih fun y hy => h y (List.mem_cons_of_mem _ hy)

/-! ### Operations on the sink -/

theorem modifyBlock {f : OpenBlock → OpenBlock}
    (h : ∀ b, (f b).name = b.name ∧ (f b).vars = b.vars ++ own) :
    (perform (Sink.modifyBlock f)).Declares symbols own [] where
  declared hrun := by
    obtain ⟨b, hb, rfl⟩ := modifyBlock_ok hrun
    exact ⟨[], .nil (Nat.le_refl _), rfl, by simp [Output.variables?, hb, h]⟩

theorem untouched {f : OpenBlock → OpenBlock} (h : ∀ b, (f b).name = b.name ∧ (f b).vars = b.vars) :
    (perform (Sink.modifyBlock f)).Indexes symbols [] :=
  modifyBlock fun b => ⟨(h b).1, by simp [(h b).2]⟩

theorem label {name : String} {isSubroutine : Bool} :
    (perform (Sink.label name isSubroutine)).Indexes symbols [] :=
  still fun h => by
    obtain ⟨b, hb, -, rfl⟩ := label_ok h
    exact ⟨Nat.le_refl _, rfl, by simp [Output.variables?, hb]⟩

theorem place {name : String} : (placeLabel name).Indexes symbols [] := label

theorem removeLatest : (perform Sink.removeLatest).Indexes symbols [] :=
  still fun h => by
    obtain ⟨b, left, hb, -, rfl⟩ := removeLatest_taken h
    exact ⟨Nat.le_refl _, rfl, by simp [Output.variables?, hb]⟩

theorem pointer {name : String} {address : UInt16} {t : DataType} :
    (perform (Sink.pointer name address t)).Indexes symbols [] :=
  untouched fun _ => ⟨rfl, rfl⟩

theorem emit (code : Code) : (StackCode.emit code).Indexes symbols [] := by
  induction code with
  | nil =>
    refine still fun h => ?_
    simp only [StackCode.emit, List.forM, perform_ok_iff, SinkM.pure_ok_iff] at h
    obtain ⟨sink, ⟨-, rfl⟩, rfl⟩ := h
    exact ⟨Nat.le_refl _, rfl, rfl⟩
  | cons i code ih =>
    rw [emit_cons]
    have hfirst : (perform (Sink.instruction i)).Indexes symbols [] := untouched fun _ => ⟨rfl, rfl⟩
    exact hfirst.after fun _ => ih

theorem emitLowered {x : Lowered Code} : (StackCode.emitLowered x).Indexes symbols [] :=
  lift fun code _ => emit code

theorem mark {env : Environment} {position : Position} :
    (env.mark position).Indexes symbols [] := by
  unfold Environment.mark
  split
  · exact untouched fun _ => ⟨rfl, rfl⟩
  · exact pure ()

theorem close {name : String} : (closeAt name).Indexes symbols [] :=
  place.after fun _ => emit _

/-- The index that a loop makes up and declares, in front of the rest of the loop. -/
theorem index {array scope : String} {r : ElementRange} {f : String → Writer β}
    (hr : ElementRange.find symbols array = .ok r) (hf : ∀ index, (f index).Indexes symbols arrays) :
    (freshLabel scope "forloop_index" >>= fun index =>
      perform (Sink.declare index (.int r.indexType) .plain none) >>= fun _ => f index).Indexes symbols
      (array :: arrays) where
  declared {out _ _} h := by
    obtain ⟨index, mid, h₁, h⟩ := Writer.bind_ok_iff.1 h
    cases h₁
    obtain ⟨u, opened, h₂, h⟩ := Writer.bind_ok_iff.1 h
    obtain ⟨b, hb, rfl⟩ := modifyBlock_ok h₂
    obtain ⟨vs, hvs, hclosed, hvars⟩ := (hf _).declared h
    refine ⟨_ :: vs, .cons (Nat.lt_succ_self _) (ElementRange.find_hasIndex hr scope _) hvs, hclosed, ?_⟩
    rw [hvars]
    simp [Output.variables?, show out.sink.current = some b from hb]

end Writer.Declares
end StackCode
