/-
Steps that do the same whatever the numbers are. The steps are a family, one for each
count of names that were made up before, since they may have made-up names in them. They
are uniform if they take a draft to the same draft for every count, or fail in the same way.
-/
import StackCode.Proofs.Lowering.Unmarked
import StackCode.Proofs.Order.Form

namespace StackCode

/-- From this draft the steps fail in one way, or they lead to one other draft, whatever was in the sink
before. -/
def Draft.Leads {own : OwnNames} (d : Draft own) (w : Nat → Writer Unit) : Prop :=
  (∃ e : ErrorForm, ∀ n s, s.Admits own.names n → w n (d.output n s) = .error (e.numbered n)) ∨
  ∃ d' : Draft own, ∀ n s, s.Admits own.names n → w n (d.output n s) = .ok ((), d'.output n s)

/-- The steps do the same for every count of names that were made up before. -/
def Uniform (own : OwnNames) (w : Nat → Writer Unit) : Prop := ∀ d : Draft own, d.Leads w

namespace Uniform

variable {α : Type} {own : OwnNames} {w : Nat → Writer Unit}

/-- What the steps come to from a draft. -/
theorem ok {d : Draft own} (d' : Draft own)
    (h : ∀ n s, s.Admits own.names n → w n (d.output n s) = .ok ((), d'.output n s)) : d.Leads w :=
  .inr ⟨d', h⟩

theorem error {d : Draft own} (e : ErrorForm)
    (h : ∀ n s, s.Admits own.names n → w n (d.output n s) = .error (e.numbered n)) : d.Leads w :=
  .inl ⟨e, h⟩

theorem bind {f : Nat → Unit → Writer Unit} (hw : Uniform own w)
    (hf : ∀ u, Uniform own fun n => f n u) : Uniform own fun n => w n >>= f n := by
  intro d
  have hall : ∀ n out, (w n >>= f n) out = (w n out >>= fun r => f n r.1 r.2) := fun _ _ => rfl
  rcases hw d with ⟨e, he⟩ | ⟨mid, hmid⟩
  · exact error e fun n s hs => by rw [hall, he n s hs]; rfl
  · rcases hf () mid with ⟨e, he⟩ | ⟨d', hd⟩
    · exact error e fun n s hs => by rw [hall, hmid n s hs]; exact he n s hs
    · exact ok d' fun n s hs => by rw [hall, hmid n s hs]; exact hd n s hs

/-- What was made without the sink and without made-up names. -/
theorem lift {x : Lowered α} {f : Nat → α → Writer Unit}
    (hf : ∀ a, x = .ok a → Uniform own fun n => f n a) : Uniform own fun n => liftM x >>= f n := by
  cases x with
  | error e => exact fun _ => error (.fixed e) fun _ _ _ => rfl
  | ok a => exact hf a rfl

theorem pure : Uniform own fun _ => Pure.pure () := fun d => ok d fun _ _ _ => rfl

theorem throw {e : LowerError} : Uniform own fun _ => MonadExcept.throw e :=
  fun _ => error (.fixed e) fun _ _ _ => rfl

theorem throw_bind {e : LowerError} {f : Nat → α → Writer Unit} :
    Uniform own fun n => (MonadExcept.throw e : Writer α) >>= f n :=
  fun _ => error (.fixed e) fun _ _ _ => rfl

/-- A name that is made up has one form. -/
theorem fresh {scope suffix : String} {f : Nat → String → Writer Unit} (hs : IsPurpose suffix)
    (hf : ∀ x : NameForm, x.Valid own → Uniform own fun n => f n (x.numbered n)) :
    Uniform own fun n => freshLabel scope suffix >>= f n := fun d =>
  hf (.made scope suffix (d.count + 1)) ⟨hs, Nat.succ_pos _⟩
    ⟨d.block, d.labels, d.count + 1, d.valid⟩

theorem forM {γ : Type} {f : Nat → γ → Writer Unit} {xs : List γ}
    (h : ∀ x ∈ xs, Uniform own fun n => f n x) : Uniform own fun n => xs.forM (f n) := by
  induction xs with
  | nil => exact pure
  | cons x xs ih =>
    exact (h x List.mem_cons_self).bind fun _ => ih fun y hy => h y (List.mem_cons_of_mem _ hy)

/-! ## Operations on the sink -/

/-- A change of the open block that can be made in its form. -/
theorem modifyBlock {f : Nat → OpenBlock → OpenBlock}
    (h : ∀ b : BlockForm, ∃ b' : BlockForm, ∀ n, f n (b.numbered n) = b'.numbered n) :
    Uniform own fun n => perform (Sink.modifyBlock (f n)) := by
  intro d
  obtain ⟨b', hb'⟩ := h d.block
  refine ok ⟨b', d.labels, d.count, d.valid⟩ fun n s _ => ?_
  rw [perform_eq, Sink.modifyBlock_result (b := d.block.numbered n) rfl, hb']
  rfl

theorem write {e : Nat → Entry} (form : EntryForm) (h : ∀ n, e n = form.numbered n) :
    Uniform own fun n => perform (Sink.write (e n)) :=
  modifyBlock fun b => ⟨{ b with recent := form :: b.recent }, fun n => by rw [h]; rfl⟩

theorem emit {code : Nat → Code} (h : HasForm code) : Uniform own fun n => StackCode.emit (code n) := by
  obtain ⟨forms, hforms⟩ := h
  simp only [hforms]
  clear hforms
  induction forms with
  | nil => exact fun d => ok d fun _ _ _ => rfl
  | cons i forms ih =>
    simp only [List.map_cons, emit_cons]
    exact (write (.instruction i) fun _ => rfl).bind fun _ => ih

theorem emit_const (code : Code) : Uniform own fun _ => StackCode.emit code := emit (hasForm_const code)

theorem emitLowered (x : Lowered Code) : Uniform own fun _ => StackCode.emitLowered x :=
  lift fun code _ => emit_const code

theorem declare (x : NameForm) (t : DataType) (length : Option UInt16) :
    Uniform own fun n => perform (Sink.declare (x.numbered n) t .plain length) :=
  modifyBlock fun b => ⟨{ b with vars := b.vars ++ [⟨x, t, length⟩] }, fun n => by
    simp [BlockForm.numbered, VariableForm.numbered]⟩

theorem pointer (name : String) (address : UInt16) (t : DataType) :
    Uniform own fun _ => perform (Sink.pointer name address t) :=
  modifyBlock fun b => ⟨{ b with pointers := b.pointers ++ [⟨name, address, t⟩] }, fun _ => rfl⟩

/-- A marker takes the place of a marker, which an entry is or is not by its form. -/
theorem mark (env : Environment) (position : Position) : Uniform own fun _ => env.mark position := by
  unfold Environment.mark
  split
  · refine modifyBlock fun b => ?_
    generalize Sink.lineMarker position.line.toNat position.file = marker
    obtain ⟨name, address, options, vars, pointers, recent⟩ := b
    rcases recent with _ | ⟨last, rest⟩
    · exact ⟨⟨name, address, options, vars, pointers, [.instruction (.of marker)]⟩, fun n => by
        simp [BlockForm.numbered, Sink.mark]⟩
    · cases hline : last.isLine with
      | true => exact ⟨⟨name, address, options, vars, pointers, .instruction (.of marker) :: rest⟩,
          fun n => by simp [BlockForm.numbered, Sink.mark, hline]⟩
      | false =>
        exact ⟨⟨name, address, options, vars, pointers, .instruction (.of marker) :: last :: rest⟩,
          fun n => by simp [BlockForm.numbered, Sink.mark, hline]⟩
  · exact pure

/-- A label is placed, unless it is there already. The labels from before are not in the way, so that
only those of the draft decide. -/
theorem label {x : NameForm} (hx : x.Valid own) (isSubroutine : Bool) :
    Uniform own fun n => perform (Sink.label (x.numbered n) isSubroutine) := by
  intro d
  have hresult : ∀ n s, (Sink.label (x.numbered n) isSubroutine).result (d.output n s).sink = _ :=
    fun _ _ => Sink.label_result _ _ _
  by_cases hmem : x ∈ d.labels
  · refine error (.duplicate x) fun n s hs => ?_
    rw [perform_eq, hresult, if_pos ((Draft.mem_labels hs hx).2 hmem)]
    rfl
  · refine ok ⟨{ d.block with recent := .label x isSubroutine :: d.block.recent },
      x :: d.labels, d.count, List.forall_mem_cons.2 ⟨hx, d.valid⟩⟩ fun n s hs => ?_
    rw [perform_eq, hresult, if_neg (mt (Draft.mem_labels hs hx).1 hmem)]
    rfl

theorem place {x : NameForm} (hx : x.Valid own) : Uniform own fun n => placeLabel (x.numbered n) :=
  label hx false

theorem close {x : NameForm} (hx : x.Valid own) : Uniform own fun n => closeAt (x.numbered n) :=
  (place hx).bind fun _ => emit_const _

/-- Whether there is an instruction to take back, and where it stands, does not depend on the numbers. -/
theorem takeLatest (recent : List EntryForm) :
    (∀ n, Sink.takeLatest (recent.map (·.numbered n)) = none) ∨
    ∃ (taken : Nat → Instruction) (left : List EntryForm), ∀ n,
      Sink.takeLatest (recent.map (·.numbered n)) = some (taken n, left.map (·.numbered n)) := by
  induction recent with
  | nil => exact .inl fun _ => rfl
  | cons e recent ih =>
    cases e with
    | label name isSubroutine => exact .inl fun _ => rfl
    | instruction i =>
      cases hi : i.bare.isLine with
      | false => exact .inr ⟨(i.numbered ·), recent, fun n => by simp [Sink.takeLatest, hi]⟩
      | true =>
        rcases ih with hnone | ⟨taken, left, hsome⟩
        · exact .inl fun n => by simp [Sink.takeLatest, hi, hnone]
        · exact .inr ⟨taken, .instruction i :: left, fun n => by
            simp [Sink.takeLatest, hi, hsome]⟩

/-- An instruction is taken back, and what it was is forgotten. -/
theorem removeLatest {f : Nat → Writer Unit} (hf : Uniform own f) :
    Uniform own fun n => perform Sink.removeLatest >>= fun _ => f n := by
  intro d
  have hall : ∀ n out, (perform Sink.removeLatest >>= fun _ => f n) out =
      (perform Sink.removeLatest out >>= fun r => f n r.2) := fun _ _ => rfl
  have hcurrent : ∀ n s, (d.output n s).sink.current = some (d.block.numbered n) := fun _ _ => rfl
  rcases takeLatest d.block.recent with hnone | ⟨taken, left, hsome⟩
  · refine error (.fixed (.sink (.nothingToRemove d.block.name))) fun n s hs => ?_
    rw [hall, perform_eq, Sink.removeLatest_result, hcurrent]
    simp only [BlockForm.recent_numbered, hnone]
    rfl
  · let rest : Draft own := ⟨{ d.block with recent := left }, d.labels, d.count, d.valid⟩
    have htake : ∀ n s, (perform Sink.removeLatest >>= fun _ => f n) (d.output n s) =
        f n (rest.output n s) := fun n s => by
      rw [hall, perform_eq, Sink.removeLatest_result, hcurrent]
      simp only [BlockForm.recent_numbered, hsome]
      rfl
    rcases hf rest with ⟨e, he⟩ | ⟨d', hd⟩
    · exact error e fun n s hs => (htake n s).trans (he n s hs)
    · exact ok d' fun n s hs => (htake n s).trans (hd n s hs)

end Uniform
end StackCode
