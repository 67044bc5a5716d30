/-
The names that a run makes up, in their order. A run that fails has made up names, too,
up to the place where it fails. What counts is the number in a name: the first name of
a run gets the number behind those that were made before, and so on, and so no two
names of a run are equal.
-/
import StackCode.Proofs.Lowering.Output
import StackCode.Proofs.Names.Generated

namespace StackCode

/-! ## Traces -/

/-- The steps, started here, make up these names, whether they come to their end or not. The names are
those that `freshLabel` returns, and nothing else makes up names. -/
inductive Writer.Makes : {α : Type} → Writer α → Output → List String → Prop
  | perform {α : Type} (op : SinkM α) (out : Output) : Makes (perform op) out []
  | lift {α : Type} (x : Lowered α) (out : Output) : Makes (liftM x) out []
  | fresh {scope suffix name : String} {out out' : Output}
    (h : freshLabel scope suffix out = .ok (name, out')) : Makes (freshLabel scope suffix) out [name]
  | bind_ok {α β : Type} {w : Writer α} {f : α → Writer β} {out mid : Output} {a : α}
    {made made' : List String} (h : Makes w out made) (hw : w out = .ok (a, mid))
    (h' : Makes (f a) mid made') : Makes (w >>= f) out (made ++ made')
  | bind_error {α β : Type} {w : Writer α} {f : α → Writer β} {out : Output} {e : LowerError}
    {made : List String} (h : Makes w out made) (hw : w out = .error e) : Makes (w >>= f) out made

/-! ## Numbers -/

/-- The names have the numbers behind this one, one after the other. -/
inductive Numbered : Nat → List String → Prop
  | nil (n : Nat) : Numbered n []
  | cons {n : Nat} {scope suffix : String} {made : List String} (hs : IsPurpose suffix)
    (h : Numbered (n + 1) made) : Numbered n (labelName scope suffix (n + 1) :: made)

/-- If the name is a made-up one, it was made with one of the first numbers. -/
def Known (n : Nat) (name : String) : Prop :=
  ∀ scope suffix m, IsPurpose suffix → name = labelName scope suffix m → m ≤ n

theorem Known.mono {n m : Nat} {name : String} (h : Known n name) (hnm : n ≤ m) : Known m name :=
  fun scope suffix k hs hname => Nat.le_trans (h scope suffix k hs hname) hnm

theorem known_labelName {scope suffix : String} {n : Nat} (hs : IsPurpose suffix) :
    Known n (labelName scope suffix n) := fun _ _ _ hs' h =>
  Nat.le_of_eq (labelName_inj hs hs' h).2.2.symm

/-- The next name is none of those that are known. -/
theorem not_known_succ {scope suffix : String} {n : Nat} (hs : IsPurpose suffix) :
    ¬ Known n (labelName scope suffix (n + 1)) := fun h =>
  absurd (h scope suffix (n + 1) hs rfl) (Nat.not_succ_le_self n)

namespace Numbered

variable {n : Nat} {made made' : List String} {name : String}

theorem append (h : Numbered n made) (h' : Numbered (n + made.length) made') :
    Numbered n (made ++ made') := by
  induction h with
  | nil => exact h'
  | cons hs _ ih =>
    refine .cons hs (ih ?_)
    rwa [List.length_cons, Nat.add_left_comm, Nat.add_comm] at h'

theorem known (h : Numbered n made) (hname : name ∈ made) : Known (n + made.length) name := by
  induction h with
  | nil => cases hname
  | cons hs _ ih =>
    rw [List.length_cons]
    rcases List.mem_cons.1 hname with rfl | hname
    · exact (known_labelName hs).mono (by omega)
    · exact (ih hname).mono (by omega)

theorem not_known (h : Numbered n made) (hname : name ∈ made) : ¬ Known n name := by
  induction h with
  | nil => cases hname
  | cons hs _ ih =>
    rcases List.mem_cons.1 hname with rfl | hname
    · exact not_known_succ hs
    · exact fun hknown => ih hname (hknown.mono (Nat.le_succ _))

theorem nodup (h : Numbered n made) : made.Nodup := by
  induction h with
  | nil => exact .nil
  | cons hs h ih => exact List.nodup_cons.2 ⟨fun hmem => h.not_known hmem (known_labelName hs), ih⟩

end Numbered
end StackCode
