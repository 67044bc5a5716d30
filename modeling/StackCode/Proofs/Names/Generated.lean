/-
The names that lowering makes up. A name is the scope that it is made for, a mark, a
number and a purpose. The scope may be any text, also one with a mark in it, but no
purpose has a `<`: so the last one in a name starts its own mark, and the name says
which number it was made with.
-/
import StackCode.Lowering.Output
import Mathlib.Data.List.Basic

namespace StackCode

/-! ## Numbers -/

theorem notMem_toDigits {c : Char} (hc : c.isDigit = false) (n : Nat) : c ∉ Nat.toDigits 10 n :=
  fun h => by simp [Nat.isDigit_of_mem_toDigits (by decide) (by decide) h] at hc

theorem toDigits_inj {n n' : Nat} (h : Nat.toDigits 10 n = Nat.toDigits 10 n') : n = n' := by
  simpa using congrArg (fun ds => Nat.ofDigitChars 10 ds 0) h

/-! ## Cuts -/

variable {α : Type} {c : α} {xs xs' ys ys' : List α}

/-- Two texts that are cut at the last place where a character stands. -/
theorem eq_of_append_cons_eq (hy : c ∉ ys) (hy' : c ∉ ys') (h : xs ++ c :: ys = xs' ++ c :: ys') :
    xs = xs' ∧ ys = ys' := by
  have hlonger : ∀ {as bs ds : List α}, c ∉ bs → c :: bs = as ++ c :: ds → as = [] := by
    intro as bs ds hb has
    cases as with
    | nil => rfl
    | cons a as =>
      rw [List.cons_append, List.cons.injEq] at has
      exact absurd (has.2 ▸ List.mem_append_right _ List.mem_cons_self) hb
  rcases List.append_eq_append_iff.1 h with ⟨as, rfl, has⟩ | ⟨as, rfl, has⟩
  · obtain rfl := hlonger hy has
    simpa using has
  · obtain rfl := hlonger hy' has
    simpa [eq_comm] using has

/-- Two texts that are cut at the first place where a character stands. -/
theorem eq_of_cons_append_eq (hx : c ∉ xs) (hx' : c ∉ xs') (h : xs ++ c :: ys = xs' ++ c :: ys') :
    xs = xs' ∧ ys = ys' := by
  have hrev : ys.reverse ++ c :: xs.reverse = ys'.reverse ++ c :: xs'.reverse := by
    simpa using congrArg List.reverse h
  obtain ⟨hys, hxs⟩ := eq_of_append_cons_eq (by simpa using hx) (by simpa using hx') hrev
  exact ⟨List.reverse_inj.1 hxs, List.reverse_inj.1 hys⟩

/-! ## The parts of a name -/

/-- What a name can be made for. -/
def IsPurpose (suffix : String) : Prop := '<' ∉ suffix.toList

instance (suffix : String) : Decidable (IsPurpose suffix) :=
  inferInstanceAs (Decidable ('<' ∉ suffix.toList))

theorem IsPurpose.choice (n : Int) : IsPurpose s!"choice_{n}" := by
  have hdigits := fun n => notMem_toDigits (c := '<') (by decide) n
  cases n <;> simp [IsPurpose, toString, Int.repr, hdigits]

theorem labelName_toList (scope suffix : String) (n : Nat) :
    (labelName scope suffix n).toList = scope.toList ++ ['.'] ++ '<' ::
      (['s', '-'] ++ (Nat.toDigits 10 n ++ '-' :: (suffix.toList ++ ['>']))) := by
  simp [labelName, toString]

/-- **A generated name says what it was made from.** -/
theorem labelName_inj {scope scope' suffix suffix' : String} {n n' : Nat} (hs : IsPurpose suffix)
    (hs' : IsPurpose suffix') (h : labelName scope suffix n = labelName scope' suffix' n') :
    scope = scope' ∧ suffix = suffix' ∧ n = n' := by
  have htail : ∀ {suffix : String} (n : Nat), IsPurpose suffix →
      '<' ∉ ['s', '-'] ++ (Nat.toDigits 10 n ++ '-' :: (suffix.toList ++ ['>'])) := by
    intro suffix n hs
    simp only [IsPurpose] at hs
    simp [hs, notMem_toDigits]
  have hlist := congrArg String.toList h
  rw [labelName_toList, labelName_toList] at hlist
  obtain ⟨hscope, hrest⟩ := eq_of_append_cons_eq (htail n hs) (htail n' hs') hlist
  obtain ⟨hnumber, hsuffix⟩ := eq_of_cons_append_eq (notMem_toDigits (by decide) n)
    (notMem_toDigits (by decide) n') (List.append_cancel_left hrest)
  exact ⟨String.toList_inj.1 (List.append_cancel_right hscope),
    String.toList_inj.1 (List.append_cancel_right hsuffix), toDigits_inj hnumber⟩

end StackCode
