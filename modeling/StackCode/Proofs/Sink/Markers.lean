/-
Line markers that stand in a row. A marker is put in place of a marker right before it, but an
instruction that stands between two markers can be taken back, and then they stand next to
each other. Nothing else brings markers together, and nothing takes them apart: a sequence of
operations leaves as many pairs of adjacent markers as there are instructions that it took back
from between two of them.
-/
import StackCode.Proofs.Sink.Failure
import Mathlib.Algebra.BigOperators.Group.List.Basic
import Mathlib.Algebra.GroupWithZero.Nat

namespace StackCode

/-! ## Pairs of markers -/

/-- How often a line marker stands right behind a line marker. -/
def markerPairs : List Entry → Nat
  | e :: e' :: rest => (if e.isLine ∧ e'.isLine then 1 else 0) + markerPairs (e' :: rest)
  | _ => 0

/-- Two line markers stand next to each other in the block. -/
def Block.HasAdjacentMarkers (b : Block) : Prop :=
  ∃ earlier first second later,
    b.entries = earlier ++ first :: second :: later ∧ first.isLine ∧ second.isLine

section Pairs

variable {e e' : Entry} {es es' : List Entry}

theorem markerPairs_cons_cons :
    markerPairs (e :: e' :: es) = (if e.isLine ∧ e'.isLine then 1 else 0) + markerPairs (e' :: es) :=
  rfl

theorem markerPairs_nil : markerPairs [] = 0 := rfl

theorem markerPairs_singleton (e : Entry) : markerPairs [e] = 0 := rfl

/-- In front of anything else nothing changes. -/
theorem markerPairs_cons (h : e.isLine = false) : markerPairs (e :: es) = markerPairs es := by
  cases es with
  | nil => rfl
  | cons e' es => simp [markerPairs_cons_cons, h]

theorem markerPairs_append_cons :
    markerPairs (es ++ e :: es') = markerPairs (es ++ [e]) + markerPairs (e :: es') := by
  induction es with
  | nil => simp [markerPairs_singleton]
  | cons x es ih =>
    cases es with
    | nil => simp [markerPairs_cons_cons, markerPairs_singleton]
    | cons y es =>
      simp only [List.cons_append, markerPairs_cons_cons] at ih ⊢
      omega

theorem markerPairs_reverse (es : List Entry) : markerPairs es.reverse = markerPairs es := by
  induction es with
  | nil => rfl
  | cons e es ih =>
    cases es with
    | nil => rfl
    | cons e' es =>
      simp only [List.reverse_cons, List.append_assoc, List.singleton_append] at ih ⊢
      have hpair : e'.isLine ∧ e.isLine ↔ e.isLine ∧ e'.isLine := and_comm
      simp only [markerPairs_append_cons, ih, markerPairs_cons_cons, markerPairs_singleton, hpair]
      omega

theorem markerPairs_pos_iff :
    0 < markerPairs es ↔ ∃ earlier first second later,
      es = earlier ++ first :: second :: later ∧ first.isLine ∧ second.isLine := by
  constructor
  · intro h
    induction es with
    | nil => cases h
    | cons e es ih =>
      cases es with
      | nil => cases h
      | cons e' es =>
        by_cases hpair : e.isLine ∧ e'.isLine
        · exact ⟨[], e, e', es, rfl, hpair⟩
        · rw [markerPairs_cons_cons, if_neg hpair, Nat.zero_add] at h
          obtain ⟨earlier, first, second, later, hes, hfirst, hsecond⟩ := ih h
          exact ⟨e :: earlier, first, second, later, by rw [hes, List.cons_append], hfirst, hsecond⟩
  · rintro ⟨earlier, first, second, later, rfl, hfirst, hsecond⟩
    rw [markerPairs_append_cons, markerPairs_cons_cons, if_pos ⟨hfirst, hsecond⟩]
    omega

end Pairs

/-! ## Where the latest instruction stands -/

/-- In a stream with the latest entry first, the latest instruction that is no line marker stands right
behind a marker, and no label stands behind it. -/
def isBehindMarker : List Entry → Bool
  | .instruction i :: rest => if i.isLine then isBehindMarker rest else rest.head?.any (·.isLine)
  | _ => false

/-- There is a marker right behind that instruction, too. -/
def isBetweenMarkers : List Entry → Bool
  | behind :: rest => behind.isLine && isBehindMarker rest
  | [] => false

/-- The instruction that would be taken back next stands between two line markers. -/
def Sink.TakesBetween (s : Sink) : Prop := ∃ b, s.current = some b ∧ isBetweenMarkers b.recent

instance (s : Sink) : Decidable s.TakesBetween :=
  match h : s.current with
  | none => isFalse fun ⟨b, hb, _⟩ => by rw [h] at hb; cases hb
  | some b => decidable_of_iff (isBetweenMarkers b.recent = true)
      ⟨fun hb => ⟨b, h, hb⟩, fun ⟨c, hc, hb⟩ => by rw [h] at hc; cases hc; exact hb⟩

/-! ## What one operation does -/

section Recent

variable {recent left : List Entry} {i marker : Instruction}

/-- A marker comes into the place of a marker, or behind something else. -/
theorem markerPairs_mark (hm : marker.isLine) :
    markerPairs (Sink.mark marker recent) = markerPairs recent := by
  have hmarker : (Entry.instruction marker).isLine := hm
  cases recent with
  | nil => rfl
  | cons last rest =>
    cases hlast : last.isLine with
    | false => simp [Sink.mark, hlast, markerPairs_cons_cons]
    | true =>
      cases rest with
      | nil => simp [Sink.mark, hlast, markerPairs_singleton]
      | cons e rest => simp [Sink.mark, hlast, hmarker, markerPairs_cons_cons]

theorem isBehindMarker_of_none (h : Sink.takeLatest recent = none) : isBehindMarker recent = false := by
  fun_induction isBehindMarker recent with
  | case1 i rest hi ih =>
    rw [Sink.takeLatest, if_pos hi, Option.map_eq_none_iff] at h
    exact ih h
  | case2 i rest hi =>
    rw [Sink.takeLatest, if_neg hi] at h
    cases h
  | case3 => rfl

/-- What is taken back from behind a marker. -/
theorem markerPairs_cons_takeLatest {e : Entry} (he : e.isLine)
    (h : Sink.takeLatest recent = some (i, left)) :
    markerPairs (e :: left) =
      markerPairs (e :: recent) + if isBehindMarker recent then 1 else 0 := by
  -- The marker `e` is general, since each marker that is looked past takes its place in turn.
  fun_induction isBehindMarker recent generalizing e left with
  | case1 j rest hj ih =>
    rw [Sink.takeLatest, if_pos hj, Option.map_eq_some_iff] at h
    obtain ⟨⟨taken, left'⟩, hrest, hleft⟩ := h
    cases hleft
    have hline : (Entry.instruction j).isLine := hj
    rw [markerPairs_cons_cons, markerPairs_cons_cons, ih hline hrest, Nat.add_assoc]
  | case2 j rest hj =>
    rw [Sink.takeLatest, if_neg hj] at h
    cases h
    have hno : (Entry.instruction i).isLine = false := eq_false_of_ne_true hj
    rw [markerPairs_cons_cons, if_neg (by simp [hno]), markerPairs_cons hno]
    cases rest with
    | nil => rfl
    | cons front rest =>
      rw [markerPairs_cons_cons, Nat.add_comm, Nat.zero_add]
      cases hfront : front.isLine <;> simp [he, hfront]
  | case3 recent hrecent =>
    cases recent with
    | nil => cases h
    | cons e rest =>
      cases e with
      | label => cases h
      | instruction j => exact absurd rfl (hrecent j rest)

/-- With an instruction that is taken back the markers on its two sides come together. -/
theorem markerPairs_takeLatest (h : Sink.takeLatest recent = some (i, left)) :
    markerPairs left = markerPairs recent + if isBetweenMarkers recent then 1 else 0 := by
  match recent with
  | [] | .label .. :: _ => cases h
  | .instruction j :: rest =>
    by_cases hj : j.isLine
    · rw [Sink.takeLatest, if_pos hj, Option.map_eq_some_iff] at h
      obtain ⟨⟨taken, left'⟩, hrest, hleft⟩ := h
      cases hleft
      have hline : (Entry.instruction j).isLine := hj
      simpa [isBetweenMarkers, hline] using markerPairs_cons_takeLatest hline hrest
    · rw [Sink.takeLatest, if_neg hj] at h
      cases h
      have hno : (Entry.instruction i).isLine = false := eq_false_of_ne_true hj
      simp [markerPairs_cons hno, isBetweenMarkers, hno]

theorem isBetweenMarkers_of_none (h : Sink.takeLatest recent = none) :
    isBetweenMarkers recent = false := by
  match recent with
  | [] | .label .. :: _ => rfl
  | .instruction j :: rest =>
    by_cases hj : j.isLine
    · rw [Sink.takeLatest, if_pos hj, Option.map_eq_none_iff] at h
      rw [isBetweenMarkers, isBehindMarker_of_none h, Bool.and_false]
    · rw [Sink.takeLatest, if_neg hj] at h
      cases h

end Recent

/-- The pairs of adjacent markers in all blocks. -/
def Sink.markerPairs (s : Sink) : Nat :=
  (s.program.blocks.map fun b => StackCode.markerPairs b.entries).sum

namespace Sink

variable {s : Sink}

theorem markerPairs_eq (s : Sink) :
    s.markerPairs = (s.closed.map fun b => StackCode.markerPairs b.entries).sum +
      (s.current.elim 0 fun b => StackCode.markerPairs b.recent) := by
  rw [markerPairs, program, List.map_append, List.sum_append, List.map_reverse, List.sum_reverse]
  cases s.current with
  | none => rfl
  | some b => simp [OpenBlock.close, markerPairs_reverse]

theorem markerPairs_pos_iff :
    0 < s.markerPairs ↔ ∃ b ∈ s.program.blocks, b.HasAdjacentMarkers := by
  simp only [markerPairs, List.sum_pos_iff_exists_pos_nat, List.mem_map, exists_exists_and_eq_and,
    StackCode.markerPairs_pos_iff, Block.HasAdjacentMarkers]

end Sink

namespace SinkOp

variable {op : SinkOp} {s : Sink}

/-- What edits the open block is a marker, or nothing that makes a difference to markers. -/
theorem edit_markerPairs {f : OpenBlock → OpenBlock} (hf : op.edit? = some f)
    (hop : ∀ i, op = instruction i → i.isLine = false) (b : OpenBlock) :
    markerPairs (f b).recent = markerPairs b.recent := by
  cases op with
  | declare name datatype storage length => cases storage <;> cases hf <;> rfl
  | pointer => cases hf; rfl
  | instruction i =>
    cases hf
    exact markerPairs_cons (hop i rfl)
  | line number file =>
    cases hf
    exact markerPairs_mark rfl
  | openBlock | label | removeLatest => cases hf

/-- An operation adds a pair if it takes back an instruction from between two markers. -/
theorem step_markerPairs (hop : ∀ i, op = instruction i → i.isLine = false) :
    (op.step s).2.markerPairs =
      s.markerPairs + if op = removeLatest ∧ s.TakesBetween then 1 else 0 := by
  rcases op.kinds with ⟨f, hf⟩ | ⟨_, _, _, rfl⟩ | ⟨_, _, rfl⟩ | rfl
  · have hno : op ≠ removeLatest := by
      rintro rfl
      cases hf
    rw [step_edit hf, if_neg fun h => hno h.1, Nat.add_zero]
    cases hs : s.current with
    | none => rfl
    | some b => simp [Sink.markerPairs_eq, hs, edit_markerPairs hf hop]
  · rw [step_openBlock, if_neg (by simp)]
    cases hs : s.current <;>
      simp [Sink.markerPairs_eq, hs, markerPairs_nil, markerPairs_reverse, OpenBlock.close,
        Nat.add_comm]
  · have hno (l isSubroutine) : label l isSubroutine ≠ removeLatest := nofun
    rw [if_neg fun h => hno _ _ h.1, Nat.add_zero, step_label]
    split
    · rfl
    · cases hs : s.current with
      | none => simp [Sink.markerPairs_eq, hs]
      | some b =>
        have hno (l isSubroutine) : (Entry.label l isSubroutine).isLine = false := rfl
        simp [Sink.markerPairs_eq, hs, markerPairs_cons (hno _ _)]
  · rw [step_removeLatest]
    cases hs : s.current with
    | none => simp [Sink.TakesBetween, hs]
    | some b =>
      cases htake : Sink.takeLatest b.recent with
      | none => simp [Sink.TakesBetween, hs, htake, isBetweenMarkers_of_none htake]
      | some taken =>
        simp [Sink.markerPairs_eq, Sink.TakesBetween, hs, htake, markerPairs_takeLatest htake,
          Nat.add_assoc]

end SinkOp

/-! ## What a sequence of operations does -/

/-- How often a sequence takes back an instruction from between two markers. -/
def Sink.joins (s : Sink) : List SinkOp → Nat
  | [] => 0
  | op :: ops =>
    (if op = .removeLatest ∧ s.TakesBetween then 1 else 0) + (op.step s).2.joins ops

namespace Sink

variable {s : Sink} {ops : List SinkOp}

theorem after_markerPairs (hops : ∀ i, .instruction i ∈ ops → i.isLine = false) :
    (s.after ops).markerPairs = s.markerPairs + s.joins ops := by
  induction ops generalizing s with
  | nil => rfl
  | cons op ops ih =>
    rw [after, joins, ih fun i hi => hops i (List.mem_cons_of_mem _ hi),
      SinkOp.step_markerPairs fun i hi => hops i (hi ▸ List.mem_cons_self), Nat.add_assoc]

theorem joins_pos_iff :
    0 < s.joins ops ↔ ∃ before later, ops = before ++ .removeLatest :: later ∧
      (s.after before).TakesBetween := by
  induction ops generalizing s with
  | nil => simp [joins]
  | cons op ops ih =>
    rw [joins, Nat.add_pos_iff_pos_or_pos, ih]
    constructor
    · rintro (h | ⟨before, later, rfl, htakes⟩)
      · by_cases hop : op = .removeLatest ∧ s.TakesBetween
        · obtain ⟨rfl, htakes⟩ := hop
          exact ⟨[], ops, rfl, htakes⟩
        · rw [if_neg hop] at h
          cases h
      · exact ⟨op :: before, later, rfl, htakes⟩
    · rintro ⟨before, later, hops, htakes⟩
      cases before with
      | nil =>
        cases hops
        exact .inl (by rw [if_pos ⟨rfl, htakes⟩]; exact Nat.one_pos)
      | cons _ before =>
        cases hops
        exact .inr ⟨before, later, rfl, htakes⟩

/-- **Without instructions that are markers themselves, markers come to stand next to each other just
where an instruction is taken back from between two of them.** There are as many pairs in the end. -/
theorem written_markerPairs {name : String} {loadAddress : Option UInt16}
    (hops : ∀ i, .instruction i ∈ ops → i.isLine = false) :
    (written name loadAddress ops).markerPairs = joins { name, loadAddress } ops ∧
    ((∃ b ∈ (written name loadAddress ops).program.blocks, b.HasAdjacentMarkers) ↔
      ∃ before later, ops = before ++ .removeLatest :: later ∧
        (written name loadAddress before).TakesBetween) := by
  have hpairs : (written name loadAddress ops).markerPairs = joins { name, loadAddress } ops := by
    rw [written, after_markerPairs hops]
    exact Nat.zero_add _
  refine ⟨hpairs, ?_⟩
  rw [← markerPairs_pos_iff, hpairs]
  exact joins_pos_iff

/-- The one instruction between two markers is taken back. -/
def takenBetween : List SinkOp :=
  [.openBlock "b" none [], .line 1 "m.p8", .instruction Opcode.nop.plain, .line 2 "m.p8", .removeLatest]

theorem takenBetween_markerPairs :
    (∀ i, .instruction i ∈ takenBetween → i.isLine = false) ∧
      ∃ b ∈ (written "p" none takenBetween).program.blocks, b.HasAdjacentMarkers := by
  have hops : ∀ i, .instruction i ∈ takenBetween → i.isLine = false := by
    simp [takenBetween, Opcode.plain, Instruction.isLine]
  exact ⟨hops, (written_markerPairs hops).2.2 ⟨takenBetween.dropLast, [], rfl, by decide⟩⟩

end Sink
end StackCode
