/-
Loops over the elements of arrays and strings. The index counts from zero up to the length, and each round
starts with the element that the index finds, stored where the loop variable lives. The body need not keep its
hands off the index: no instruction outside of the loop's own start and end names it.
-/
import StackCode.Proofs.Counting.Calls
import StackCode.Proofs.Counting.Constant
import StackCode.Proofs.Storage.Fresh

namespace StackCode

/-! ## The text of a loop -/

/-- A loop over elements, with the text of its body. An element is converted to the type of the loop
variable, and stored where that one lives. -/
structure ElementLoop where
  range : ElementRange
  index : String
  frame : LoopFrame
  type : NumType
  convert : Option Opcode
  home : Home
  body : List Entry

namespace ElementLoop

/-- Behind the break label. -/
def exit : List Entry := [.instruction Opcode.nop.plain]

/-- Behind the jump back. -/
def leave (l : ElementLoop) : List Entry := .label l.frame.leave false :: exit

/-- Behind the continue label. -/
def next (l : ElementLoop) : List Entry :=
  (l.range.stepCode l.index l.frame.start).map .instruction ++ l.leave

/-- Steps the index, and compares it with the length. -/
def countCode (l : ElementLoop) : Code :=
  [(Opcode.stepVar .up (.int l.range.indexType)).named l.index] ++
    ([(Opcode.pushVar (.int l.range.indexType.size)).named l.index] ++
      [(Opcode.compare l.range.indexType).given (.wrapped l.range.indexType l.range.length.toNat)])

/-- From the start of a round on. -/
def entry (l : ElementLoop) : List Entry := l.body ++ .label l.frame.next false :: l.next

/-- Reads the element, and stores it. -/
def fetchCode (l : ElementLoop) : Code :=
  [(Opcode.pushVar (.int l.range.indexType.size)).named l.index] ++
    ([(Opcode.readIndexed l.range.element.size).named l.range.name] ++
      ((l.convert.map Opcode.plain).toList ++ [l.home.store l.type]))

/-- From the read of an element on. -/
def head (l : ElementLoop) : List Entry := l.fetchCode.map .instruction ++ l.entry

def text (l : ElementLoop) : List Entry :=
  (l.range.initCode l.index).map .instruction ++ .label l.frame.start false :: l.head

/-- An integer in the index. -/
def cell (l : ElementLoop) (n : Int) : Cell := .int l.range.indexType.size (.ofInt _ n)

/-- The index counts up to the length, and elements can be converted. -/
structure IsSound (l : ElementLoop) : Prop where
  length : l.range.length ≠ 0
  convert : (DataType.num l.range.element).widening (.num l.type) = .ok l.convert

/-- The loop is what has been written, and between its labels stands what its body writes. -/
structure IsLowered (l : ElementLoop) (symbols : SymbolTable) (register : Option Register)
    (variableName : Option String) (array scope : String) (body : LoopBody) (out out' : Output) : Prop
    extends l.IsSound where
  range : ElementRange.find symbols array = .ok l.range
  target : ∃ counter, Counter.find symbols register variableName = .ok (counter, .num l.type) ∧
    counter.home? symbols = some l.home
  index : ∃ n, l.index = indexName scope n
  writes : Writes out l.text out'
  body : ∃ start stop, body l.frame.labels start = .ok ((), stop) ∧ Writes start l.body stop

/-- The loop is the only one to name its index. Four of its own instructions do. -/
structure IsFresh (l : ElementLoop) (front back : List Entry) : Prop where
  outside : ∀ i, .instruction i ∈ front ++ (l.body ++ (exit ++ back)) → i.name? ≠ some l.index
  home : l.home ≠ .slot l.index

section Runs

variable {W : Type} (m : Memory W) (others : Instruction → Store W → Option (Store W)) (l : ElementLoop)
  (front back : List Entry)

/-- Where an element is read, and where a round starts. -/
def Watched (c : Point W) : Prop := c.text = l.head ++ back ∨ c.text = l.entry ++ back

/-- A place of the loop itself, in front of the body or behind it. -/
def IsOwn (c : Point W) : Prop :=
  (l.entry ++ back).length ≤ c.text.length ∧ c.text.length ≤ (l.text ++ back).length ∨
    (exit ++ back).length < c.text.length ∧ c.text.length < (l.next ++ back).length

def step? (c : Point W) : Option (Point W) := c.next? (m.act? others) (front ++ (l.text ++ back))

/-- The loop goes from one state to another, and in between it comes to these states where an element is read
or a round starts. -/
def Goes : Point W → List (Point W) → Point W → Prop := Comes (l.step? m others front back) (l.Watched back)

/-- Each round that is started comes to its end, since the body falls through or continues. On the way it
comes to no place of the loop itself. -/
def FinishesRounds (c : Point W) : Prop :=
  ∀ arrivals d, l.Goes m others front back c arrivals d → d.text = l.entry ++ back →
    ∃ e, Comes (l.step? m others front back) (l.IsOwn back) d [] e ∧ e.text = l.next ++ back

/-- A round: where its element is read, and where it starts. The index says which element, and the loop
variable has it, as a value of its own type. -/
structure IsRound (k : Nat) (r : Point W × Point W) : Prop where
  head : r.1.text = l.head ++ back
  entry : r.2.text = l.entry ++ back
  index : r.1.store.slots l.index = l.cell k
  element : ∃ v, (m.element r.1.store.rest l.range.name k).cast (.num l.type) = .ok v ∧
    l.home.cell m r.2.store = v.cell

end Runs

variable {W : Type} {m : Memory W} {others : Instruction → Store W → Option (Store W)} {l : ElementLoop}
  {front back : List Entry} {c d e : Point W} {arrivals : List (Point W)} {k : Nat}

/-! ## Labels and places -/

theorem head_suffix (l : ElementLoop) (front back : List Entry) :
    .label l.frame.start false :: (l.head ++ back) <:+ front ++ (l.text ++ back) := by
  rw [text, List.append_assoc, List.cons_append]
  exact (List.suffix_append _ _).trans (List.suffix_append front _)

theorem entry_suffix (l : ElementLoop) (front back : List Entry) :
    l.entry ++ back <:+ front ++ (l.text ++ back) := by
  have hhead : l.entry ++ back <:+ l.head ++ back := by
    rw [head, List.append_assoc]
    exact List.suffix_append _ _
  exact hhead.trans ((List.suffix_cons _ _).trans (l.head_suffix front back))

theorem entry_eq (l : ElementLoop) (back : List Entry) :
    l.entry ++ back = (l.body ++ [.label l.frame.next false]) ++ (l.next ++ back) := by
  simp [entry]

theorem next_suffix (l : ElementLoop) (back : List Entry) :
    .label l.frame.next false :: (l.next ++ back) <:+ l.entry ++ back := by
  rw [entry, List.append_assoc, List.cons_append]
  exact List.suffix_append _ _

theorem exit_suffix (l : ElementLoop) (back : List Entry) : exit ++ back <:+ l.next ++ back := by
  rw [next, leave, List.append_assoc, List.cons_append]
  exact (List.suffix_cons _ _).trans (List.suffix_append _ _)

theorem entriesBehind?_start (hlabels : (labelsOf (front ++ (l.text ++ back))).Nodup) :
    entriesBehind? l.frame.start (front ++ (l.text ++ back)) = some (l.head ++ back) :=
  entriesBehind?_of_suffix hlabels (l.head_suffix front back)

theorem entriesBehind?_next (hlabels : (labelsOf (front ++ (l.text ++ back))).Nodup) :
    entriesBehind? l.frame.next (front ++ (l.text ++ back)) = some (l.next ++ back) :=
  entriesBehind?_of_suffix hlabels ((l.next_suffix back).trans (l.entry_suffix front back))

theorem length_next (l : ElementLoop) (back : List Entry) :
    (l.next ++ back).length = (exit ++ back).length + 5 := by
  simp only [next, leave, exit, ElementRange.stepCode, List.length_append, List.length_map, List.length_cons,
    List.length_nil]
  omega

theorem length_next_lt (l : ElementLoop) (back : List Entry) :
    (l.next ++ back).length < (l.entry ++ back).length := by
  simp only [entry, List.length_append, List.length_cons]
  omega

theorem length_head (l : ElementLoop) (back : List Entry) :
    (l.entry ++ back).length + l.fetchCode.length = (l.head ++ back).length := by
  simp only [head, List.length_append, List.length_map]
  omega

theorem length_text_lt (l : ElementLoop) (back : List Entry) :
    (l.head ++ back).length < (l.text ++ back).length := by
  simp only [text, List.length_append, List.length_cons]
  omega

theorem length_of_watched (h : l.Watched back c) :
    c.text.length = (l.head ++ back).length ∨ c.text.length = (l.entry ++ back).length :=
  h.imp (congrArg List.length) (congrArg List.length)

/-- What is watched belongs to the loop itself. -/
theorem isOwn_of_watched (h : l.Watched back c) : l.IsOwn back c := by
  have hentry := l.length_head back
  have hhead := l.length_text_lt back
  left
  rcases length_of_watched h with hlen | hlen <;> omega

/-! ## The index -/

/-- The length decides how wide the index is. -/
theorem indexType_cases (l : ElementLoop) :
    l.range.indexType = .ubyte ∧ l.range.length.toNat ≤ 255 ∨
      l.range.indexType = .uword ∧ l.range.length.toNat ≤ 65535 := by
  unfold ElementRange.indexType
  split
  next hshort => exact .inl ⟨rfl, hshort⟩
  next => exact .inr ⟨rfl, Nat.le_of_lt_succ l.range.length.toNat_lt⟩

/-- The index holds the length, and so each number up to it. -/
theorem holds_index (l : ElementLoop) (hk : k ≤ l.range.length.toNat) : l.range.indexType.Holds k := by
  obtain ⟨htype, hlength⟩ | ⟨htype, hlength⟩ := l.indexType_cases <;> rw [htype]
  · exact ⟨Int.natCast_nonneg k, Int.ofNat_le.2 (Nat.le_trans hk hlength)⟩
  · exact ⟨Int.natCast_nonneg k, Int.ofNat_le.2 (Nat.le_trans hk hlength)⟩

theorem index_lt (l : ElementLoop) (hk : k ≤ l.range.length.toNat) : k < 2 ^ l.range.indexType.size.bits := by
  obtain ⟨htype, hlength⟩ | ⟨htype, hlength⟩ := l.indexType_cases <;> rw [htype]
  · exact Nat.lt_succ_of_le (Nat.le_trans hk hlength)
  · exact Nat.lt_succ_of_le (Nat.le_trans hk hlength)

/-! ## One round -/

theorem fetchCode_effects (h : l.IsSound) : ∀ i ∈ l.fetchCode, i.opcode.effect?.isSome :=
  Code.All.append (.single rfl) (.append (.single rfl)
    (.append (DataType.widening_effects h.convert) (.single (l.home.store_effect l.type))))

variable (others) in
/-- The element that the index finds is stored where the loop variable lives. -/
theorem fetch_run {s : Store W} (h : l.IsSound) (hhome : l.home ≠ .slot l.index)
    (helements : m.HasElements l.range.name l.range.element) (hk : k ≤ l.range.length.toNat)
    (hs : s.slots l.index = l.cell k) :
    ∃ v s', (m.element s.rest l.range.name k).cast (.num l.type) = .ok v ∧
      s.run (m.act? others) l.fetchCode = some s' ∧ l.home.cell m s' = v.cell ∧
      s'.slots l.index = l.cell k := by
  let element := m.element s.rest l.range.name k
  have helement : element.type = l.range.element := helements s.rest k
  obtain ⟨v, s₁, hcast, htype, hslots₁, hconvert⟩ :=
    Memory.run_convert m others s element (helement ▸ h.convert)
  obtain ⟨s₂, hstore, hcell, hslots₂⟩ := l.home.run_store m others s₁ v
  refine ⟨v, s₂, hcast, ?_, hcell, ?_⟩
  · rw [fetchCode, Store.run_append, Store.run_pushVar hs, Option.bind_some, Store.run_append,
      Memory.run_read helements (l.index_lt hk), Option.bind_some, Store.run_append, hconvert,
      Option.bind_some, ← htype]
    exact hstore
  · rw [hslots₂ l.index hhome, hslots₁, hs]

/-- The index is set to zero, and the first element is up. -/
theorem goes_start (hc : c.text = l.text ++ back) :
    ∃ d, l.Goes m others front back c [d] d ∧ d.text = l.head ++ back ∧ d.store.slots l.index = l.cell 0 := by
  obtain ⟨text, returns, s⟩ := c
  cases hc
  let s' := s.set l.index (l.cell 0)
  let labelled : Point W := ⟨.label l.frame.start false :: (l.head ++ back), returns, s'⟩
  let d : Point W := ⟨l.head ++ back, returns, s'⟩
  have hlen := l.length_head back
  have hrun : s.run (m.act? others) (l.range.initCode l.index) = some s' := by
    rw [ElementRange.initCode, Store.run_append, Store.run_push, Option.bind_some, Value.cell_wrapped]
    exact Store.run_popVar
  have hinit : l.Goes m others front back ⟨l.text ++ back, returns, s⟩ (noted (l.Watched back) labelled) labelled := by
    rw [ElementLoop.text, List.append_assoc, List.cons_append]
    refine .effects (Code.All.append (.single rfl) (.single rfl)) hrun (List.cons_ne_nil _ _) fun p hp => ?_
    have hp := length_of_watched hp
    rw [List.length_cons]
    omega
  have hunwatched : ¬ l.Watched back labelled := fun hw => by
    have hw := length_of_watched hw
    simp only [labelled, List.length_cons] at hw
    omega
  have hhead : l.Goes m others front back labelled (noted (l.Watched back) d) d := .one Point.next?_label
  rw [noted_of_not_marked hunwatched] at hinit
  rw [noted_of_marked (.inl rfl)] at hhead
  exact ⟨d, hinit.after hhead, rfl, Function.update_self ..⟩

/-- An element is read, and its round starts. -/
theorem goes_round (h : l.IsSound) (hhome : l.home ≠ .slot l.index)
    (helements : m.HasElements l.range.name l.range.element) (hk : k ≤ l.range.length.toNat)
    (hd : d.text = l.head ++ back) (hindex : d.store.slots l.index = l.cell k) :
    ∃ e, l.Goes m others front back d [e] e ∧ e.store.slots l.index = l.cell k ∧ l.IsRound m back k (d, e) := by
  obtain ⟨v, s', hcast, hrun, hcell, hs'⟩ := fetch_run others h hhome helements hk hindex
  obtain ⟨text, returns, s⟩ := d
  cases hd
  let e : Point W := ⟨l.entry ++ back, returns, s'⟩
  have hfetch : l.Goes m others front back ⟨l.head ++ back, returns, s⟩ (noted (l.Watched back) e) e := by
    rw [head, List.append_assoc]
    refine .effects (fetchCode_effects h) hrun (List.cons_ne_nil _ _) fun p hp => ?_
    have hp := length_of_watched hp
    have hlen := l.length_head back
    omega
  rw [noted_of_marked (.inr rfl)] at hfetch
  exact ⟨e, hfetch, hs', rfl, rfl, hindex, v, hcast, hcell⟩

theorem countCode_effects (l : ElementLoop) : ∀ i ∈ l.countCode, i.opcode.effect?.isSome :=
  Code.All.append (.single rfl) (.append (.single rfl) (.single rfl))

variable (m others) in
/-- The index is stepped, and the flags tell whether it has come to the length. -/
theorem count_run {s : Store W} (hk : k < l.range.length.toNat) (hs : s.slots l.index = l.cell k) :
    ∃ s', s.run (m.act? others) l.countCode = some s' ∧ s'.slots l.index = l.cell (k + 1) ∧
      (FlagTest.notZero.holds s'.flags = true ↔ k + 1 ≠ l.range.length.toNat) := by
  let t := l.range.indexType
  let difference : Int := k + 1 - l.range.length.toNat
  refine ⟨(s.count l.index t (k + 1)).tell (BitVec.ofInt t.size.bits difference), ?_, Store.count_slots, ?_⟩
  · rw [countCode, Store.run_append, Store.run_stepVar hs, Option.bind_some, Store.run_append,
      Store.run_pushVar Store.count_slots, Option.bind_some, Store.run_compare (Value.cell_wrapped ..)]
    rfl
  · have hzero := IntType.ofInt_sub_eq_zero (l.holds_index hk) (l.holds_index (Nat.le_refl _))
    rw [Int.natCast_inj, Int.natCast_succ] at hzero
    rw [ne_eq, ← hzero]
    exact bne_iff_ne

variable (m others) in
/-- Behind a round the index is stepped, and the next element is up unless it has come to the length. -/
theorem goes_on (hlabels : (labelsOf (front ++ (l.text ++ back))).Nodup) (hk : k < l.range.length.toNat)
    (hd : d.text = l.next ++ back) (hindex : d.store.slots l.index = l.cell k) :
    ∃ e, e.store.slots l.index = l.cell (k + 1) ∧
      if k + 1 = l.range.length.toNat then
        l.Goes m others front back d [] e ∧ e.text = exit ++ back
      else l.Goes m others front back d [e] e ∧ e.text = l.head ++ back := by
  obtain ⟨s', hrun, hslots, hflag⟩ := count_run m others hk hindex
  obtain ⟨text, returns, s⟩ := d
  cases hd
  let goBack : Instruction := (Opcode.branch .notZero).named l.frame.start
  let counted : Point W := ⟨.instruction goBack :: (l.leave ++ back), returns, s'⟩
  have hlength := l.length_next back
  have hentry := l.length_next_lt back
  have hhead := l.length_head back
  -- Neither of the places that are watched is so near to the end of the loop.
  have hunwatched {p : Point W} (hp : p.text.length ≤ (exit ++ back).length + 2) : ¬ l.Watched back p :=
    fun hw => by
      have hw := length_of_watched hw
      omega
  have hcount : l.Goes m others front back ⟨l.next ++ back, returns, s⟩ (noted (l.Watched back) counted) counted := by
    have hnext : l.next ++ back = l.countCode.map .instruction ++ counted.text := rfl
    rw [hnext] at hentry ⊢
    refine .effects l.countCode_effects hrun (List.cons_ne_nil _ _) fun p hp => .inr ?_
    have hp := length_of_watched hp
    rw [List.length_append, List.length_map] at hentry
    omega
  rw [noted_of_not_marked (hunwatched (Nat.le_refl _))] at hcount
  have hbranch := Point.next?_branch (m.act? others) .notZero (l.leave ++ back) returns s'
    (entriesBehind?_start hlabels)
  by_cases hlast : k + 1 = l.range.length.toNat
  · rw [if_neg (fun hholds => hflag.1 hholds hlast)] at hbranch
    refine ⟨⟨exit ++ back, returns, s'⟩, hslots, ?_⟩
    rw [if_pos hlast]
    have hleave : l.Goes m others front back counted [] ⟨l.leave ++ back, returns, s'⟩ :=
      .pass hbranch (hunwatched (Nat.le_succ _))
    have hexit : l.Goes m others front back ⟨l.leave ++ back, returns, s'⟩ [] ⟨exit ++ back, returns, s'⟩ :=
      .pass Point.next?_label (hunwatched (Nat.le_add_right _ 2))
    exact ⟨hcount.after (hleave.after hexit), rfl⟩
  · rw [if_pos (hflag.2 hlast)] at hbranch
    refine ⟨⟨l.head ++ back, returns, s'⟩, hslots, ?_⟩
    rw [if_neg hlast]
    have hback : l.Goes m others front back counted (noted (l.Watched back) ⟨l.head ++ back, returns, s'⟩) _ :=
      .one hbranch
    rw [noted_of_marked (.inl rfl)] at hback
    exact ⟨hcount.after hback, rfl⟩

/-! ## The body -/

/-- Behind the body the loop itself goes on. -/
theorem isOwn_of_next (hc : c.text = l.next ++ back) (h : l.step? m others front back c = some d) :
    l.IsOwn back d := by
  obtain ⟨text, returns, s⟩ := c
  cases hc
  have hlength := l.length_next back
  let count : Instruction := (Opcode.stepVar .up (.int l.range.indexType)).named l.index
  have hnext : l.next ++ back = .instruction count :: (l.next ++ back).tail := rfl
  have hcount : count.opcode.effect?.isSome := rfl
  have hstep := Point.next?_effect (m.act? others) (front ++ (l.text ++ back)) (l.next ++ back).tail returns s hcount
  rw [← hnext] at hstep
  obtain ⟨s', -, rfl⟩ := Option.map_eq_some_iff.1 (hstep.symm.trans h)
  right
  rw [List.length_tail]
  omega

/-- An end of a text that is longer than its second part starts in the first one. -/
theorem mem_of_suffix {α : Type} {x : α} {xs ys rest : List α} (h : x :: rest <:+ xs ++ ys)
    (hlen : ys.length < (x :: rest).length) : x ∈ xs := by
  obtain ⟨q, hq⟩ := List.suffix_of_suffix_length_le (List.suffix_append xs ys) h (Nat.le_of_lt hlen)
  obtain ⟨front, hfront⟩ := h
  cases q with
  | nil => exact absurd (congrArg List.length hq) (Nat.ne_of_lt hlen)
  | cons y q =>
    obtain ⟨rfl, -⟩ := List.cons.inj hq
    rw [← hq, ← List.append_assoc] at hfront
    rw [← List.append_cancel_right hfront]
    exact List.mem_append_right _ List.mem_cons_self

/-- Elsewhere in the program, and at the start of a round, no instruction names the index. Behind the body the
loop itself does. -/
theorem front_quiet (hfresh : l.IsFresh front back) (hc : c.IsIn (front ++ (l.text ++ back)))
    (hplace : ¬ l.IsOwn back c ∨ c.text = l.entry ++ back)
    (hnext : c.text.length ≠ (l.next ++ back).length) {i : Instruction} {rest : List Entry}
    (hi : c.text = .instruction i :: rest) : i.name? ≠ some l.index := by
  have hentry := l.length_head back
  have hhead := l.length_text_lt back
  have hnextlt := l.length_next_lt back
  have hsuffix := hc.text
  have hown : (l.text ++ back).length < c.text.length ∨
      (l.next ++ back).length < c.text.length ∧ c.text.length ≤ (l.entry ++ back).length ∨
      c.text.length ≤ (exit ++ back).length := by
    rcases hplace with hplace | htext
    · unfold IsOwn at hplace
      omega
    · rw [htext]
      omega
  refine hfresh.outside i ?_
  rw [hi] at hsuffix hown
  rcases hown with hfront | ⟨hlo, hhi⟩ | hback
  · exact List.mem_append_left _ (mem_of_suffix hsuffix hfront)
  · have hinside := List.suffix_of_suffix_length_le hsuffix (l.entry_suffix front back) hhi
    rw [l.entry_eq back] at hinside
    have hbody : Entry.instruction i ∈ l.body := by
      simpa using List.mem_append.1 (mem_of_suffix hinside hlo)
    exact List.mem_append_right _ (List.mem_append_left _ hbody)
  · have hexit : exit ++ back <:+ front ++ (l.text ++ back) :=
      (l.exit_suffix back).trans ((List.suffix_cons _ _).trans
        ((l.next_suffix back).trans (l.entry_suffix front back)))
    have hbehind := (List.suffix_of_suffix_length_le hsuffix hexit hback).subset List.mem_cons_self
    exact List.mem_append_right _ (List.mem_append_right _ hbehind)

/-- **The body leaves the index alone**, whatever else it does. -/
theorem index_kept (hothers : LeavesAlone (m.act? others) l.index) (hfresh : l.IsFresh front back)
    (h : Comes (l.step? m others front back) (l.IsOwn back) c arrivals d) (hnone : arrivals = [])
    (hc : c.IsIn (front ++ (l.text ++ back))) (hplace : ¬ l.IsOwn back c ∨ c.text = l.entry ++ back) :
    d.store.slots l.index = c.store.slots l.index := by
  induction h with
  | refl => rfl
  | @step c c' d arrivals hstep _ ih =>
    obtain ⟨hown, hrest⟩ := List.append_eq_nil_iff.1 hnone
    have hunmarked : ¬ l.IsOwn back c' := fun hm => by simp [noted_of_marked hm] at hown
    have hnext : c.text.length ≠ (l.next ++ back).length := fun hlen => by
      have htext : c.text = l.next ++ back :=
        (List.suffix_of_suffix_length_le hc.text ((List.suffix_cons _ _).trans
          ((l.next_suffix back).trans (l.entry_suffix front back))) (Nat.le_of_eq hlen)).eq_of_length hlen
      exact hunmarked (isOwn_of_next htext hstep)
    rw [ih hrest (Point.next?_isIn hstep hc) (.inl hunmarked)]
    exact Point.next?_alone hothers hstep fun i rest hi => front_quiet hfresh hc hplace hnext hi

/-! ## All rounds -/

/-- What is assumed of the program around the loop, of the machine, and of the state in which it starts. -/
structure Runs (m : Memory W) (others : Instruction → Store W → Option (Store W)) (l : ElementLoop)
    (front back : List Entry) (c : Point W) : Prop where
  sound : l.IsSound
  labels : (labelsOf (front ++ (l.text ++ back))).Nodup
  fresh : l.IsFresh front back
  alone : LeavesAlone others l.index
  elements : m.HasElements l.range.name l.range.element
  isIn : c.IsIn (front ++ (l.text ++ back))
  body : l.FinishesRounds m others front back c

/-- A round from where its element is read up to where the index is stepped. -/
theorem goes_body (h : Runs m others l front back c) (hk : k ≤ l.range.length.toNat)
    (hcome : l.Goes m others front back c arrivals d) (hd : d.text = l.head ++ back)
    (hindex : d.store.slots l.index = l.cell k) :
    ∃ e e', l.Goes m others front back d [e] e' ∧ l.IsRound m back k (d, e) ∧ e'.text = l.next ++ back ∧
      e'.store.slots l.index = l.cell k := by
  obtain ⟨e, hround, he, hisRound⟩ : ∃ e, l.Goes m others front back d [e] e ∧ _ ∧ l.IsRound m back k (d, e) :=
    goes_round h.sound h.fresh.home h.elements hk hd hindex
  have hentered := hcome.trans hround
  obtain ⟨e', hfinish, htext⟩ := h.body _ e hentered hisRound.entry
  have hkept := index_kept (Memory.leavesAlone h.alone) h.fresh hfinish rfl (hentered.isIn h.isIn)
    (.inr hisRound.entry)
  refine ⟨e, e', hround.trans (hfinish.of_fewer (fun _ => isOwn_of_watched) rfl), hisRound, htext, ?_⟩
  rw [hkept, he]

/-- The rounds that are left, by induction on how many come behind the next one. -/
theorem goes_rounds (h : Runs m others l front back c) (left : Nat) (hk : k + left + 1 = l.range.length.toNat)
    (hcome : l.Goes m others front back c arrivals d) (hd : d.text = l.head ++ back)
    (hindex : d.store.slots l.index = l.cell k) :
    ∃ (e last : Point W) (rounds : List (Point W × Point W)),
      l.Goes m others front back d (e :: rounds.flatMap fun r => [r.1, r.2]) last ∧
      last.text = exit ++ back ∧ rounds.length = left ∧ l.IsRound m back k (d, e) ∧
      ∀ j (hj : j < rounds.length), l.IsRound m back (k + 1 + j) rounds[j] := by
  induction left generalizing k d arrivals with
  | zero =>
    obtain ⟨e, e', hround, hisRound, htext, he'⟩ := goes_body h (by omega) hcome hd hindex
    obtain ⟨last, -, hon⟩ := goes_on m others h.labels (by omega) htext he'
    rw [if_pos (by omega)] at hon
    exact ⟨e, last, [], hround.trans hon.1, hon.2, rfl, hisRound, nofun⟩
  | succ left ih =>
    obtain ⟨e, e', hround, hisRound, htext, he'⟩ := goes_body h (by omega) hcome hd hindex
    obtain ⟨d', hd', hon⟩ := goes_on m others h.labels (by omega) htext he'
    rw [if_neg (by omega)] at hon
    have hgone := hround.trans hon.1
    obtain ⟨e'', last, rounds, hrest, hlast, hlength, hnext, hrounds⟩ :=
      ih (k := k + 1) (by omega) (hcome.trans hgone) hon.2 hd'
    refine ⟨e, last, (d', e'') :: rounds, hgone.trans hrest, hlast, congrArg (· + 1) hlength, hisRound,
      fun j hj => ?_⟩
    cases j with
    | zero => exact hnext
    | succ j =>
      have hround := hrounds j (Nat.lt_of_succ_lt_succ hj)
      rw [Nat.add_assoc (k + 1), Nat.add_comm 1 j] at hround
      exact hround

/-- **The loop goes through its elements**, one round for each of them. -/
theorem goes_all (h : Runs m others l front back c) (hc : c.text = l.text ++ back) :
    ∃ (rounds : List (Point W × Point W)) (last : Point W), rounds.length = l.range.length.toNat ∧
      l.Goes m others front back c (rounds.flatMap fun r => [r.1, r.2]) last ∧ last.text = exit ++ back ∧
      ∀ k (hk : k < rounds.length), l.IsRound m back k rounds[k] := by
  obtain ⟨left, hleft⟩ : ∃ left, 0 + left + 1 = l.range.length.toNat := by
    have hne : l.range.length.toNat ≠ 0 := fun h0 => h.sound.length (UInt16.toNat_inj.1 h0)
    exact ⟨l.range.length.toNat - 1, by omega⟩
  obtain ⟨d, hstart, hd, hindex⟩ : ∃ d, l.Goes m others front back c [d] d ∧ _ := goes_start hc
  obtain ⟨e, last, rounds, hrounds, hlast, hlength, hfirst, hothers⟩ := goes_rounds h left hleft hstart hd hindex
  refine ⟨(d, e) :: rounds, last, ?_, hstart.trans hrounds, hlast, fun k hk => ?_⟩
  · rw [List.length_cons, hlength]
    omega
  · cases k with
    | zero => exact hfirst
    | succ k =>
      have hround := hothers k (Nat.lt_of_succ_lt_succ hk)
      rw [Nat.zero_add, Nat.add_comm] at hround
      exact hround

/-! ## What is lowered -/

/-- An element is read by the index, converted, and stored. -/
theorem fetchCode_ok {symbols : SymbolTable} {register : Option Register} {variableName : Option String}
    {array index : String} {r : ElementRange} {counter : Counter} {t : DataType} {code : Code}
    (hr : ElementRange.find symbols array = .ok r)
    (hfind : Counter.find symbols register variableName = .ok (counter, t))
    (h : r.fetchCode symbols index counter t = .ok code) :
    ∃ type convert home, t = .num type ∧ (DataType.num r.element).widening (.num type) = .ok convert ∧
      counter.home? symbols = some home ∧
      code = [(Opcode.pushVar (.int r.indexType.size)).named index] ++
        ([(Opcode.readIndexed r.element.size).named r.name] ++
          ((convert.map Opcode.plain).toList ++ [home.store type])) := by
  simp only [ElementRange.fetchCode, Lowered.bind_ok_iff, Lowered.pure_ok_iff, Opcode.readIndexedFor,
    orInvalid_ok_iff] at h
  obtain ⟨read, hread, convert, hconvert, store, hstore, rfl⟩ := h
  rw [(ElementRange.find_ok hr).1] at hread
  cases hread
  obtain ⟨type, rfl⟩ := DataType.widening_num hconvert
  obtain ⟨home, hhome, rfl⟩ := Counter.write_ok hfind hstore
  exact ⟨type, convert, home, rfl, hconvert, hhome, by simp⟩

/-- A loop over elements, once it is lowered. -/
theorem exists_isLowered {env : Environment} {register : Option Register} {variableName : Option String}
    {array scope : String} {position : Position} {body : LoopBody} {part : LoopLabels → Part}
    (hb : ∀ labels, (body labels).Adds (part labels)) {out out' : Output} {v : Unit}
    (h : forLoop env register variableName (.var array) scope position body out = .ok (v, out')) :
    ∃ l : ElementLoop, l.IsLowered env.symbols register variableName array scope body out out' := by
  simp only [forLoop, Writer.bind_ok_iff, Writer.lift_ok_iff] at h
  obtain ⟨_, _, hmark, ⟨counter, t⟩, _, ⟨hfind, rfl⟩, h⟩ := h
  dsimp only at h
  unfold elementLoop at h
  split at h
  · obtain ⟨_, _, h, -⟩ := Writer.bind_ok_iff.1 h
    exact (Writer.throw_ok_iff.1 h).elim
  · simp only [Writer.bind_ok_iff, Writer.lift_ok_iff, emitLowered_ok_iff] at h
    obtain ⟨r, _, ⟨hr, rfl⟩, index, _, hindex, _, _, hdeclare, frame, _, hframe, _, _, hinit, _, _, hstart,
      _, _, ⟨code, hcode, hfetch⟩, _, _, hbody, _, _, hnext, _, _, hstep, hleave⟩ := h
    have hstraight := ElementRange.fetchCode_straight code hcode
    obtain ⟨type, convert, home, rfl, hconvert, hhome, rfl⟩ := fetchCode_ok hr hfind hcode
    obtain ⟨hname, hquiet, -⟩ := freshLabel_ok hindex
    obtain ⟨ps, -, hround⟩ := (hb frame.labels).writes hbody
    obtain ⟨_, ⟨rfl, -⟩, hexit⟩ := Writer.Adds.close.writes hleave
    have hinit := (emit_appends ElementRange.initCode_straight.unmarked hinit).toWrites
    have hfetch := (emit_appends hstraight.unmarked hfetch).toWrites
    have hstep := (emit_appends ElementRange.stepCode_unmarked hstep).toWrites
    have hnames := (mark_appends hmark).toWrites.append
      (hquiet.append ((declare_appends hdeclare).toWrites.append (freshFrame_writes hframe)))
    have hbefore := hnames.append (hinit.append ((label_appends hstart).toWrites.append hfetch))
    have hafter := (label_appends hnext).toWrites.append (hstep.append hexit)
    let l : ElementLoop := { range := r, index, frame, type, convert, home, body := entriesOf ps }
    refine ⟨l, ⟨⟨(ElementRange.find_name hr).2.1, hconvert⟩, hr, ⟨counter, hfind, hhome⟩, ⟨_, hname⟩, ?_,
      _, _, hbody, hround⟩⟩
    simpa [l, text, head, entry, next, leave, exit, fetchCode, entriesOf, Piece.entries, Piece.label,
      Piece.op] using hbefore.append (hround.append hafter)

/-! ## Names -/

/-- Where the index is named four times at most, the loop's own instructions are those that name it. -/
theorem isFresh_of_count (hcount : (namesOf (front ++ (l.text ++ back))).count l.index ≤ 4) :
    l.IsFresh front back := by
  have hfetch : namesOf (l.fetchCode.map .instruction) = [l.index, l.range.name] ++
      (namesOf ((l.convert.map Opcode.plain).toList.map .instruction) ++
        namesOf [.instruction (l.home.store l.type)]) := by
    simp only [fetchCode, List.map_append, namesOf_append]
    rfl
  have htext : namesOf (front ++ (l.text ++ back)) = namesOf front ++ (([l.index] ++ ([l.index, l.range.name] ++
      (namesOf ((l.convert.map Opcode.plain).toList.map .instruction) ++
        namesOf [.instruction (l.home.store l.type)]))) ++
      ((namesOf l.body ++ [l.index, l.index, l.frame.start]) ++ namesOf back)) := by
    have hexit : namesOf exit = [] := rfl
    simp only [text, head, entry, next, leave, namesOf_append, namesOf_label, hfetch, hexit,
      ElementRange.namesOf_initCode, ElementRange.namesOf_stepCode, List.append_nil, List.append_assoc]
  have hread : 1 ≤ [l.index, l.range.name].count l.index := List.count_pos_iff.2 List.mem_cons_self
  have hstep : 2 ≤ [l.index, l.index, l.frame.start].count l.index := by
    rw [List.count_cons_self, List.count_cons_self]
    exact Nat.le_add_left ..
  rw [htext] at hcount
  simp only [List.count_append, List.count_singleton_self] at hcount
  have hfront : (namesOf front).count l.index = 0 := by omega
  have hbody : (namesOf l.body).count l.index = 0 := by omega
  have hback : (namesOf back).count l.index = 0 := by omega
  have hstore : (namesOf [.instruction (l.home.store l.type)]).count l.index = 0 := by omega
  have houtside : l.index ∉ namesOf (front ++ (l.body ++ (exit ++ back))) := by
    have hexit : namesOf exit = [] := rfl
    simp only [namesOf_append, hexit, List.mem_append, not_or, List.nil_append]
    exact ⟨List.count_eq_zero.1 hfront, List.count_eq_zero.1 hbody, List.count_eq_zero.1 hback⟩
  refine ⟨fun i hi hname => houtside (mem_namesOf.2 ⟨i, hi, hname⟩), fun hhome => ?_⟩
  have hmem : l.index ∈ namesOf [.instruction (l.home.store l.type)] := by
    rw [hhome]
    exact List.mem_cons_self
  exact List.count_eq_zero.1 hstore hmem

/-! ## Rounds that are skipped -/

/-- Rounds that are skipped come to their end. -/
theorem finishesRounds_of_skip (hlabels : (labelsOf (front ++ (l.text ++ back))).Nodup)
    (hbody : l.body = [.instruction (Opcode.jump.named l.frame.next)]) :
    l.FinishesRounds m others front back c := fun arrivals d _ hd => by
  obtain ⟨text, returns, s⟩ := d
  obtain rfl : text = l.entry ++ back := hd
  have hunmarked : ¬ l.IsOwn back ⟨l.next ++ back, returns, s⟩ := fun hown => by
    have hlen := l.length_next_lt back
    simp only [IsOwn] at hown
    omega
  have hentry : l.entry ++ back = .instruction (Opcode.jump.named l.frame.next) ::
      .label l.frame.next false :: (l.next ++ back) := by
    simp [entry, hbody]
  refine ⟨⟨l.next ++ back, returns, s⟩, .pass ?_ hunmarked, rfl⟩
  rw [hentry]
  simp only [step?, Point.next?, Point.stay?, advance?, follow?, goal?, Opcode.named, Option.bind_some,
    entriesBehind?_next hlabels, Option.map_some, if_true]

end ElementLoop

/-- **A loop over elements goes through each of them once.** For as many rounds as there are elements the body
runs, each time with the next one in the loop variable, as a value of the type of that variable; then the
loop comes to its break label. The index holds each number up to the length, and in the whole program no
instruction but those of the loop's own start and end names it. This is so for each program whose names do not
look like made-up ones and for each body whose rounds come to their end without entering the loop again, as a
recursive call would. -/
theorem elementLoop_visits {t : Tree} {configuration : Configuration} {loader : IncludeLoader} {p : Program}
    (hprogram : t.program configuration loader = .ok p) (hplain : (SymbolTable.ofTree t).IsPlain)
    (hown : t.HasOwnTargets) {env : Environment} {ctx : Context} {s : Scope} {register : Option Register}
    {variableName : Option String} {array scope : String} {position : Position} {out out' : Output} {u : Unit}
    (henv : env.symbols = SymbolTable.ofTree t)
    (h : forLoop env register variableName (.var array) scope position
      (fun labels => s.lower env (ctx.inLoop labels)) out = .ok (u, out')) :
    ∃ l : ElementLoop,
      l.IsLowered (SymbolTable.ofTree t) register variableName array scope
        (fun labels => s.lower env (ctx.inLoop labels)) out out' ∧
      (∀ k ≤ l.range.length.toNat, l.range.indexType.Holds k) ∧
      ∀ front back, p.text = front ++ (l.text ++ back) →
        (∀ i, .instruction i ∈ front ++ (l.body ++ (ElementLoop.exit ++ back)) → i.name? ≠ some l.index) ∧
        ∀ (W : Type) (m : Memory W) (others : Instruction → Store W → Option (Store W)) (c : Point W),
          LeavesAlone others l.index → m.HasElements array l.range.element →
          c.text = l.text ++ back → (∀ place ∈ c.returns, place <:+ p.text) →
          l.FinishesRounds m others front back c →
          ∃ (rounds : List (Point W × Point W)) (last : Point W), rounds.length = l.range.length.toNat ∧
            l.Goes m others front back c (rounds.flatMap fun r => [r.1, r.2]) last ∧
            last.text = ElementLoop.exit ++ back ∧
            ∀ k (hk : k < rounds.length), l.IsRound m back k rounds[k] := by
  obtain ⟨l, hl⟩ := ElementLoop.exists_isLowered (fun labels => s.lower_adds env (ctx.inLoop labels)) h
  rw [henv] at hl
  refine ⟨l, hl, fun k hk => l.holds_index hk, fun front back htext => ?_⟩
  have hfresh : l.IsFresh front back := by
    obtain ⟨n, hindex⟩ := hl.index
    refine ElementLoop.isFresh_of_count ?_
    rw [← htext, hindex]
    exact Tree.count_index_le hplain hown hprogram scope n
  have hlabels : (labelsOf (front ++ (l.text ++ back))).Nodup := by
    rw [← htext, Program.labelsOf_text]
    exact Tree.lower_labels_nodup hprogram
  refine ⟨hfresh.outside, fun W m others c halone helements hc hreturns hbody => ?_⟩
  have hisIn : c.IsIn (front ++ (l.text ++ back)) :=
    ⟨hc ▸ List.suffix_append front _, htext ▸ hreturns⟩
  have harray : l.range.name = array := (ElementRange.find_name hl.range).1
  exact ElementLoop.goes_all ⟨hl.toIsSound, hlabels, hfresh, halone, harray ▸ helements, hisIn, hbody⟩ hc

/-- A loop over two bytes, each of which is stored as a word. -/
def pairLoop : Tree where
  name := "sample"
  loadAddress := none
  modules :=
    [{ name := "main"
       source := "main"
       blocks :=
        [{ name := "main"
           address := none
           options := []
           statements :=
            [.varDecl ⟨"main.pair", .array (.int .ubyte), .plain, some 2, [], {}⟩,
              .varDecl ⟨"main.word", .uword, .plain, none, [], {}⟩,
              .forEach none (some "main.word") (.var "main.pair") ⟨"", [.exit .next {}], {}⟩ {}]
           position := {} }] }]

/-- A memory with the bytes from ten on as elements. -/
def countingMemory : Memory (Int → Cell) where
  element _ _ k := .wrapped .ubyte (k + 10)
  read w address := w address
  write := Function.update
  read_write _ _ _ := Function.update_self ..

def emptyStore : Store (Int → Cell) where
  slots _ := .int .byte 0
  flags _ := false
  stack := []
  rest _ := .int .byte 0

theorem pairLoop_visits : ∃ (p : Program) (l : ElementLoop), pairLoop.program {} (.ofTexts []) = .ok p ∧
    p.text = l.text ∧ ∃ (rounds : List (Point (Int → Cell) × Point (Int → Cell))) (last : Point (Int → Cell)),
      rounds.length = 2 ∧
      l.Goes countingMemory (fun _ _ => none) [] [] ⟨l.text ++ [], [], emptyStore⟩
        (rounds.flatMap fun r => [r.1, r.2]) last ∧
      last.text = ElementLoop.exit ++ [] ∧
      ∀ k (hk : k < rounds.length), l.IsRound countingMemory [] k rounds[k] := by
  let env := pairLoop.environment {} (.ofTexts [])
  let rounds : LoopBody := fun labels =>
    Scope.lower env (({ scope := "main" } : Context).inLoop labels) ⟨"", [.exit .next {}], {}⟩
  have hsame : (pairLoop.program {} (.ofTexts [])).toOption.map (·.text) =
      (forLoop env none (some "main.word") (.var "main.pair") "main" {} rounds sampleOutput).toOption.map
        (·.2.sink.code) := by decide +kernel
  have hlowered : (pairLoop.program {} (.ofTexts [])).toOption.isSome := by decide +kernel
  cases hp : pairLoop.program {} (.ofTexts []) with
  | error e => simp [hp, Except.toOption] at hlowered
  | ok p =>
    cases h : forLoop env none (some "main.word") (.var "main.pair") "main" {} rounds sampleOutput with
    | error e => simp [hp, h, Except.toOption] at hsame
    | ok result =>
      obtain ⟨u, out'⟩ := result
      rw [hp, h] at hsame
      have hplain : (SymbolTable.ofTree pairLoop).IsPlain := fun name hname => by
        have hnames : (SymbolTable.ofTree pairLoop).names = ["main.word", "main.pair"] := rfl
        rw [hnames] at hname
        rcases List.mem_pair.1 hname with rfl | rfl <;> exact not_isGenerated (by decide)
      have hown : pairLoop.HasOwnTargets := by
        intro b hb label position hjump
        obtain rfl := List.mem_singleton.1 hb
        simp [Statement.allOf, Statement.withInner, Scope.inner] at hjump
      obtain ⟨l, hl, -, hvisits⟩ := elementLoop_visits hp hplain hown rfl h
      have htext : p.text = l.text := (Option.some.inj hsame).trans hl.writes.code
      have hrange : l.range = ⟨"main.pair", .array (.int .ubyte), .int .ubyte, 2⟩ :=
        (Except.ok.inj hl.range).symm
      have hlabels : (labelsOf ([] ++ (l.text ++ []))).Nodup := by simpa using hl.writes.distinct
      obtain ⟨start, stop, hbody, hwrites⟩ := hl.body
      have halone : LeavesAlone (fun _ _ => none) (W := Int → Cell) l.index := fun _ _ _ _ hact => by cases hact
      have helements : countingMemory.HasElements "main.pair" l.range.element := fun _ _ => by
        rw [hrange]
        rfl
      have hall := (hvisits [] [] (by simpa using htext)).2 _ countingMemory (fun _ _ => none)
        ⟨l.text ++ [], [], emptyStore⟩ halone helements rfl (fun _ hplace => by cases hplace)
        (ElementLoop.finishesRounds_of_skip hlabels (skip_writes hbody hwrites))
      rw [hrange] at hall
      exact ⟨p, l, rfl, htext, hall⟩

end StackCode
