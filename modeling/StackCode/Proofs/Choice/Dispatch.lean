/-
Choices on the value of an expression. The value is compared with the values of one choice
after the other while it stays on the stack, and the first that is equal leads to the body of its
choice. The body for all other cases stands behind the comparisons, the others stand behind it, each
with a jump in front of it that leads to the end.
-/
import StackCode.Proofs.Counting.Arrival
import StackCode.Proofs.Lowering.Emits

namespace StackCode

/-! ## The stack -/

/-- Values on the stack are doubled and dropped. All else is as it was. -/
def Store.shuffle {W : Type} (others : Instruction → Store W → Option (Store W)) (i : Instruction)
    (s : Store W) : Option (Store W) :=
  match i.opcode with
  | .dup z => s.pop z fun b s => some ((s.push (.int z b)).push (.int z b))
  | .discard (.int z) => s.pop z fun _ s => some s
  | _ => others i s

namespace Store

variable {W : Type} {others : Instruction → Store W → Option (Store W)} {s : Store W} {z : IntSize}
  {b : BitVec z.bits}

theorem run_dup : (s.push (.int z b)).run (shuffle others) [(Opcode.dup z).plain] =
    some ((s.push (.int z b)).push (.int z b)) := by
  simp only [run_singleton, act?, Opcode.plain, Opcode.act?, shuffle, pop, push, Cell.bits?_int,
    Option.bind_some]

theorem run_discard : (s.push (.int z b)).run (shuffle others) [(Opcode.discard (.int z)).plain] =
    some s := by
  simp only [run_singleton, act?, Opcode.plain, Opcode.act?, shuffle, pop, push, Cell.bits?_int,
    Option.bind_some]

end Store

/-! ## The text of a choice -/

/-- A choice with values: its label, its values, and the text of its body. -/
structure Arm where
  label : String
  values : List Value
  body : List Entry

/-- One of the values is `x`. -/
def Arm.matches (x : Int) (a : Arm) : Bool := a.values.any fun v => v.int? = some x

/-- A choice on a value, with the code of the value and the text of the body for all other cases, if there
is one. -/
structure Dispatch where
  type : IntType
  condition : Code
  arms : List Arm
  otherwise : Option (List Entry)
  leave : String

namespace Dispatch

/-- Behind the label at the end. -/
def behind (d : Dispatch) : List Entry := [.instruction (Opcode.discard (.int d.type.size)).plain]

/-- There is nothing to choose from. -/
def isEmpty (d : Dispatch) : Bool := d.arms.isEmpty && d.otherwise.isNone

/-- From the label at the end on. Without choices there is no label. -/
def exit (d : Dispatch) : List Entry :=
  if d.isEmpty then d.behind else .label d.leave false :: d.behind

/-- From the jump in front of the bodies on. -/
def bodies (d : Dispatch) : List Arm → List Entry
  | [] => d.exit
  | a :: rest =>
    .instruction (Opcode.jump.named d.leave) :: .label a.label false :: (a.body ++ d.bodies rest)

/-- The comparisons: where each one leads, and the value. -/
def tests (arms : List Arm) : List (String × Value) :=
  arms.flatMap fun a => a.values.map (a.label, ·)

def testsCode (t : IntType) (tests : List (String × Value)) : Code :=
  tests.flatMap fun (label, v) =>
    [(Opcode.dup t.size).plain, (Opcode.compare t).given v, (Opcode.branch .zero).named label]

/-- Behind the comparisons. -/
def rest (d : Dispatch) : List Entry := d.otherwise.getD [] ++ d.bodies d.arms

/-- Behind the value. -/
def head (d : Dispatch) : List Entry := (testsCode d.type (tests d.arms)).map .instruction ++ d.rest

def text (d : Dispatch) : List Entry := d.condition.map .instruction ++ d.head

/-- The bodies of choices with values, each with what stands behind it. -/
def armParts (d : Dispatch) : List Arm → List (List Entry × List Entry)
  | [] => []
  | a :: rest => (a.body, d.bodies rest) :: d.armParts rest

/-- The bodies in the order of the choices, each with what stands behind it. -/
def parts (d : Dispatch) : List (List Entry × List Entry) :=
  d.armParts d.arms ++ (d.otherwise.map (·, d.bodies d.arms)).toList

/-- Of some of the choices with values the body of the first one that has the value, or the body for all
other cases. -/
def selectedFrom (d : Dispatch) (x : Int) : List Arm → Option (List Entry × List Entry)
  | [] => d.otherwise.map (·, d.bodies d.arms)
  | a :: rest => if a.matches x then some (a.body, d.bodies rest) else d.selectedFrom x rest

def selected (d : Dispatch) (x : Int) : Option (List Entry × List Entry) := d.selectedFrom x d.arms

/-- The start of a body. -/
def start (back : List Entry) (part : List Entry × List Entry) : List Entry := part.1 ++ (part.2 ++ back)

/-- An integer of the type that is chosen on. -/
def cell (d : Dispatch) (x : Int) : Cell := .int d.type.size (.ofInt _ x)

/-- The starts of the bodies are watched, and so is the start of the whole. -/
def Marked (d : Dispatch) (back p : List Entry) : Prop :=
  p = d.text ++ back ∨ ∃ part ∈ d.parts, p = start back part

/-- The values are integers of the type, and no choice is without values. -/
structure IsSound (d : Dispatch) : Prop where
  condition : Straight d.condition
  values : ∀ a ∈ d.arms, a.values ≠ [] ∧ ∀ v ∈ a.values, ∃ n, v = .wrapped d.type n ∧ d.type.Holds n

section Runs

variable {W : Type} (others : Instruction → Store W → Option (Store W)) (d : Dispatch)
  (front back : List Entry)

/-- The machine goes from one state to another, and in between it comes to these starts. -/
def Goes : List Entry × Store W → List (List Entry × Store W) → List Entry × Store W → Prop :=
  Comes (advance? (Store.shuffle others) (front ++ (d.text ++ back))) fun c => d.Marked back c.1

/-- On the way from one state to the other the machine comes to no start, unless it ends at one. -/
def Reaches (c e : List Entry × Store W) : Prop :=
  d.Goes others front back c (noted (fun c => d.Marked back c.1) e) e

/-- The code of the value leaves an integer on the stack, and all that was there below it. -/
def Evaluates (x : Int) (s : Store W) : Prop :=
  ∃ s' : Store W, s.run (Store.shuffle others) d.condition = some (s'.push (d.cell x)) ∧ s'.stack = s.stack

/-- Each body that is started falls through: its end is reached without another start, with the stack as
it was. -/
def FallsThrough (s : Store W) : Prop :=
  ∀ part ∈ d.parts, ∀ arrivals s₁, d.Goes others front back (d.text ++ back, s) arrivals (start back part, s₁) →
    ∃ s₂, d.Goes others front back (start back part, s₁) [] (part.2 ++ back, s₂) ∧ s₂.stack = s₁.stack

end Runs

variable {W : Type} {others : Instruction → Store W → Option (Store W)} {d : Dispatch}
  {front back p : List Entry} {s : Store W} {x : Int}

/-! ## Where things stand -/

theorem bodies_suffix (d : Dispatch) (pre arms : List Arm) : d.bodies arms <:+ d.bodies (pre ++ arms) := by
  induction pre with
  | nil => exact List.suffix_refl _
  | cons a pre ih =>
    rw [List.cons_append, bodies]
    exact ih.trans ((List.suffix_append _ _).trans ((List.suffix_cons _ _).trans (List.suffix_cons _ _)))

theorem rest_suffix (d : Dispatch) : d.rest <:+ d.text :=
  (List.suffix_append _ _).trans (List.suffix_append _ _)

/-- An end of what stands behind the comparisons, with what stands behind the choice. -/
theorem append_suffix {es : List Entry} (front back : List Entry) (h : es <:+ d.rest) :
    es ++ back <:+ front ++ (d.text ++ back) := by
  obtain ⟨before, htext⟩ := h.trans d.rest_suffix
  refine ⟨front ++ before, ?_⟩
  rw [← htext]
  simp only [List.append_assoc]

/-- The body of a choice stands behind its label. -/
theorem entriesBehind?_label (hlabels : (labelsOf (front ++ (d.text ++ back))).Nodup) {pre post : List Arm}
    {a : Arm} (h : d.arms = pre ++ a :: post) :
    entriesBehind? a.label (front ++ (d.text ++ back)) = some (start back (a.body, d.bodies post)) := by
  have hlabel : .label a.label false :: (a.body ++ d.bodies post) <:+ d.rest := by
    have hbodies := (List.suffix_cons _ _).trans (d.bodies_suffix pre (a :: post))
    rw [← h] at hbodies
    exact hbodies.trans (List.suffix_append _ _)
  have hstart := append_suffix front back hlabel
  rw [List.cons_append, List.append_assoc] at hstart
  exact entriesBehind?_of_suffix hlabels hstart

theorem entriesBehind?_leave (hlabels : (labelsOf (front ++ (d.text ++ back))).Nodup)
    (hd : d.isEmpty = false) :
    entriesBehind? d.leave (front ++ (d.text ++ back)) = some (d.behind ++ back) := by
  have hexit : .label d.leave false :: d.behind <:+ d.rest := by
    have hbodies := d.bodies_suffix d.arms []
    rw [List.append_nil, bodies, exit, hd] at hbodies
    exact hbodies.trans (List.suffix_append _ _)
  exact entriesBehind?_of_suffix hlabels (append_suffix front back hexit)

theorem length_exit (d : Dispatch) : d.behind.length ≤ d.exit.length := by
  unfold exit
  split <;> simp

theorem length_behind_lt (d : Dispatch) (arms : List Arm) (h : d.isEmpty = false) :
    d.behind.length < (d.bodies arms).length := by
  induction arms with
  | nil => simp [bodies, exit, h]
  | cons a arms ih =>
    rw [bodies, List.length_cons, List.length_cons, List.length_append]
    omega

variable (back) in
/-- The body of a choice is shorter than all that stands behind the jump in front of it. -/
theorem length_armParts {arms : List Arm} {part : List Entry × List Entry} (h : part ∈ d.armParts arms) :
    (start back part).length < (d.bodies arms ++ back).length := by
  induction arms with
  | nil => cases h
  | cons a arms ih =>
    rw [bodies, List.cons_append, List.cons_append, List.length_cons, List.length_cons, List.append_assoc]
    rcases List.mem_cons.1 h with rfl | h
    · exact Nat.lt_succ_of_lt (Nat.lt_succ_self _)
    · have hlen := ih h
      rw [List.length_append]
      omega

theorem isEmpty_of_mem {part : List Entry × List Entry} (h : part ∈ d.parts) : d.isEmpty = false := by
  unfold parts at h
  unfold isEmpty
  cases harms : d.arms with
  | nil => cases hother : d.otherwise <;> simp [harms, hother, armParts] at h ⊢
  | cons a arms => rfl

theorem exists_of_mem_armParts {arms : List Arm} {part : List Entry × List Entry}
    (h : part ∈ d.armParts arms) : ∃ pre post, arms = pre ++ post ∧ part.2 = d.bodies post := by
  induction arms with
  | nil => cases h
  | cons a arms ih =>
    rcases List.mem_cons.1 h with rfl | h
    · exact ⟨[a], arms, rfl, rfl⟩
    · obtain ⟨pre, post, rfl, hpart⟩ := ih h
      exact ⟨a :: pre, post, rfl, hpart⟩

/-- Behind each body stand the bodies of further choices. -/
theorem exists_of_mem_parts {part : List Entry × List Entry} (h : part ∈ d.parts) :
    ∃ pre post, d.arms = pre ++ post ∧ part.2 = d.bodies post := by
  rcases List.mem_append.1 h with h | h
  · exact exists_of_mem_armParts h
  · obtain ⟨body, -, rfl⟩ := Option.map_eq_some_iff.1 (Option.mem_toList.1 h)
    exact ⟨[], d.arms, rfl, rfl⟩

/-- The starts of the bodies lie behind the comparisons. -/
theorem length_start_le {part : List Entry × List Entry} (h : part ∈ d.parts) :
    (start back part).length ≤ (d.rest ++ back).length := by
  rcases List.mem_append.1 h with h | h
  · have hlen := length_armParts back h
    simp only [rest, List.length_append] at hlen ⊢
    omega
  · obtain ⟨body, hbody, rfl⟩ := Option.map_eq_some_iff.1 (Option.mem_toList.1 h)
    simp only [start, rest, hbody, Option.getD_some, List.append_assoc, Nat.le_refl]

/-- The end lies behind all starts. -/
theorem length_behind_lt_of_marked (hne : d.condition ≠ []) (h : d.Marked back p) :
    (d.behind ++ back).length < p.length := by
  have hcondition := List.length_pos_iff.2 hne
  rcases h with rfl | ⟨part, hpart, rfl⟩
  · have hbodies := (d.bodies_suffix d.arms []).length_le
    have hexit := d.length_exit
    rw [List.append_nil, bodies] at hbodies
    simp only [text, head, rest, List.length_append, List.length_map]
    omega
  · obtain ⟨pre, post, -, hpost⟩ := exists_of_mem_parts hpart
    have hlen := d.length_behind_lt post (isEmpty_of_mem hpart)
    simp only [start, hpost, List.length_append]
    omega

/-- Nothing is watched between the start of the whole and what stands behind the comparisons. -/
theorem length_of_marked (h : d.Marked back p) :
    p.length ≤ (d.rest ++ back).length ∨ (d.text ++ back).length ≤ p.length := by
  rcases h with rfl | ⟨part, hpart, rfl⟩
  · exact .inr (Nat.le_refl _)
  · exact .inl (length_start_le hpart)

/-- Nor anything from behind the value on up to what stands behind the comparisons. -/
theorem length_of_marked_lt (hne : d.condition ≠ []) (h : d.Marked back p) :
    p.length ≤ (d.rest ++ back).length ∨
      (d.rest ++ back).length + (testsCode d.type (tests d.arms)).length < p.length := by
  have hpos := List.length_pos_iff.2 hne
  have hlen := length_of_marked h
  simp only [text, head, List.length_append, List.length_map] at hlen ⊢
  omega

variable (back) in
/-- Without a body for all other cases no body starts with the jump in front of the bodies. -/
theorem not_marked_bodies (hne : d.condition ≠ []) (h : d.otherwise = none) :
    ¬ d.Marked back (d.bodies d.arms ++ back) := by
  rintro (htext | ⟨part, hpart, hstart⟩)
  · have hlen := congrArg List.length htext
    have hpos := List.length_pos_iff.2 hne
    simp only [text, head, rest, List.length_append, List.length_map] at hlen
    omega
  · simp only [parts, h, Option.map_none, Option.toList_none, List.append_nil] at hpart
    have hlen := length_armParts back hpart
    rw [hstart] at hlen
    exact Nat.lt_irrefl _ hlen

/-! ## The comparisons -/

/-- A comparison belongs to a choice. -/
theorem exists_of_mem_tests {arms : List Arm} {t : String × Value} (h : t ∈ tests arms) :
    ∃ a ∈ arms, t.1 = a.label ∧ t.2 ∈ a.values := by
  obtain ⟨a, ha, h⟩ := List.mem_flatMap.1 h
  obtain ⟨v, hv, rfl⟩ := List.mem_map.1 h
  exact ⟨a, ha, rfl, hv⟩

theorem Reaches.goes {c e : List Entry × Store W} (h : d.Reaches others front back c e)
    (he : ¬ d.Marked back e.1) : d.Goes others front back c [] e := by
  have hnone : noted (fun c => d.Marked back c.1) e = [] := noted_of_not_marked he
  exact hnone ▸ h

variable (others) in
/-- One comparison. The integer stays on the stack. -/
theorem reaches_test (s : Store W) (rest : List Entry) {goal : List Entry} {label : String} {n : Int}
    (hx : d.type.Holds x) (hn : d.type.Holds n)
    (hgoal : entriesBehind? label (front ++ (d.text ++ back)) = some goal)
    (hclear : ∀ p, d.Marked back p → p.length ≤ rest.length ∨ rest.length + 3 ≤ p.length) :
    ∃ s' : Store W, s'.stack = s.stack ∧ d.Reaches others front back
      ((testsCode d.type [(label, .wrapped d.type n)]).map .instruction ++ rest, s.push (d.cell x))
      (if x = n then goal else rest, s'.push (d.cell x)) := by
  let difference := BitVec.ofInt d.type.size.bits (x - n)
  let compare := [(Opcode.dup d.type.size).plain] ++ [(Opcode.compare d.type).given (.wrapped d.type n)]
  let goOn : Instruction := (Opcode.branch .zero).named label
  let s' : Store W := s.tell difference
  have hrun : (s.push (d.cell x)).run (Store.shuffle others) compare = some (s'.push (d.cell x)) := by
    rw [Store.run_append, cell, Store.run_dup, Option.bind_some, Store.run_compare (Value.cell_wrapped ..)]
    rfl
  have hstraight : Straight compare := (Straight.of_effect rfl).append (.of_effect rfl)
  have hcompare : d.Reaches others front back (compare.map .instruction ++ .instruction goOn :: rest,
      s.push (d.cell x)) (.instruction goOn :: rest, s'.push (d.cell x)) :=
    .straight hstraight hrun (List.cons_ne_nil _ _) fun p hp => by
      rw [List.length_cons]
      rcases hclear p hp with hlo | hhi
      · exact .inl (Nat.le_succ_of_le hlo)
      · exact .inr hhi
  have hunmarked : ¬ d.Marked back (.instruction goOn :: rest) := fun hm => by
    have hlen := hclear _ hm
    rw [List.length_cons] at hlen
    omega
  have hflag : FlagTest.zero.holds (s'.push (d.cell x)).flags = true ↔ x = n := by
    rw [← IntType.ofInt_sub_eq_zero hx hn]
    exact beq_iff_eq
  have hbranch : d.Reaches others front back (.instruction goOn :: rest, s'.push (d.cell x))
      (if FlagTest.zero.holds (s'.push (d.cell x)).flags then goal else rest, s'.push (d.cell x)) :=
    .branch hgoal
  simp only [hflag] at hbranch
  exact ⟨s', rfl, .after (hcompare.goes hunmarked) hbranch⟩

/-- Where the comparisons lead: to the goal of the first one that is passed. -/
def target (goal : String → List Entry) (rest : List Entry) (x : Int) (ts : List (String × Value)) :
    List Entry :=
  ((ts.find? fun t => t.2.int? = some x).map fun t => goal t.1).getD rest

theorem target_cons {goal : String → List Entry} {rest : List Entry} {t : IntType} {n : Int}
    {label : String} {ts : List (String × Value)} (hn : t.Holds n) :
    target goal rest x ((label, .wrapped t n) :: ts) = if x = n then goal label else target goal rest x ts := by
  have hfound : (Value.wrapped t n).int? = some x ↔ x = n := by
    rw [Value.wrapped, Value.int?, IntType.wrap_eq_self hn, Option.some.injEq, eq_comm]
  unfold target
  by_cases heq : x = n
  · rw [if_pos heq, List.find?_cons_of_pos (by simpa only [decide_eq_true_eq, hfound] using heq)]
    rfl
  · rw [if_neg heq, List.find?_cons_of_neg (by simpa only [decide_eq_true_eq, hfound] using heq)]

variable (others) in
/-- All comparisons, by induction on how many there are. -/
theorem reaches_tests (s : Store W) {rest : List Entry} {ts : List (String × Value)}
    (hx : d.type.Holds x) (hvalues : ∀ t ∈ ts, ∃ n, t.2 = .wrapped d.type n ∧ d.type.Holds n) (hne : ts ≠ [])
    (goal : String → List Entry)
    (hgoal : ∀ t ∈ ts, entriesBehind? t.1 (front ++ (d.text ++ back)) = some (goal t.1))
    (hclear : ∀ p, d.Marked back p →
      p.length ≤ rest.length ∨ rest.length + (testsCode d.type ts).length ≤ p.length) :
    ∃ s' : Store W, s'.stack = s.stack ∧ d.Reaches others front back
      ((testsCode d.type ts).map .instruction ++ rest, s.push (d.cell x))
      (target goal rest x ts, s'.push (d.cell x)) := by
  induction ts generalizing s with
  | nil => exact absurd rfl hne
  | cons t ts ih =>
    obtain ⟨label, v⟩ := t
    obtain ⟨n, rfl, hn⟩ : ∃ n, v = .wrapped d.type n ∧ d.type.Holds n := hvalues _ List.mem_cons_self
    have hcode : testsCode d.type ((label, .wrapped d.type n) :: ts) =
        testsCode d.type [(label, .wrapped d.type n)] ++ testsCode d.type ts := by
      simp [testsCode]
    have hlength : (testsCode d.type [(label, Value.wrapped d.type n)]).length = 3 := rfl
    rw [hcode, List.length_append, hlength] at hclear
    rw [hcode, List.map_append, List.append_assoc, target_cons hn]
    obtain ⟨s₁, hstack, htest⟩ := reaches_test others s
      ((testsCode d.type ts).map .instruction ++ rest) hx hn (hgoal _ List.mem_cons_self)
      fun p hp => by
        rw [List.length_append, List.length_map]
        have hlen := hclear p hp
        omega
    by_cases heq : x = n
    · rw [if_pos heq] at htest ⊢
      exact ⟨s₁, hstack, htest⟩
    · rw [if_neg heq] at htest ⊢
      cases ts with
      | nil => exact ⟨s₁, hstack, htest⟩
      | cons t ts =>
        obtain ⟨s₂, hstack₂, hrest⟩ := ih (s := s₁) (fun t ht => hvalues t (List.mem_cons_of_mem _ ht))
          (List.cons_ne_nil _ _) (fun t ht => hgoal t (List.mem_cons_of_mem _ ht)) fun p hp => by
            have hlen := hclear p hp
            omega
        have hunmarked : ¬ d.Marked back ((testsCode d.type (t :: ts)).map .instruction ++ rest) := fun hm => by
          have hlen := hclear _ hm
          have hpos : 0 < (testsCode d.type (t :: ts)).length := Nat.succ_pos _
          simp only [List.length_append, List.length_map] at hlen
          omega
        exact ⟨s₂, hstack₂.trans hstack, .after (htest.goes hunmarked) hrest⟩

/-! ## From the value to a body -/

/-- The comparisons lead to the body that is selected. -/
theorem target_eq (x : Int) (hlabels : (labelsOf (front ++ (d.text ++ back))).Nodup) {pre arms : List Arm}
    (h : d.arms = pre ++ arms) :
    target (fun l => (entriesBehind? l (front ++ (d.text ++ back))).getD []) (d.rest ++ back) x (tests arms) =
      ((d.selectedFrom x arms).map (start back)).getD (d.bodies d.arms ++ back) := by
  induction arms generalizing pre with
  | nil =>
    change d.rest ++ back = ((d.otherwise.map (·, d.bodies d.arms)).map (start back)).getD _
    rw [rest]
    cases d.otherwise with
    | none => rfl
    | some body => exact List.append_assoc ..
  | cons a arms ih =>
    have hpre : d.arms = (pre ++ [a]) ++ arms := by rw [h, List.append_assoc, List.singleton_append]
    have hrest := ih hpre
    have hgoal := entriesBehind?_label hlabels h
    have htests : tests (a :: arms) = a.values.map (a.label, ·) ++ tests arms := rfl
    unfold target at hrest ⊢
    rw [htests, List.find?_append, List.find?_map, selectedFrom, Arm.matches]
    by_cases hany : a.values.any fun v => v.int? = some x
    · obtain ⟨v, hv, hvx⟩ := List.any_eq_true.1 hany
      obtain ⟨w, hw⟩ := Option.isSome_iff_exists.1
        (List.find?_isSome (p := fun v : Value => decide (v.int? = some x)) |>.2 ⟨v, hv, hvx⟩)
      have hfound : a.values.find? ((fun t : String × Value => decide (t.2.int? = some x)) ∘ (a.label, ·)) =
          some w := hw
      simp only [hfound, hany, Option.map_some, Option.some_or, if_true, hgoal, Option.getD_some]
    · have hnone : a.values.find? ((fun t : String × Value => decide (t.2.int? = some x)) ∘ (a.label, ·)) =
          none := by
        refine List.find?_eq_none.2 fun v hv hvx => hany ?_
        exact List.any_eq_true.2 ⟨v, hv, hvx⟩
      simp only [hnone, hany, Option.map_none, Option.none_or, Bool.false_eq_true, if_false]
      exact hrest

/-- Code that leaves a value is not empty. -/
theorem condition_ne_nil (h : d.Evaluates others x s) : d.condition ≠ [] := by
  rintro hnil
  obtain ⟨s', hrun, hstack⟩ := h
  rw [hnil] at hrun
  have hs : s = s'.push (d.cell x) := Option.some.inj hrun
  have hlen := congrArg List.length hstack
  rw [hs] at hlen
  exact Nat.succ_ne_self _ hlen.symm

/-- The integer is left on the stack, and its body is started, if it has one. -/
theorem reaches_selected (h : d.IsSound) (hlabels : (labelsOf (front ++ (d.text ++ back))).Nodup)
    (hx : d.type.Holds x) (heval : d.Evaluates others x s) :
    ∃ s' : Store W, s'.stack = s.stack ∧ d.Reaches others front back (d.text ++ back, s)
      (((d.selected x).map (start back)).getD (d.bodies d.arms ++ back), s'.push (d.cell x)) := by
  have hne := condition_ne_nil heval
  obtain ⟨s₁, hrun, hstack⟩ := heval
  have hcondition : d.Reaches others front back (d.text ++ back, s) (d.head ++ back, s₁.push (d.cell x)) := by
    unfold Reaches Goes
    rw [text, List.append_assoc]
    refine .straight h.condition hrun hne fun p hp => ?_
    have hlen := length_of_marked hp
    simp only [text, head, List.length_append, List.length_map] at hlen ⊢
    omega
  have htarget := target_eq x hlabels (List.nil_append d.arms).symm
  unfold selected
  rw [← htarget]
  by_cases hts : tests d.arms = []
  · refine ⟨s₁, hstack, ?_⟩
    rw [head, hts] at hcondition
    rw [hts]
    exact hcondition
  · have htests : 0 < (testsCode d.type (tests d.arms)).length := by
      obtain ⟨t, ts, ht⟩ := List.exists_cons_of_ne_nil hts
      rw [ht]
      exact Nat.succ_pos _
    have hunmarked : ¬ d.Marked back (d.head ++ back) := fun hm => by
      have hlen := length_of_marked_lt hne hm
      simp only [head, List.length_append, List.length_map] at hlen
      omega
    have hvalues : ∀ t ∈ tests d.arms, ∃ n, t.2 = .wrapped d.type n ∧ d.type.Holds n := fun t ht => by
      obtain ⟨a, ha, -, hv⟩ := exists_of_mem_tests ht
      exact (h.values a ha).2 _ hv
    have hgoals : ∀ t ∈ tests d.arms, entriesBehind? t.1 (front ++ (d.text ++ back)) =
        some ((entriesBehind? t.1 (front ++ (d.text ++ back))).getD []) := fun t ht => by
      obtain ⟨a, ha, hlabel, -⟩ := exists_of_mem_tests ht
      obtain ⟨pre, post, hpost⟩ := List.append_of_mem ha
      simp only [hlabel, entriesBehind?_label hlabels hpost, Option.getD_some]
    obtain ⟨s₂, hstack₂, htested⟩ := reaches_tests others s₁ hx hvalues hts
      (fun l => (entriesBehind? l (front ++ (d.text ++ back))).getD []) hgoals
      fun p hp => (length_of_marked_lt hne hp).imp_right Nat.le_of_lt
    rw [← List.append_assoc, ← head] at htested
    exact ⟨s₂, hstack₂.trans hstack, .after (hcondition.goes hunmarked) htested⟩

/-! ## From a body to the end -/

/-- Behind a body, or in front of all, the end is reached. -/
theorem goes_behind {s : Store W} (hlabels : (labelsOf (front ++ (d.text ++ back))).Nodup)
    (hne : d.condition ≠ []) {pre arms : List Arm} (h : d.arms = pre ++ arms) :
    d.Goes others front back (d.bodies arms ++ back, s) [] (d.behind ++ back, s) := by
  have hunmarked : ¬ d.Marked back (d.behind ++ back) := fun hm =>
    Nat.lt_irrefl _ (length_behind_lt_of_marked hne hm)
  cases arms with
  | nil =>
    rw [bodies, exit]
    split
    · exact .refl _
    · exact .pass rfl hunmarked
  | cons a arms =>
    have hempty : d.isEmpty = false := by simp [isEmpty, h]
    exact .jump (entriesBehind?_leave hlabels hempty) hunmarked

/-- The value is dropped. -/
theorem goes_discard {s : Store W} (hne : d.condition ≠ []) :
    d.Goes others front back (d.behind ++ back, s.push (d.cell x)) [] (back, s) := by
  have hunmarked : ¬ d.Marked back back := fun hm => by
    have hlen := length_behind_lt_of_marked hne hm
    rw [List.length_append] at hlen
    omega
  have hgoes : d.Reaches others front back (d.behind ++ back, s.push (d.cell x)) (back, s) :=
    .straight (.of_effect rfl) Store.run_discard (List.cons_ne_nil _ _) fun p hp => by
      have hlen := length_behind_lt_of_marked hne hp
      rw [List.length_append] at hlen
      exact .inr (by rw [Nat.add_comm]; exact Nat.le_of_lt hlen)
  exact hgoes.goes hunmarked

theorem mem_parts_of_selectedFrom {arms : List Arm} {part : List Entry × List Entry}
    (h : d.selectedFrom x arms = some part) :
    part ∈ d.armParts arms ++ (d.otherwise.map (·, d.bodies d.arms)).toList := by
  induction arms with
  | nil => exact Option.mem_toList.2 h
  | cons a arms ih =>
    rw [selectedFrom] at h
    split at h
    · cases h
      exact List.mem_cons_self
    · exact List.mem_cons_of_mem _ (ih h)

/-- Without a body for all other cases it is found that none is selected. -/
theorem otherwise_of_selectedFrom {arms : List Arm} (h : d.selectedFrom x arms = none) :
    d.otherwise = none := by
  induction arms with
  | nil => exact Option.map_eq_none_iff.1 h
  | cons a arms ih =>
    rw [selectedFrom] at h
    split at h
    · cases h
    · exact ih h

/-- **The body that is selected is the only one that is started.** The value is evaluated once, and it is
dropped at the end. -/
theorem goes_selected (h : d.IsSound) (hlabels : (labelsOf (front ++ (d.text ++ back))).Nodup)
    (hx : d.type.Holds x) (heval : d.Evaluates others x s) (hbody : d.FallsThrough others front back s) :
    ∃ arrivals s', d.Goes others front back (d.text ++ back, s) arrivals (back, s') ∧ s'.stack = s.stack ∧
      arrivals.map Prod.fst = ((d.selected x).map (start back)).toList := by
  have hne := condition_ne_nil heval
  obtain ⟨s₁, hstack, hselected⟩ := reaches_selected h hlabels hx heval
  cases hpart : d.selected x with
  | none =>
    rw [hpart] at hselected
    have hunmarked := not_marked_bodies back hne (otherwise_of_selectedFrom hpart)
    have hend : d.Goes others front back (d.bodies d.arms ++ back, s₁.push (d.cell x)) [] (back, s₁) :=
      (goes_behind hlabels hne (List.nil_append d.arms).symm).after (goes_discard hne)
    exact ⟨[], s₁, (hselected.goes hunmarked).after hend, hstack, rfl⟩
  | some part =>
    have hmem : part ∈ d.parts := mem_parts_of_selectedFrom hpart
    have hmarked : d.Marked back (start back part) := .inr ⟨part, hmem, rfl⟩
    rw [hpart] at hselected
    have hcome : d.Goes others front back (d.text ++ back, s) [(start back part, s₁.push (d.cell x))]
        (start back part, s₁.push (d.cell x)) := by
      have hnoted : noted (fun c => d.Marked back c.1) (start back part, s₁.push (d.cell x)) = [_] :=
        noted_of_marked hmarked
      exact hnoted ▸ hselected
    obtain ⟨s₂, hround, hstack₂⟩ := hbody part hmem _ _ hcome
    obtain ⟨pre, post, harms, hrest⟩ := exists_of_mem_parts hmem
    let s' : Store W := { s₂ with stack := s₁.stack }
    have hs₂ : s₂ = s'.push (d.cell x) := by
      obtain ⟨slots, flags, stack, rest⟩ := s₂
      cases hstack₂
      rfl
    rw [hrest] at hround
    have hend : d.Goes others front back (d.bodies post ++ back, s₂) [] (back, s') := by
      rw [hs₂]
      exact (goes_behind hlabels hne harms).after (goes_discard hne)
    refine ⟨_, s', hcome.trans (hround.after hend), hstack, ?_⟩
    simp

end Dispatch
end StackCode
