/-
The machine that carries out the text of a loop. It knows the integers in variables and
registers, the flags and the stack, and of all other instructions nothing. What it keeps
account of is how often it comes by one place in the text, and what the counter is then.
-/
import StackCode.Proofs.Arithmetic.Operators
import StackCode.Proofs.Flow.Structured

namespace StackCode

/-- What a step adds. -/
def Increment.amount : Increment → Int
  | up => 1
  | down => -1

/-- Integers of a type differ by nothing only if they are the same. -/
theorem IntType.ofInt_sub_eq_zero {t : IntType} {m n : Int} (hm : t.Holds m) (hn : t.Holds n) :
    BitVec.ofInt t.size.bits (m - n) = 0 ↔ m = n := by
  rw [BitVec.ofInt_sub, BitVec.sub_eq_iff_eq_add, BitVec.ofNat_eq_ofNat, BitVec.zero_add, ofInt_inj hm hn]

theorem DataType.int?_eq_some {t : DataType} {type : IntType} (h : t.int? = some type) : t = .int type := by
  unfold int? at h
  split at h <;> cases h
  rfl

/-! ## What it works on -/

/-- Variables and registers by their names, the flags, the stack, and everything else. -/
structure Store (W : Type) where
  slots : String → Cell
  flags : StatusFlag → Bool
  stack : List Cell
  rest : W

namespace Store

variable {W : Type}

def set (s : Store W) (name : String) (c : Cell) : Store W :=
  { s with slots := Function.update s.slots name c }

def push (s : Store W) (c : Cell) : Store W := { s with stack := c :: s.stack }

/-- The flags tell whether the result of an operation is zero, and whether it is negative. -/
def tell (s : Store W) {z : IntSize} (b : BitVec z.bits) : Store W where
  slots := s.slots
  flags f :=
    match f with
    | .zero => b == 0
    | .negative => b.msb
    | f => s.flags f
  stack := s.stack
  rest := s.rest

/-- An integer has been computed and stands in a variable or a register, and the flags tell of it. -/
def count (s : Store W) (name : String) (t : IntType) (n : Int) : Store W :=
  (s.set name (.int t.size (.ofInt _ n))).tell (BitVec.ofInt t.size.bits n)

/-- Takes an integer of a size off the stack. -/
def pop {α : Type} (z : IntSize) (s : Store W) (f : BitVec z.bits → Store W → Option α) : Option α :=
  match s.stack with
  | c :: stack => (c.bits? z).bind fun b => f b { s with stack }
  | [] => none

/-- Changes the integer in a variable or a register. -/
def change (s : Store W) (name : String) (z : IntSize) (f : BitVec z.bits → BitVec z.bits) :
    Option (Store W) :=
  ((s.slots name).bits? z).map fun b => (s.set name (.int z (f b))).tell (f b)

/-- One instruction that is no jump. Opcodes of operators and casts act on the stack, and the flags tell
of the result. What is not about integers is left to `others`. -/
def act? (others : Instruction → Store W → Option (Store W)) (i : Instruction) (s : Store W) :
    Option (Store W) :=
  match i.opcode, i.label, i.arg with
  | .nop, _, _ => some s
  | .push z, _, some v => if v.type.size = z then some (s.push v.cell) else none
  | .pushVar (.int z), some name, _ => ((s.slots name).bits? z).map fun b => s.push (.int z b)
  | .popVar (.int z), some name, _ => s.pop z fun b s => some (s.set name (.int z b))
  | .incVar (.int t), some name, _ => s.change name t.size (· + 1)
  | .decVar (.int t), some name, _ => s.change name t.size (· - 1)
  | .compare t, _, some v => s.pop t.size fun x s => (v.cell.bits? t.size).map fun y => s.tell (x - y)
  | opcode, _, _ =>
    match opcode.act? s.stack with
    | some (.int z b :: stack) => some (({ s with stack }.tell b).push (.int z b))
    | _ => others i s

/-- Code without jumps. -/
def run (others : Instruction → Store W → Option (Store W)) (code : Code) (s : Store W) :
    Option (Store W) :=
  code.foldlM (fun s i => act? others i s) s

variable {others : Instruction → Store W → Option (Store W)} {code code' : Code} {i : Instruction}
  {s : Store W} {name : String} {t : IntType} {n m : Int}

theorem run_cons : s.run others (i :: code) = (s.act? others i).bind fun s => s.run others code := rfl

theorem run_append : s.run others (code ++ code') =
    (s.run others code).bind fun s => s.run others code' :=
  List.foldlM_append

theorem count_slots : (s.count name t n).slots name = .int t.size (.ofInt _ n) :=
  Function.update_self ..

/-- What is computed later takes the place of what was there. -/
theorem count_count : (s.count name t n).count name t m = s.count name t m := by
  simp only [count, set, tell, Function.update_idem, mk.injEq, and_true, true_and]
  funext f
  cases f <;> rfl

theorem run_singleton : s.run others [i] = s.act? others i := by
  rw [run_cons]
  exact Option.bind_fun_some _

theorem run_push (v : Value) : s.run others v.push = some (s.push v.cell) := by
  rw [Value.push, run_singleton]
  exact if_pos rfl

theorem run_pushVar {z : IntSize} {b : BitVec z.bits} (h : s.slots name = .int z b) :
    s.run others [(Opcode.pushVar (.int z)).named name] = some (s.push (.int z b)) := by
  simp only [run_singleton, act?, Opcode.named, h, Cell.bits?_int, Option.map_some]

theorem run_popVar {z : IntSize} {b : BitVec z.bits} :
    (s.push (.int z b)).run others [(Opcode.popVar (.int z)).named name] =
      some (s.set name (.int z b)) := by
  simp only [run_singleton, act?, Opcode.named, pop, push, Cell.bits?_int, Option.bind_some]

/-- A step of one adds to the integer, or takes from it. -/
theorem run_stepVar {op : Increment} (h : s.slots name = .int t.size (.ofInt _ n)) :
    s.run others [(Opcode.stepVar op (.int t)).named name] = some (s.count name t (n + op.amount)) := by
  have hup : BitVec.ofInt t.size.bits (n + 1) = .ofInt _ n + 1 := BitVec.ofInt_add n 1
  have hdown : BitVec.ofInt t.size.bits (n - 1) = .ofInt _ n - 1 := BitVec.ofInt_sub n 1
  rw [Int.sub_eq_add_neg] at hdown
  cases op <;>
    simp only [run_singleton, act?, Opcode.stepVar, Opcode.named, change, h, Cell.bits?_int,
      Option.map_some, count, Increment.amount, hup, hdown]

/-- What an opcode leaves on the stack, the flags tell of. -/
theorem run_plain {opcode : Opcode} {z : IntSize} {b : BitVec z.bits} {stack : List Cell}
    (h : opcode.act? s.stack = some (.int z b :: stack)) :
    s.run others [opcode.plain] = some (({ s with stack }.tell b).push (.int z b)) := by
  rw [run_singleton]
  simp only [act?, Opcode.plain]
  split
  case h_8 => rw [h]
  all_goals simp_all [Opcode.act?]

/-- The sum takes the place of what is added. -/
theorem run_add : ((s.push (.int t.size (.ofInt _ n))).push (.int t.size (.ofInt _ m))).run others
    [(Opcode.add (.int t)).plain] =
      some ((s.tell (BitVec.ofInt t.size.bits (n + m))).push (.int t.size (.ofInt _ (n + m)))) := by
  rw [BitVec.ofInt_add]
  exact run_plain Cell.merge_int

theorem run_sub : ((s.push (.int t.size (.ofInt _ n))).push (.int t.size (.ofInt _ m))).run others
    [(Opcode.sub (.int t)).plain] =
      some ((s.tell (BitVec.ofInt t.size.bits (n - m))).push (.int t.size (.ofInt _ (n - m)))) := by
  rw [BitVec.ofInt_sub]
  exact run_plain Cell.merge_int

variable (others) (s) (n) in
/-- A conversion takes the integer for one of its own type. Nothing changes but the flags. -/
theorem run_widening {u : IntType} {op : Option Opcode}
    (h : (DataType.int t).widening (.int u) = .ok op) :
    ∃ s' : Store W, s'.slots = s.slots ∧ s'.stack = s.stack ∧
      (s.push (.int t.size (.ofInt _ n))).run others (op.map Opcode.plain).toList =
        some (s'.push (.int u.size (.ofInt _ (t.wrap n)))) := by
  have hcompute : Code.compute? (op.map Opcode.plain).toList ((Value.wrapped t n).cell :: s.stack) = _ :=
    Value.widening_computes rfl h
  have hread : (Value.wrapped t n).readAs (.int u) = .wrapped u (t.wrap n) := rfl
  rw [hread, Value.cell_wrapped, Value.cell_wrapped] at hcompute
  cases op with
  | none =>
    obtain ⟨hcell, -⟩ := List.cons.inj (Option.some.inj hcompute)
    exact ⟨s, rfl, rfl, congrArg (fun c => some (s.push c)) hcell⟩
  | some op =>
    rw [Code.compute?_toList] at hcompute
    exact ⟨s.tell (BitVec.ofInt u.size.bits (t.wrap n)), rfl, rfl, run_plain hcompute⟩

/-- A comparison leaves nothing but the flags of a difference. -/
theorem run_compare {v : Value} (hv : v.cell = .int t.size (.ofInt _ m)) :
    (s.push (.int t.size (.ofInt _ n))).run others [(Opcode.compare t).given v] =
      some (s.tell (BitVec.ofInt t.size.bits (n - m))) := by
  simp only [run_singleton, act?, Opcode.given, pop, push, hv, Cell.bits?_int, Option.bind_some,
    Option.map_some, BitVec.ofInt_sub]

end Store

/-! ## Where it goes -/

/-- The text behind a label. -/
def entriesBehind? (name : String) : List Entry → Option (List Entry)
  | [] => none
  | .label l _ :: rest => if l = name then some rest else entriesBehind? name rest
  | .instruction _ :: rest => entriesBehind? name rest

section Machine

variable {W : Type} (others : Instruction → Store W → Option (Store W)) (text : List Entry)

/-- The goal of a jump. Outside of the text the machine does not go. -/
def goal? (i : Instruction) : Option (List Entry) := i.label.bind fun name => entriesBehind? name text

/-- Behind a jump that is taken, or is not. -/
def follow? (i : Instruction) (rest : List Entry) (taken : Bool) (s : Store W) :
    Option (List Entry × Store W) :=
  if taken then (goal? text i).map (·, s) else some (rest, s)

/-- One step, with the text in front. -/
def advance? : List Entry × Store W → Option (List Entry × Store W)
  | ([], _) => none
  | (.label .. :: rest, s) => some (rest, s)
  | (.instruction i :: rest, s) =>
    match i.opcode with
    | .jump => follow? text i rest true s
    | .branch test => follow? text i rest (test.holds s.flags) s
    | .jumpZero z => s.pop z fun b s => follow? text i rest (b == 0) s
    | .jumpNonzero z => s.pop z fun b s => follow? text i rest (b != 0) s
    | _ => (s.act? others i).map (rest, ·)

/-- From one state the machine comes to another, and each time that it has the text `entry` in front, it
takes down the counter. -/
inductive Visits (entry : List Entry) (counter : String) :
    List Entry × Store W → List Cell → List Entry × Store W → Prop where
  | refl (c : List Entry × Store W) : Visits entry counter c [] c
  | pass {c d e : List Entry × Store W} {cells : List Cell} (elsewhere : c.1 ≠ entry)
      (step : advance? others text c = some d) (rest : Visits entry counter d cells e) :
      Visits entry counter c cells e
  | enter {c d e : List Entry × Store W} {cells : List Cell} (here : c.1 = entry)
      (step : advance? others text c = some d) (rest : Visits entry counter d cells e) :
      Visits entry counter c (c.2.slots counter :: cells) e

variable {others} {text} {entry : List Entry} {counter : String} {c d e : List Entry × Store W}
  {cells cells' : List Cell}

/-! ## Labels -/

/-- A label stands once in the text, so a jump finds it. -/
theorem entriesBehind?_eq {name : String} {isSubroutine : Bool} {front rest : List Entry}
    (h : (labelsOf (front ++ .label name isSubroutine :: rest)).Nodup) :
    entriesBehind? name (front ++ .label name isSubroutine :: rest) = some rest := by
  induction front with
  | nil => simp [entriesBehind?]
  | cons entry front ih =>
    rw [List.cons_append] at h ⊢
    cases entry with
    | instruction i => exact ih h
    | label l sub =>
      have hmem : name ∈ labelsOf (front ++ .label name isSubroutine :: rest) := by
        simp [labelsOf, Entry.label?]
      have hne : l ≠ name := fun heq => (List.nodup_cons.1 h).1 (heq ▸ hmem)
      rw [entriesBehind?, if_neg hne]
      exact ih (List.nodup_cons.1 h).2

theorem entriesBehind?_of_suffix {name : String} {isSubroutine : Bool} {es rest : List Entry}
    (hlabels : (labelsOf es).Nodup) (h : .label name isSubroutine :: rest <:+ es) :
    entriesBehind? name es = some rest := by
  obtain ⟨front, rfl⟩ := h
  exact entriesBehind?_eq hlabels

/-- The text behind a label is an end of the text. -/
theorem entriesBehind?_suffix {name : String} {es p : List Entry} (h : entriesBehind? name es = some p) :
    p <:+ es ∧ p.length < es.length := by
  induction es with
  | nil => cases h
  | cons entry es ih =>
    have hrest (h : entriesBehind? name es = some p) : p <:+ entry :: es ∧ p.length < (entry :: es).length :=
      ⟨(ih h).1.trans (List.suffix_cons ..), Nat.lt_succ_of_lt (ih h).2⟩
    cases entry with
    | instruction i => exact hrest h
    | label l sub =>
      rw [entriesBehind?] at h
      split at h
      · cases h
        exact ⟨List.suffix_cons .., Nat.lt_succ_self _⟩
      · exact hrest h

theorem goal?_suffix {i : Instruction} {p : List Entry} (h : goal? text i = some p) : p <:+ text := by
  obtain ⟨name, -, hname⟩ := Option.bind_eq_some_iff.1 h
  exact (entriesBehind?_suffix hname).1

/-- What one step can do: it passes the first entry or goes to a label, and what is in the variables and
registers changes only if an instruction acts. -/
theorem advance?_cases {p : List Entry} {s : Store W} (h : advance? others text (p, s) = some d) :
    ∃ entry rest, p = entry :: rest ∧ (d.1 = rest ∨ d.1 <:+ text) ∧
      (d.2.slots = s.slots ∨ ∃ i, entry = .instruction i ∧ s.act? others i = some d.2) := by
  cases p with
  | nil => cases h
  | cons entry rest =>
    refine ⟨entry, rest, rfl, ?_⟩
    have hfollow {i : Instruction} {taken : Bool} {t : Store W} (ht : t.slots = s.slots)
        (h : follow? text i rest taken t = some d) : (d.1 = rest ∨ d.1 <:+ text) ∧ d.2.slots = s.slots := by
      unfold follow? at h
      split at h
      · obtain ⟨q, hq, rfl⟩ := Option.map_eq_some_iff.1 h
        exact ⟨.inr (goal?_suffix hq), ht⟩
      · cases h
        exact ⟨.inl rfl, ht⟩
    have hpop {i : Instruction} {z : IntSize} {taken : BitVec z.bits → Bool}
        (h : s.pop z (fun b s => follow? text i rest (taken b) s) = some d) :
        (d.1 = rest ∨ d.1 <:+ text) ∧ d.2.slots = s.slots := by
      unfold Store.pop at h
      split at h
      · obtain ⟨b, -, hb⟩ := Option.bind_eq_some_iff.1 h
        refine hfollow ?_ hb
        rfl
      · cases h
    cases entry with
    | label l sub =>
      cases h
      exact ⟨.inl rfl, .inl rfl⟩
    | instruction i =>
      simp only [advance?] at h
      split at h
      · exact (hfollow rfl h).imp_right .inl
      · exact (hfollow rfl h).imp_right .inl
      · exact (hpop h).imp_right .inl
      · exact (hpop h).imp_right .inl
      · obtain ⟨t, ht, rfl⟩ := Option.map_eq_some_iff.1 h
        exact ⟨.inl rfl, .inr ⟨i, rfl, ht⟩⟩

/-- The machine stays in its text. -/
theorem advance?_suffix (h : advance? others text c = some d) (hc : c.1 <:+ text) : d.1 <:+ text := by
  obtain ⟨entry, rest, hp, hd, -⟩ := advance?_cases h
  rcases hd with hd | hd
  · rw [hd]
    exact (hp ▸ List.suffix_cons entry rest).trans hc
  · exact hd

/-- Straight code is no jump. -/
theorem advance?_straight {i : Instruction} {rest : List Entry} {s : Store W} (h : i.IsStraight) :
    advance? others text (.instruction i :: rest, s) = (s.act? others i).map (rest, ·) := by
  simp only [advance?]
  split
  case h_5 => rfl
  all_goals
    next hop => simp [Instruction.IsStraight, hop, Opcode.effect?] at h

/-! ## Runs -/

namespace Visits

theorem trans (h : Visits others text entry counter c cells d)
    (h' : Visits others text entry counter d cells' e) :
    Visits others text entry counter c (cells ++ cells') e := by
  induction h with
  | refl => exact h'
  | pass elsewhere step _ ih => exact .pass elsewhere step (ih h')
  | enter here step _ ih => exact .enter here step (ih h')

/-- Behind a run that does not come by the entry. -/
theorem after (h : Visits others text entry counter c [] d)
    (h' : Visits others text entry counter d cells e) : Visits others text entry counter c cells e :=
  h.trans h'

/-- A step somewhere else. -/
theorem one (elsewhere : c.1 ≠ entry) (step : advance? others text c = some d) :
    Visits others text entry counter c [] d :=
  .pass elsewhere step (.refl d)

/-- Past a label. -/
theorem label {name : String} {isSubroutine : Bool} {rest : List Entry} {s : Store W}
    (hlen : rest.length + 1 ≠ entry.length) :
    Visits others text entry counter (.label name isSubroutine :: rest, s) [] (rest, s) :=
  .one (fun h => hlen (congrArg List.length h)) rfl

/-- A branch leads to the text behind its label if the test holds, and is passed otherwise. -/
theorem branch {test : FlagTest} {name : String} {goal rest : List Entry} {s : Store W}
    (hgoal : entriesBehind? name text = some goal) (hlen : rest.length + 1 ≠ entry.length) :
    Visits others text entry counter (.instruction ((Opcode.branch test).named name) :: rest, s) []
      (if test.holds s.flags then goal else rest, s) := by
  refine .one (fun h => hlen (congrArg List.length h)) ?_
  simp only [advance?, follow?, goal?, Opcode.named, Option.bind_some, hgoal, Option.map_some]
  split <;> rfl

/-- A jump on a value takes it off the stack. -/
theorem jumpNonzero {z : IntSize} {b : BitVec z.bits} {name : String} {goal rest : List Entry} {s : Store W}
    (hgoal : entriesBehind? name text = some goal) (hlen : rest.length + 1 ≠ entry.length) :
    Visits others text entry counter
      (.instruction ((Opcode.jumpNonzero z).named name) :: rest, s.push (.int z b)) []
      (if b = 0 then rest else goal, s) := by
  refine .one (fun h => hlen (congrArg List.length h)) ?_
  simp only [advance?, Opcode.named, Store.pop, Store.push, Cell.bits?_int, Option.bind_some, follow?, goal?,
    hgoal, Option.map_some, bne_iff_ne, ne_eq, ite_not]
  split <;> rfl

theorem jumpIf {holds : Bool} {name : String} {goal rest : List Entry} {s : Store W}
    (hgoal : entriesBehind? name text = some goal) (hlen : rest.length + 1 ≠ entry.length) :
    Visits others text entry counter
      (.instruction ((Opcode.jumpNonzero .byte).named name) :: rest, s.push (.ofBool holds)) []
      (if holds then goal else rest, s) := by
  cases holds <;> exact jumpNonzero hgoal hlen

/-- Straight code that stands somewhere else: in front of the entry or behind it. -/
theorem straight {code : Code} {rest : List Entry} {s s' : Store W} (hcode : Straight code)
    (hrun : s.run others code = some s')
    (hlen : rest.length + code.length < entry.length ∨ entry.length ≤ rest.length) :
    Visits others text entry counter (code.map .instruction ++ rest, s) [] (rest, s') := by
  induction code generalizing s with
  | nil =>
    cases hrun
    exact .refl _
  | cons i code ih =>
    rw [Store.run_cons, Option.bind_eq_some_iff] at hrun
    obtain ⟨t, ht, hrun⟩ := hrun
    rw [List.length_cons] at hlen
    have helsewhere : Entry.instruction i :: (code.map .instruction ++ rest) ≠ entry := by
      rintro rfl
      simp only [List.length_cons, List.length_append, List.length_map] at hlen
      omega
    have hstep : advance? others text (.instruction i :: (code.map .instruction ++ rest), s) =
        some (code.map .instruction ++ rest, t) := by
      rw [advance?_straight (hcode i List.mem_cons_self), ht]
      rfl
    exact .pass helsewhere hstep (ih (fun j hj => hcode j (List.mem_cons_of_mem _ hj)) hrun (by omega))

end Visits
end Machine
end StackCode
