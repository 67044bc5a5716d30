/-
What the constants of a choice are compared as. Each constant is converted to the type that is chosen on, and
the comparison is passed by the integer that this gives and by no other. A constant that is an integer of the
type is compared as what it is. Any other that is accepted has an integer of the type in its place, which is
not equal to it.
-/
import StackCode.Proofs.Arithmetic.Floats
import StackCode.Proofs.Choice.Statement

namespace StackCode

/-- The values of a choice are its constants, each converted to the type. -/
theorem choiceValues_ok_iff {symbols : SymbolTable} {t : IntType} {es : List Expr} {vs : List Value} :
    choiceValues symbols t es = .ok vs ↔ List.Forall₂ (fun e v => ∃ k n, e.constant? symbols = some k ∧
      k.converted? t = some n ∧ v = .wrapped t n) es vs := by
  have hsame {P Q : Expr → Value → Prop} (h : ∀ e v, P e v ↔ Q e v) :
      List.Forall₂ P es vs ↔ List.Forall₂ Q es vs :=
    ⟨fun hP => hP.imp fun _ _ => (h _ _).1, fun hQ => hQ.imp fun _ _ => (h _ _).2⟩
  rw [choiceValues, Lowered.mapM_ok_iff]
  refine hsame fun e v => ?_
  cases e.constant? symbols with
  | none => simp
  | some k =>
    have hcast : (∃ k' n, some k = some k' ∧ k'.converted? t = some n ∧ v = .wrapped t n) ↔
        k.cast (.int t) = .ok v := by
      simp only [Value.cast_int_ok_iff, Option.some.injEq, exists_and_left, exists_eq_left']
    rw [hcast]
    dsimp only
    cases k.cast (.int t) <;> simp

/-! ## A comparison -/

section Machine

variable {W : Type} {others : Instruction → Store W → Option (Store W)} {text rest goal : List Entry}
  {c d : List Entry × Store W} {s s' : Store W} {t : IntType} {label : String} {x n : Int}

theorem steps?_add (k l : Nat) : steps? others text (k + l) c =
    (steps? others text k c).bind (steps? others text l) := by
  induction k generalizing c with
  | zero => rw [Nat.zero_add]; rfl
  | succ k ih =>
    rw [Nat.succ_add, steps?, steps?, Option.bind_assoc]
    exact Option.bind_congr fun _ _ => ih

theorem steps?_straight {code : Code} (hcode : Straight code) (hrun : s.run others code = some s') :
    steps? others text code.length (code.map .instruction ++ rest, s) = some (rest, s') := by
  induction code generalizing s with
  | nil =>
    cases hrun
    rfl
  | cons i code ih =>
    rw [Store.run_cons, Option.bind_eq_some_iff] at hrun
    obtain ⟨t, ht, hrun⟩ := hrun
    rw [List.length_cons, steps?, List.map_cons, List.cons_append,
      advance?_straight (hcode i List.mem_cons_self), ht]
    exact ih (fun j hj => hcode j (List.mem_cons_of_mem _ hj)) hrun

variable (others) (s) (rest) in
/-- The value stays on the stack, and nothing but the flags has changed. -/
theorem steps?_comparison (hx : t.Holds x) (hn : t.Holds n) (hgoal : entriesBehind? label text = some goal) :
    steps? (Store.shuffle others) text 3 ((choiceTests t label [.wrapped t n]).map .instruction ++ rest,
        s.push (.int t.size (.ofInt _ x))) =
      some (if x = n then goal else rest,
        (s.tell (BitVec.ofInt t.size.bits (x - n))).push (.int t.size (.ofInt _ x))) := by
  let s' := (s.tell (BitVec.ofInt t.size.bits (x - n))).push (.int t.size (.ofInt _ x))
  let compare := [(Opcode.dup t.size).plain, (Opcode.compare t).given (.wrapped t n)]
  let goOn : Instruction := (Opcode.branch .zero).named label
  have hrun : (s.push (.int t.size (.ofInt _ x))).run (Store.shuffle others) compare = some s' := by
    have hsplit : compare = [(Opcode.dup t.size).plain] ++ [(Opcode.compare t).given (.wrapped t n)] := rfl
    rw [hsplit, Store.run_append, Store.run_dup, Option.bind_some, Store.run_compare (Value.cell_wrapped ..)]
    rfl
  have hstraight : Straight compare := (Straight.of_effect rfl).append (.of_effect rfl)
  have hcompare : steps? (Store.shuffle others) text 2 (compare.map .instruction ++ .instruction goOn :: rest,
      s.push (.int t.size (.ofInt _ x))) = some (.instruction goOn :: rest, s') :=
    steps?_straight hstraight hrun
  have hflag : FlagTest.zero.holds s'.flags = true ↔ x = n := by
    rw [← IntType.ofInt_sub_eq_zero hx hn]
    exact beq_iff_eq
  have hbranch : steps? (Store.shuffle others) text 1 (.instruction goOn :: rest, s') =
      some (if x = n then goal else rest, s') := by
    simp only [steps?, advance?, goOn, Opcode.named, follow?, goal?, Option.bind_some, hgoal, hflag, Option.map_some]
    split <;> rfl
  have htests : (choiceTests t label [.wrapped t n]).map .instruction ++ rest =
      compare.map .instruction ++ .instruction goOn :: rest := rfl
  rw [htests, steps?_add 2 1, hcompare]
  exact hbranch

end Machine

/-- In the text stands a comparison with an integer. From there the machine goes to the goal if that is the
value on the stack, and goes on behind the comparison if it is another one. -/
def Compares (text goal : List Entry) (t : IntType) (label : String) (n : Int) : Prop :=
  ∃ rest, (choiceTests t label [.wrapped t n]).map .instruction ++ rest <:+ text ∧
    ∀ {W : Type} (others : Instruction → Store W → Option (Store W)) (front back : List Entry) (x : Int)
      (s : Store W), (labelsOf (front ++ (text ++ back))).Nodup → t.Holds x →
        ∃ s' : Store W, s'.stack = s.stack ∧
          steps? (Store.shuffle others) (front ++ (text ++ back)) 3
              ((choiceTests t label [.wrapped t n]).map .instruction ++ (rest ++ back),
                s.push (.int t.size (.ofInt _ x))) =
            some ((if x = n then goal else rest) ++ back, s'.push (.int t.size (.ofInt _ x)))

namespace Compares

variable {text goal : List Entry} {t : IntType} {label : String} {n : Int}

/-- A comparison leads to where its label stands. -/
theorem of_suffix {rest : List Entry} (hn : t.Holds n)
    (htest : (choiceTests t label [.wrapped t n]).map .instruction ++ rest <:+ text)
    (hgoal : .label label false :: goal <:+ text) : Compares text goal t label n := by
  refine ⟨rest, htest, fun others front back x s hlabels hx => ?_⟩
  have hbehind : entriesBehind? label (front ++ (text ++ back)) = some (goal ++ back) := by
    obtain ⟨before, rfl⟩ := hgoal
    have hlabel : .label label false :: (goal ++ back) <:+ front ++ (before ++ .label label false :: goal ++ back) :=
      ⟨front ++ before, by simp only [List.append_assoc, List.cons_append]⟩
    exact entriesBehind?_of_suffix hlabels hlabel
  refine ⟨s.tell (BitVec.ofInt t.size.bits (x - n)), rfl, ?_⟩
  rw [steps?_comparison others (rest ++ back) s hx hn hbehind]
  split <;> rfl

end Compares

/-! ## The constants -/

/-- What the conversion of a constant gives is equal to the same integers of the type as the constant is, if
and only if the constant is one of them. -/
theorem Value.converted?_right {t : IntType} {k : Value} {n : Int} (h : k.converted? t = some n) :
    (∀ x : Int, t.Holds x → (x = n ↔ k.number? = some (x : ℚ))) ↔
      ∃ m : Int, t.Holds m ∧ k.number? = some (m : ℚ) := by
  have hn := Value.holds_of_converted? h
  constructor
  · exact fun hall => ⟨n, hn, (hall n hn).1 rfl⟩
  · intro hsome x _
    have hnumber := (Value.number?_of_converted? h).2 hsome
    rw [hnumber, Option.some.injEq, Int.cast_inj, eq_comm]

namespace Dispatch

variable {env : Environment} {ctx : Context} {t : IntType}

/-- The comparisons of a choice with values stand in front of the bodies. -/
theorem IsHead.exists_tested {choices : List Choice} {ps : List Pending} {es : List Entry}
    (h : IsHead env ctx t choices ps es) {c : Choice} {values : List Expr} (hc : c ∈ choices)
    (hvalues : c.values = some values) : ∃ p ∈ ps, p.choice = c ∧
      (choiceTests t p.label p.values).map .instruction <:+: es := by
  induction h with
  | nil => cases hc
  | otherwise first _ ih =>
    rcases List.mem_cons.1 hc with rfl | hc
    · cases hvalues.symm.trans first.values
    · obtain ⟨p, hp, hchoice, htests⟩ := ih hc
      exact ⟨p, hp, hchoice, htests.trans (List.suffix_append _ _).isInfix⟩
  | tested first _ ih =>
    rcases List.mem_cons.1 hc with rfl | hc
    · exact ⟨_, List.mem_cons_self, rfl, (List.prefix_append _ _).isInfix⟩
    · obtain ⟨p, hp, hchoice, htests⟩ := ih hc
      exact ⟨p, List.mem_cons_of_mem _ hp, hchoice, htests.trans (List.suffix_append _ _).isInfix⟩

/-- Each value has its comparison. -/
theorem choiceTests_infix {label : String} {v : Value} {vs : List Value} (h : v ∈ vs) :
    choiceTests t label [v] <:+: choiceTests t label vs := by
  rw [choiceTests, List.flatMap_singleton]
  exact List.infix_of_mem_flatten (List.mem_map_of_mem h)

end Dispatch

/-- **What a constant of a choice is compared as.** Each has a comparison of its own that leads to the body of the
choice, and it is passed by one integer of the type that is chosen on. The comparison tells which integers are
numerically equal to the constant if and only if the constant is an integer of that type. -/
theorem choose_compares {env : Environment} {ctx : Context} {condition : Expr} {choices : List Choice}
    {position : Position} {out out' : Output} {u : Unit}
    (h : choose env ctx condition (Choice.parts env ctx choices) position out = .ok (u, out')) :
    ∃ t text, condition.type? env.symbols = some (.int t) ∧ Writes out text out' ∧
      ∀ c ∈ choices, ∀ values, c.values = some values → ∃ label body behind,
        c.body.IsWritten env ctx body ∧ .label label false :: (body ++ behind) <:+ text ∧
          ∀ e ∈ values, ∃ k n, e.constant? env.symbols = some k ∧ k.converted? t = some n ∧
            Compares text (body ++ behind) t label n ∧
            ((∀ x : Int, t.Holds x → (x = n ↔ k.number? = some (x : ℚ))) ↔
              ∃ m : Int, t.Holds m ∧ k.number? = some (m : ℚ)) := by
  obtain ⟨t, code, htype, -, ⟨rfl, hwrites⟩ | ⟨-, leave, ps, es, arms, mid, mid', hhead, harms, hfull, hremove,
    hend⟩⟩ := Dispatch.choose_ok h
  · exact ⟨t, _, htype, hwrites, nofun⟩
  let bodies (arms : List Arm) : List Entry := arms.flatMap fun a =>
    .instruction (Opcode.jump.named leave) :: .label a.label false :: a.body
  let tail : List Entry := [.label leave false, .instruction (Opcode.discard (.int t.size)).plain]
  have hwrites : Writes out (code.map .instruction ++ (es ++ bodies arms) ++ tail) out' := by
    refine Writes.append (Writes.removeLatest (i := Opcode.jump.named leave) ?_ hremove) hend
    simpa only [List.append_assoc] using hfull
  refine ⟨t, _, htype, hwrites, fun c hc values hvalues => ?_⟩
  obtain ⟨p, hp, rfl, htests⟩ := hhead.exists_tested hc hvalues
  obtain ⟨a, ha, harm⟩ := exists_of_mem_right harms.flip hp
  obtain ⟨before, after, rfl⟩ := List.append_of_mem ha
  have hgoal : .label p.label false :: (a.body ++ (bodies after ++ tail)) <:+
      code.map .instruction ++ (es ++ bodies (before ++ a :: after)) ++ tail := by
    refine ⟨code.map .instruction ++ es ++ bodies before ++ [.instruction (Opcode.jump.named leave)], ?_⟩
    simp only [bodies, harm.label, List.flatMap_append, List.flatMap_cons, List.append_assoc, List.cons_append,
      List.nil_append]
  refine ⟨p.label, a.body, _, harm.arm.body, hgoal, fun e he => ?_⟩
  obtain ⟨es', hes', hchoice⟩ := (hhead.isTested p hp).values
  cases hvalues.symm.trans hes'
  obtain ⟨v, hv, k, n, hk, hn, rfl⟩ := exists_of_mem_right (choiceValues_ok_iff.1 hchoice).flip he
  have htest : (choiceTests t p.label [.wrapped t n]).map .instruction <:+:
      code.map .instruction ++ (es ++ bodies (before ++ a :: after)) ++ tail := by
    have hsingle : choiceTests t p.label [.wrapped t n] <:+: choiceTests t p.label p.values :=
      Dispatch.choiceTests_infix hv
    have hone := (hsingle.map Entry.instruction).trans htests
    exact hone.trans ((List.infix_append' _ _ _).trans (List.prefix_append _ _).isInfix)
  obtain ⟨front, rest, htext⟩ := htest
  have hsuffix : (choiceTests t p.label [.wrapped t n]).map .instruction ++ rest <:+
      code.map .instruction ++ (es ++ bodies (before ++ a :: after)) ++ tail :=
    ⟨front, by rw [← htext, List.append_assoc]⟩
  exact ⟨k, n, hk, hn, .of_suffix (Value.holds_of_converted? hn) hsuffix hgoal, Value.converted?_right hn⟩

/-- A choice between 256 and all others. The body is a label. -/
def wideChoices : List Choice := [⟨some [.number (.wrapped .uword 256)], ⟨"", [.label "main.few" {}], {}⟩⟩]

/-- Of a variable that is a byte, zero has the value 256. -/
theorem wideChoices_compare : ∃ (out' : Output) (text goal : List Entry) (label : String),
    choose sampleEnvironment { scope := "main" } (.var "main.b")
        (Choice.parts sampleEnvironment { scope := "main" } wideChoices) {} sampleOutput = .ok ((), out') ∧
      Writes sampleOutput text out' ∧ Compares text goal .ubyte label 0 ∧
      (Value.wrapped .uword 256).number? = some 256 := by
  have hlowered : (choose sampleEnvironment { scope := "main" } (.var "main.b")
      (Choice.parts sampleEnvironment { scope := "main" } wideChoices) {} sampleOutput).toOption.isSome := by
    decide +kernel
  cases h : choose sampleEnvironment { scope := "main" } (.var "main.b")
      (Choice.parts sampleEnvironment { scope := "main" } wideChoices) {} sampleOutput with
  | error e => simp [h, Except.toOption] at hlowered
  | ok result =>
    obtain ⟨t, text, htype, hwrites, hchoices⟩ := choose_compares h
    obtain ⟨label, body, behind, -, -, hvalues⟩ := hchoices _ List.mem_cons_self _ rfl
    obtain ⟨k, n, hk, hn, hcompares, -⟩ := hvalues _ List.mem_cons_self
    obtain rfl : .ubyte = t := by
      have hubyte : (Expr.var "main.b").type? sampleEnvironment.symbols = some (.int .ubyte) := by decide
      exact NumType.int.inj (DataType.num.inj (Option.some.inj (hubyte.symm.trans htype)))
    cases hk
    have hzero : (Value.wrapped .uword 256).converted? .ubyte = some 0 := by decide
    cases hzero.symm.trans hn
    exact ⟨result.2, text, body ++ behind, label, rfl, hwrites, hcompares, rfl⟩

end StackCode
