/-
What is lowered of a choice on a value. The bodies come in the order of the choices, each behind
the label that the comparisons of its values lead to, and the jump behind the last one is taken back.
-/
import StackCode.Proofs.Choice.Removed
import StackCode.Proofs.Flow.Preserved

namespace StackCode

/-! ## Choices -/

/-- The statements of the scope write these entries. -/
def Scope.IsWritten (env : Environment) (ctx : Context) (s : Scope) (es : List Entry) : Prop :=
  ∃ start stop, s.lower env ctx start = .ok ((), stop) ∧ Writes start es stop

namespace Choice

/-- One of the values is `x`, or it is the choice for all other cases. -/
def covers (symbols : SymbolTable) (x : Int) (c : Choice) : Bool :=
  match c.values with
  | none => true
  | some values => values.any fun e => e.constantInt? symbols = some x

/-- The values are constant integers of the type. -/
def IsRepresentable (symbols : SymbolTable) (t : IntType) (c : Choice) : Prop :=
  ∀ values, c.values = some values → ∀ e ∈ values, ∃ n, e.constantInt? symbols = some n ∧ t.Holds n

/-- The choice has these values, and its body writes this body. -/
structure IsArm (env : Environment) (ctx : Context) (t : IntType) (c : Choice) (a : Arm) : Prop where
  values : ∃ es, c.values = some es ∧ choiceValues env.symbols t es = .ok a.values
  some : a.values ≠ []
  body : c.body.IsWritten env ctx a.body

/-- The choice is the one for all other cases, and its body writes this body. -/
structure IsOtherwise (env : Environment) (ctx : Context) (c : Choice) (body : List Entry) : Prop where
  values : c.values = none
  body : c.body.IsWritten env ctx body

end Choice

section Values

variable {env : Environment} {ctx : Context} {t : IntType} {x : Int}

/-- Constants of the type are compared as what they are. -/
theorem choiceValues_ok {symbols : SymbolTable} {es : List Expr} {vs : List Value}
    (h : choiceValues symbols t es = .ok vs)
    (hes : ∀ e ∈ es, ∃ n, e.constantInt? symbols = some n ∧ t.Holds n) :
    List.Forall₂ (fun e v => ∃ n, e.constantInt? symbols = some n ∧ t.Holds n ∧ v = .wrapped t n) es vs := by
  rw [choiceValues, Lowered.mapM_ok_iff] at h
  induction h with
  | nil => exact .nil
  | @cons e v es vs hv _ ih =>
    obtain ⟨n, hn, ht⟩ := hes e List.mem_cons_self
    obtain ⟨c, hc, hint⟩ := Option.bind_eq_some_iff.1 hn
    have hcast : c.cast (.int t) = .ok (.wrapped t n) := by
      cases c with
      | int u m radix =>
        cases hint
        rfl
      | float f => cases hint
    rw [hc] at hv
    simp only [hcast, Except.ok.injEq] at hv
    exact .cons ⟨n, hn, ht, hv.symm⟩ (ih fun e he => hes e (List.mem_cons_of_mem _ he))

/-- The values of a choice are compared with the integer as the choice says. -/
theorem Choice.IsArm.matches_eq {c : Choice} {a : Arm} (h : c.IsArm env ctx t a)
    (hc : c.IsRepresentable env.symbols t) : a.matches x = c.covers env.symbols x := by
  obtain ⟨es, hes, hvalues⟩ := h.values
  unfold Arm.matches Choice.covers
  rw [hes]
  have hsame := choiceValues_ok hvalues (hc es hes)
  clear hes hvalues
  generalize a.values = vs at hsame ⊢
  induction hsame with
  | nil => rfl
  | @cons e v es vs hv _ ih =>
    obtain ⟨n, hn, ht, rfl⟩ := hv
    dsimp only at ih ⊢
    rw [List.any_cons, List.any_cons, hn, Value.wrapped, Value.int?, IntType.wrap_eq_self ht, ih]

end Values

/-- The last of what has been written is what is taken back. -/
theorem Writes.latest_eq {es : List Entry} {i j : Instruction} {out mid out' : Output}
    (hw : Writes out (es ++ [.instruction i]) mid)
    (h : perform Sink.removeLatest mid = .ok (j, out')) : j = i := by
  obtain ⟨hcode, -⟩ := removeLatest_ok h
  have hlast : out.sink.code ++ es ++ [.instruction i] = out'.sink.code ++ [.instruction j] := by
    rw [← hcode, hw.code, List.append_assoc]
  cases (List.append_inj' hlast rfl).2
  rfl

namespace Dispatch

/-- All that stands in front of the label at the end. -/
def before (d : Dispatch) : List Entry :=
  d.condition.map .instruction ++ ((testsCode d.type (tests d.arms)).map .instruction ++
    (d.otherwise.getD [] ++ d.arms.flatMap fun a =>
      .instruction (Opcode.jump.named d.leave) :: .label a.label false :: a.body))

/-- The text with a jump behind its last body as well. -/
def jumping (d : Dispatch) : List Entry := d.before ++ .instruction (Opcode.jump.named d.leave) :: d.exit

/-- The choices of the dispatch are these ones, and the one for all other cases is the last. -/
def IsOf (d : Dispatch) (env : Environment) (ctx : Context) (choices : List Choice) : Prop :=
  ∃ cs rest, choices = cs ++ rest ∧ List.Forall₂ (Choice.IsArm env ctx d.type) cs d.arms ∧
    List.Forall₂ (Choice.IsOtherwise env ctx) rest d.otherwise.toList

/-- The dispatch is what has been written, with the bodies of the choices. Before the end was written, the
jump behind the last body was there, and it has been taken back. -/
structure IsLowered (d : Dispatch) (env : Environment) (ctx : Context) (condition : Expr)
    (choices : List Choice) (out out' : Output) : Prop where
  type : condition.type? env.symbols = some (.int d.type)
  condition : condition.code env.symbols = .ok d.condition
  ofChoices : d.IsOf env ctx choices
  bodies : List.Forall₂ (fun c part => c.body.IsWritten env ctx part.1) choices d.parts
  writes : Writes out d.text out'
  taken : choices ≠ [] → ∃ mid mid',
    Writes out (d.before ++ [.instruction (Opcode.jump.named d.leave)]) mid ∧
      perform Sink.removeLatest mid = .ok (Opcode.jump.named d.leave, mid') ∧ Writes mid' d.exit out'

variable {d : Dispatch} {env : Environment} {ctx : Context} {t : IntType} {x : Int}

theorem bodies_eq (arms : List Arm) : d.bodies arms = (arms.flatMap fun a =>
    .instruction (Opcode.jump.named d.leave) :: .label a.label false :: a.body) ++ d.exit := by
  induction arms with
  | nil => rfl
  | cons a arms ih =>
    rw [bodies, ih]
    simp only [List.flatMap_cons, List.cons_append, List.append_assoc]

theorem text_eq : d.text = d.before ++ d.exit := by
  simp only [text, head, rest, before, bodies_eq, List.append_assoc]

/-! ## The comparisons -/

/-- A choice with values behind its comparisons, when its body is still to be written. -/
structure Pending where
  choice : Choice
  label : String
  values : List Value

namespace Pending

def writer (env : Environment) (ctx : Context) (p : Pending) : String × Writer Unit :=
  (p.label, p.choice.body.lower env ctx)

/-- The choice has values, and these are the ones it is compared with. -/
structure IsTested (symbols : SymbolTable) (t : IntType) (p : Pending) : Prop where
  values : ∃ es, p.choice.values = some es ∧ choiceValues symbols t es = .ok p.values
  some : p.values ≠ []

end Pending

theorem isWritten_of_lower {s : Scope} {out out' : Output} {u : Unit} (h : s.lower env ctx out = .ok (u, out')) :
    ∃ es, s.IsWritten env ctx es ∧ Writes out es out' := by
  obtain ⟨ps, -, hwrites⟩ := (s.lower_adds env ctx).writes h
  exact ⟨entriesOf ps, ⟨out, out', h, hwrites⟩, hwrites⟩

/-- What stands in front of the bodies: the comparisons of the choices with values, and the bodies of those
without, in the order of the choices. -/
inductive IsHead (env : Environment) (ctx : Context) (t : IntType) :
    List Choice → List Pending → List Entry → Prop where
  | nil : IsHead env ctx t [] [] []
  | otherwise {c : Choice} {body es : List Entry} {cs : List Choice} {ps : List Pending}
      (first : c.IsOtherwise env ctx body) (rest : IsHead env ctx t cs ps es) :
      IsHead env ctx t (c :: cs) ps (body ++ es)
  | tested {p : Pending} {es : List Entry} {cs : List Choice} {ps : List Pending}
      (first : p.IsTested env.symbols t) (rest : IsHead env ctx t cs ps es) :
      IsHead env ctx t (p.choice :: cs) (p :: ps) ((choiceTests t p.label p.values).map .instruction ++ es)

theorem choiceHeads_ok {choices : List Choice} {out out' : Output} {writers : List (String × Writer Unit)}
    (h : choiceHeads env ctx t (Choice.parts env ctx choices) out = .ok (writers, out')) :
    ∃ ps es, IsHead env ctx t choices ps es ∧ writers = ps.map (Pending.writer env ctx) ∧
      Writes out es out' := by
  induction choices generalizing out writers with
  | nil =>
    obtain ⟨rfl, rfl⟩ := Writer.pure_ok_iff.1 h
    exact ⟨[], [], .nil, rfl, .refl _⟩
  | cons c choices ih =>
    obtain ⟨values, body⟩ := c
    cases values with
    | none =>
      simp only [Choice.parts, choiceHeads, Writer.bind_ok_iff] at h
      obtain ⟨u, mid, hbody, hrest⟩ := h
      obtain ⟨es, hwritten, hwrites⟩ := isWritten_of_lower hbody
      obtain ⟨ps, es', hhead, rfl, hwrites'⟩ := ih hrest
      exact ⟨ps, es ++ es', .otherwise ⟨rfl, hwritten⟩ hhead, rfl, hwrites.append hwrites'⟩
    | some values =>
      simp only [Choice.parts, choiceHeads, Writer.bind_ok_iff, Writer.lift_ok_iff] at h
      obtain ⟨vs, mid, ⟨hvs, rfl⟩, h⟩ := h
      cases vs with
      | nil => exact (Writer.throw_ok_iff.1 h).elim
      | cons v vs =>
        simp only [Writer.bind_ok_iff, Writer.pure_ok_iff] at h
        obtain ⟨label, mid, hlabel, u, mid', hemit, writers', mid'', hrest, rfl, rfl⟩ := h
        obtain ⟨-, hquiet, -⟩ := freshLabel_ok hlabel
        have htests := emit_appends (choiceTests_unmarked t label (v :: vs)) hemit
        obtain ⟨ps, es, hhead, rfl, hwrites⟩ := ih hrest
        let p : Pending := ⟨⟨some values, body⟩, label, v :: vs⟩
        have hp : p.IsTested env.symbols t := ⟨⟨values, rfl, hvs⟩, List.cons_ne_nil _ _⟩
        exact ⟨p :: ps, _, .tested hp hhead, rfl, hquiet.append (htests.toWrites.append hwrites)⟩

namespace IsHead

variable {choices : List Choice} {ps : List Pending} {es : List Entry}

theorem isTested (h : IsHead env ctx t choices ps es) : ∀ p ∈ ps, p.IsTested env.symbols t := by
  induction h with
  | nil => exact nofun
  | otherwise _ _ ih => exact ih
  | tested first _ ih => exact List.forall_mem_cons.2 ⟨first, ih⟩

/-- The comparisons of all choices with values, and behind them the body of the choice without values, if that
is the last. -/
theorem of_last (h : IsHead env ctx t choices ps es) (hlast : ∀ c ∈ choices.dropLast, c.values.isSome) :
    ∃ (rest : List Choice) (otherwise : Option (List Entry)), choices = ps.map (·.choice) ++ rest ∧
      List.Forall₂ (Choice.IsOtherwise env ctx) rest otherwise.toList ∧
      es = (ps.flatMap fun p => choiceTests t p.label p.values).map .instruction ++ otherwise.getD [] := by
  induction h with
  | nil => exact ⟨[], none, rfl, .nil, rfl⟩
  | @otherwise c body es cs ps first rest =>
    cases cs with
    | nil =>
      cases rest
      exact ⟨[c], some body, rfl, .cons first .nil, List.append_nil _⟩
    | cons d cs =>
      have hsome := hlast c List.mem_cons_self
      rw [first.values] at hsome
      cases hsome
  | @tested p es cs ps _ _ ih =>
    have hlast' : ∀ c ∈ cs.dropLast, c.values.isSome := fun c hc => by
      refine hlast c ?_
      cases cs with
      | nil => cases hc
      | cons d cs => exact List.mem_cons_of_mem _ hc
    obtain ⟨rest, otherwise, rfl, hother, rfl⟩ := ih hlast'
    refine ⟨rest, otherwise, rfl, hother, ?_⟩
    rw [List.flatMap_cons, List.map_append, List.append_assoc]

end IsHead

/-! ## The bodies -/

/-- The choice with its body. -/
structure Pending.IsArm (env : Environment) (ctx : Context) (t : IntType) (p : Pending) (a : Arm) : Prop where
  label : p.label = a.label
  values : p.values = a.values
  arm : p.choice.IsArm env ctx t a

/-- The bodies, each behind its label and with a jump behind it. -/
theorem choiceBodies_ok {leave : String} {ps : List Pending} (htested : ∀ p ∈ ps, p.IsTested env.symbols t)
    {out out' : Output} {u : Unit}
    (h : ((ps.map (Pending.writer env ctx)).forM fun (label, part) => do
      placeLabel label
      part
      emit [Opcode.jump.named leave]) out = .ok (u, out')) :
    ∃ arms : List Arm, List.Forall₂ (Pending.IsArm env ctx t) ps arms ∧
      Writes out (arms.flatMap fun a =>
        .label a.label false :: (a.body ++ [.instruction (Opcode.jump.named leave)])) out' := by
  induction ps generalizing out with
  | nil =>
    obtain ⟨-, rfl⟩ := Writer.pure_ok_iff.1 h
    exact ⟨[], .nil, .refl _⟩
  | cons p ps ih =>
    simp only [List.map_cons, List.forM, Writer.bind_ok_iff] at h
    obtain ⟨_, mid₃, ⟨_, mid₁, hlabel, _, mid₂, hbody, hemit⟩, hrest⟩ := h
    obtain ⟨es, hwritten, hwrites⟩ := isWritten_of_lower hbody
    have hjump := emit_appends (Unmarked.jump rfl) hemit
    obtain ⟨arms, harms, hbodies⟩ := ih (fun p hp => htested p (List.mem_cons_of_mem _ hp)) hrest
    have hp := htested p List.mem_cons_self
    refine ⟨⟨p.label, p.values, es⟩ :: arms, .cons ⟨rfl, rfl, hp.values, hp.some, hwritten⟩ harms, ?_⟩
    rw [List.flatMap_cons]
    have hwritten := (label_appends hlabel).toWrites.append (hwrites.append hjump.toWrites)
    exact hwritten.append hbodies

/-! ## The whole choice -/

theorem testsCode_eq (arms : List Arm) :
    testsCode t (tests arms) = arms.flatMap fun a => choiceTests t a.label a.values := by
  simp [testsCode, tests, choiceTests, List.flatMap_assoc, List.flatMap_map]

/-- The jump behind each body counts as the one in front of the next. -/
theorem jump_bodies (jump : Entry) (arms : List Arm) :
    jump :: (arms.flatMap fun a => .label a.label false :: (a.body ++ [jump])) =
      (arms.flatMap fun a => jump :: .label a.label false :: a.body) ++ [jump] := by
  induction arms with
  | nil => rfl
  | cons a arms ih =>
    simp only [List.flatMap_cons, List.cons_append, List.append_assoc, List.nil_append, ← ih]

theorem IsOf.isEmpty_iff {choices : List Choice} (h : d.IsOf env ctx choices) :
    d.isEmpty = true ↔ choices = [] := by
  obtain ⟨type, condition, arms, otherwise, leave⟩ := d
  obtain ⟨cs, rest, rfl, hcs, hrest⟩ := h
  cases otherwise with
  | none =>
    cases hrest
    cases hcs <;> simp [isEmpty]
  | some body =>
    cases hrest
    simp [isEmpty]

theorem isWritten_armParts {cs : List Choice} {arms : List Arm} (h : List.Forall₂ (Choice.IsArm env ctx t) cs arms) :
    List.Forall₂ (fun c part => c.body.IsWritten env ctx part.1) cs (d.armParts arms) := by
  induction h with
  | nil => exact .nil
  | cons h _ ih => exact .cons h.body ih

theorem IsOf.bodies {choices : List Choice} (h : d.IsOf env ctx choices) :
    List.Forall₂ (fun c part => c.body.IsWritten env ctx part.1) choices d.parts := by
  obtain ⟨cs, rest, rfl, hcs, hrest⟩ := h
  refine List.rel_append (isWritten_armParts hcs) ?_
  cases hother : d.otherwise with
  | none =>
    rw [hother] at hrest
    cases hrest
    exact .nil
  | some body =>
    rw [hother] at hrest
    cases hrest with
    | cons h hnil =>
      cases hnil
      exact .cons h.body .nil

/-- What is written of a choice: the code of the value, what stands in front of the bodies, and the bodies. The
jump behind the last body has been taken back. -/
theorem choose_ok {condition : Expr} {choices : List Choice} {position : Position} {out out' : Output} {u : Unit}
    (h : choose env ctx condition (Choice.parts env ctx choices) position out = .ok (u, out')) :
    ∃ t code, condition.type? env.symbols = some (.int t) ∧ condition.code env.symbols = .ok code ∧
      let drop := Entry.instruction (Opcode.discard (.int t.size)).plain
      (choices = [] ∧ Writes out (code.map .instruction ++ [drop]) out' ∨
        choices ≠ [] ∧ ∃ leave ps es arms mid mid',
          IsHead env ctx t choices ps es ∧ List.Forall₂ (Pending.IsArm env ctx t) ps arms ∧
          Writes out (code.map .instruction ++ (es ++ ((arms.flatMap fun a =>
            .instruction (Opcode.jump.named leave) :: .label a.label false :: a.body) ++
              [.instruction (Opcode.jump.named leave)]))) mid ∧
          perform Sink.removeLatest mid = .ok (Opcode.jump.named leave, mid') ∧
          Writes mid' [.label leave false, drop] out') := by
  simp only [choose, Writer.bind_ok_iff, Writer.lift_ok_iff, Expr.needType_ok_iff, orInvalid_ok_iff] at h
  obtain ⟨_, mid₁, hmark, type, _, ⟨htype, rfl⟩, t, _, ⟨hint, rfl⟩, _, mid₂, hcode, hrest⟩ := h
  obtain rfl := DataType.int?_eq_some hint
  obtain ⟨code, hcode, hemit⟩ := emitLowered_ok_iff.1 hcode
  have hunmarked := (Action.evaluate condition).code_straight code hcode |>.unmarked
  have hcondition : Writes out (code.map .instruction) mid₂ :=
    (mark_appends hmark).toWrites.append (emit_appends hunmarked hemit).toWrites
  have hdrop : Unmarked [(Opcode.discard (.int t.size)).plain] := by simp [Unmarked, Opcode.plain]
  refine ⟨t, code, htype, hcode, ?_⟩
  cases choices with
  | nil => exact .inl ⟨rfl, hcondition.append (emit_appends hdrop hrest).toWrites⟩
  | cons c choices =>
    have hsome : (Choice.parts env ctx (c :: choices)).isEmpty = false := by
      cases c
      rw [Choice.parts, List.isEmpty_cons]
    simp only [hsome, Bool.false_eq_true, if_false, Writer.bind_ok_iff] at hrest
    obtain ⟨leave, mid₃, hleave, writers, mid₄, hheads, _, mid₅, hjump, _, mid₆, hbodies, i, mid₇, hremove, _,
      mid₈, hlabel, hdiscard⟩ := hrest
    obtain ⟨-, hquiet, -⟩ := freshLabel_ok hleave
    obtain ⟨ps, es, hhead, rfl, hwrites⟩ := choiceHeads_ok hheads
    have hjump := emit_appends (Unmarked.jump rfl) hjump
    obtain ⟨arms, harms, hbodies⟩ := choiceBodies_ok hhead.isTested hbodies
    have hfull : Writes out (code.map .instruction ++ (es ++ ((arms.flatMap fun a =>
        .instruction (Opcode.jump.named leave) :: .label a.label false :: a.body) ++
          [.instruction (Opcode.jump.named leave)]))) mid₆ := by
      have hall := hcondition.append (hquiet.append (hwrites.append (hjump.toWrites.append hbodies)))
      rw [List.map_singleton, List.singleton_append, jump_bodies] at hall
      exact hall
    have hlast : Writes out ((code.map .instruction ++ es ++ arms.flatMap fun a =>
        .instruction (Opcode.jump.named leave) :: .label a.label false :: a.body) ++
          [.instruction (Opcode.jump.named leave)]) mid₆ := by
      simpa only [List.append_assoc] using hfull
    obtain rfl : i = Opcode.jump.named leave := hlast.latest_eq hremove
    exact .inr ⟨List.cons_ne_nil _ _, leave, ps, es, arms, mid₆, mid₇, hhead, harms, hfull, hremove,
      ((label_appends hlabel).append (emit_appends hdrop hdiscard)).toWrites⟩

/-- What is written of a choice is a dispatch. -/
theorem exists_isLowered {condition : Expr} {choices : List Choice} {position : Position}
    {out out' : Output} {u : Unit} (hlast : ∀ c ∈ choices.dropLast, c.values.isSome)
    (h : choose env ctx condition (Choice.parts env ctx choices) position out = .ok (u, out')) :
    ∃ d : Dispatch, d.IsLowered env ctx condition choices out out' := by
  obtain ⟨t, code, htype, hcode, ⟨rfl, hwrites⟩ | ⟨hne, leave, ps, es, arms, mid, mid', hhead, harms, hfull,
    hremove, hend⟩⟩ := choose_ok h
  · exact ⟨⟨t, code, [], none, ""⟩, htype, hcode, ⟨[], [], rfl, .nil, .nil⟩, .nil, hwrites, nofun⟩
  · obtain ⟨rest, otherwise, hchoices, hother, rfl⟩ := hhead.of_last hlast
    let d : Dispatch := ⟨t, code, arms, otherwise, leave⟩
    have hof : d.IsOf env ctx choices := by
      refine ⟨_, rest, hchoices, ?_, hother⟩
      exact List.forall₂_map_left_iff.2 (harms.imp fun _ _ harm => harm.arm)
    have hempty : d.isEmpty = false := by
      rw [← Bool.not_eq_true, hof.isEmpty_iff]
      exact hne
    have htestsCode : (ps.flatMap fun p => choiceTests t p.label p.values) = testsCode t (tests arms) := by
      rw [testsCode_eq]
      clear hhead hchoices hfull hof hempty d
      induction harms with
      | nil => rfl
      | cons harm _ ih => rw [List.flatMap_cons, List.flatMap_cons, harm.label, harm.values, ih]
    have hfull : Writes out (d.before ++ [.instruction (Opcode.jump.named leave)]) mid := by
      rw [htestsCode] at hfull
      simpa only [before, List.append_assoc] using hfull
    have hend : Writes mid' d.exit out' := by
      rw [exit, if_neg (Bool.eq_false_iff.1 hempty)]
      exact hend
    refine ⟨d, htype, hcode, hof, hof.bodies, ?_, fun _ => ⟨mid, mid', hfull, hremove, hend⟩⟩
    rw [text_eq]
    exact (hfull.removeLatest hremove).append hend

/-! ## Which body is selected -/

theorem IsOf.isSound {choices : List Choice} (h : d.IsOf env ctx choices) (hcondition : Straight d.condition)
    (hvalues : ∀ c ∈ choices, c.IsRepresentable env.symbols d.type) : d.IsSound where
  condition := hcondition
  values a ha := by
    obtain ⟨cs, rest, rfl, hcs, -⟩ := h
    obtain ⟨c, hc, harm⟩ := exists_of_mem_right hcs ha
    obtain ⟨es, hes, hvs⟩ := harm.values
    refine ⟨harm.some, fun v hv => ?_⟩
    have hsame := choiceValues_ok hvs (hvalues c (List.mem_append_left _ hc) es hes)
    obtain ⟨e, -, n, -, hn, hvn⟩ := exists_of_mem_right hsame hv
    exact ⟨n, hvn, hn⟩

theorem selectedFrom_eq {cs : List Choice} {arms : List Arm}
    (harms : List.Forall₂ (Choice.IsArm env ctx t) cs arms)
    (hvalues : ∀ c ∈ cs, c.IsRepresentable env.symbols t) {rest : List Choice}
    (hrest : List.Forall₂ (Choice.IsOtherwise env ctx) rest d.otherwise.toList) :
    d.selectedFrom x arms = ((cs ++ rest).findIdx? (·.covers env.symbols x)).bind
      ((d.armParts arms ++ (d.otherwise.map (·, d.bodies d.arms)).toList)[·]?) := by
  induction harms with
  | nil =>
    rw [List.nil_append, armParts, List.nil_append, selectedFrom]
    cases hother : d.otherwise with
    | none =>
      rw [hother] at hrest
      cases hrest
      rfl
    | some body =>
      rw [hother] at hrest
      cases hrest with
      | cons h hnil =>
        cases hnil
        simp [List.findIdx?_cons, Choice.covers, h.values]
  | @cons c a cs arms harm _ ih =>
    have hrest := ih fun c hc => hvalues c (List.mem_cons_of_mem _ hc)
    have hmatches := harm.matches_eq (x := x) (hvalues c List.mem_cons_self)
    rw [List.cons_append, List.findIdx?_cons, selectedFrom, hmatches, armParts]
    by_cases hcovers : c.covers env.symbols x
    · simp only [hcovers, if_true, Option.bind_some, List.cons_append, List.getElem?_cons_zero]
    · simp only [hcovers, Bool.false_eq_true, if_false, hrest, Option.bind_map]
      rfl

/-- The body that is selected is the one of the first choice that covers the integer. -/
theorem IsOf.selected_eq {choices : List Choice} (h : d.IsOf env ctx choices)
    (hvalues : ∀ c ∈ choices, c.IsRepresentable env.symbols d.type) :
    d.selected x = (choices.findIdx? (·.covers env.symbols x)).bind (d.parts[·]?) := by
  obtain ⟨cs, rest, rfl, hcs, hrest⟩ := h
  exact selectedFrom_eq hcs (fun c hc => hvalues c (List.mem_append_left _ hc)) hrest

end Dispatch

/-- **A choice on a value runs one body.** It is the one of the first choice that has the value, and the
machine comes to no other, nor does it come back to the code of the value. The jump that is taken back makes no
difference, wherever the machine is and whatever stands in front of it. -/
theorem choose_runs_first {env : Environment} {ctx : Context} {condition : Expr} {choices : List Choice}
    {position : Position} {out out' : Output} {u : Unit}
    (h : choose env ctx condition (Choice.parts env ctx choices) position out = .ok (u, out'))
    (hlast : ∀ c ∈ choices.dropLast, c.values.isSome)
    (hvalues : ∀ t, condition.type? env.symbols = some (.int t) →
      ∀ c ∈ choices, c.IsRepresentable env.symbols t) :
    ∃ d : Dispatch, d.IsLowered env ctx condition choices out out' ∧
      ∀ {W : Type} (others : Instruction → Store W → Option (Store W)) (front back : List Entry),
        (labelsOf (front ++ (d.text ++ back))).Nodup →
          (∀ x s, d.type.Holds x → d.Evaluates others x s → d.FallsThrough others front back s →
            ∃ arrivals s', d.Goes others front back (d.text ++ back, s) arrivals (back, s') ∧
              s'.stack = s.stack ∧
              arrivals.map Prod.fst = (((choices.findIdx? (·.covers env.symbols x)).bind (d.parts[·]?)).map
                (Dispatch.start back)).toList) ∧
          (choices ≠ [] → ∀ n p s, p <:+ front ++ (d.text ++ back) →
            steps? (Store.shuffle others) (front ++ (d.jumping ++ back)) n
                (withJump d.leave (d.exit ++ back) p, s) =
              (steps? (Store.shuffle others) (front ++ (d.text ++ back)) n (p, s)).map
                (Prod.map (withJump d.leave (d.exit ++ back)) id)) := by
  obtain ⟨d, hd⟩ := Dispatch.exists_isLowered hlast h
  have hcondition : Straight d.condition := (Action.evaluate condition).code_straight _ hd.condition
  have hrepresentable := hvalues d.type hd.type
  refine ⟨d, hd, fun others front back hlabels => ⟨fun x s hx heval hbody => ?_, fun hne n p s hp => ?_⟩⟩
  · rw [← hd.ofChoices.selected_eq hrepresentable]
    exact Dispatch.goes_selected (hd.ofChoices.isSound hcondition hrepresentable) hlabels hx heval hbody
  · have hempty : d.isEmpty = false := by
      rw [← Bool.not_eq_true, hd.ofChoices.isEmpty_iff]
      exact hne
    have hexit : d.exit = .label d.leave false :: d.behind := by rw [Dispatch.exit, hempty]; rfl
    have htext : front ++ (d.text ++ back) = (front ++ d.before) ++ .label d.leave false :: (d.behind ++ back) := by
      simp only [Dispatch.text_eq, hexit, List.append_assoc, List.cons_append]
    have hjumping : front ++ (d.jumping ++ back) = (front ++ d.before) ++
        .instruction (Opcode.jump.named d.leave) :: .label d.leave false :: (d.behind ++ back) := by
      simp only [Dispatch.jumping, hexit, List.append_assoc, List.cons_append]
    rw [htext] at hlabels hp ⊢
    rw [hjumping, hexit]
    exact steps?_withJump hlabels n hp

/-- A choice between two values and all others. The bodies are labels. -/
def sampleChoices : List Choice :=
  [⟨some [.number (.wrapped .ubyte 1), .number (.wrapped .ubyte 2)], ⟨"", [.label "main.few" {}], {}⟩⟩,
    ⟨none, ⟨"", [.label "main.many" {}], {}⟩⟩]

theorem Scope.IsWritten.of_label {env : Environment} {ctx : Context} {scope name : String}
    {position position' : Position} {es : List Entry}
    (h : IsWritten env ctx ⟨scope, [.label name position], position'⟩ es) : es = [.label name false] := by
  obtain ⟨start, stop, hlower, hwrites⟩ := h
  simp only [Scope.lower, Statement.lowerAll, Statement.lower, Writer.bind_ok_iff] at hlower
  obtain ⟨_, mid₂, ⟨_, mid₁, hmark, hplace⟩, hpure⟩ := hlower
  obtain ⟨-, rfl⟩ := Writer.pure_ok_iff.1 hpure
  have hcode := ((mark_appends hmark).append (label_appends hplace)).code
  exact List.append_cancel_left (hwrites.code.symm.trans hcode)

theorem sampleChoices_parts {d : Dispatch} {env : Environment} {ctx : Context} (h : d.IsOf env ctx sampleChoices) :
    ∃ label values, d.arms = [⟨label, values, [.label "main.few" false]⟩] ∧
      d.otherwise = some [.label "main.many" false] := by
  obtain ⟨cs, rest, hchoices, hcs, hrest⟩ := h
  rcases cs with _ | ⟨c, _ | ⟨c', cs⟩⟩
  · cases hchoices
    obtain ⟨_, _, h, -⟩ := List.forall₂_cons_left_iff.1 hrest
    cases h.values
  · cases hchoices
    obtain ⟨⟨label, values, body⟩, _, harm, hnil, harms⟩ := List.forall₂_cons_left_iff.1 hcs
    cases hnil
    obtain ⟨body', _, hother, hnil, hbody⟩ := List.forall₂_cons_left_iff.1 hrest
    cases hnil
    obtain rfl : body = [.label "main.few" false] := harm.body.of_label
    obtain rfl : body' = [.label "main.many" false] := hother.body.of_label
    exact ⟨label, values, harms, Option.toList_eq_singleton_iff.1 hbody⟩
  · simp only [sampleChoices, List.cons_append, List.cons.injEq] at hchoices
    obtain ⟨rfl, rfl, -⟩ := hchoices
    obtain ⟨_, _, -, h, -⟩ := List.forall₂_cons_left_iff.1 hcs
    obtain ⟨_, _, h, -⟩ := List.forall₂_cons_left_iff.1 h
    obtain ⟨es, hes, -⟩ := h.values
    cases hes

/-- The bodies are passed in one step. -/
theorem sampleChoices_fallThrough {W : Type} {others : Instruction → Store W → Option (Store W)} {s : Store W}
    {d : Dispatch} {env : Environment} {ctx : Context} (h : d.IsOf env ctx sampleChoices) :
    d.FallsThrough others [] [] s := by
  obtain ⟨label, values, harms, hother⟩ := sampleChoices_parts h
  have hparts : d.parts = [([.label "main.few" false], d.bodies []),
      ([.label "main.many" false], d.bodies d.arms)] := by
    simp only [Dispatch.parts, Dispatch.armParts, harms, hother, Option.map_some, Option.toList_some]
    rfl
  have hlength : (d.bodies d.arms).length = (d.bodies []).length + 3 := by
    rw [harms]
    simp [Dispatch.bodies]
  have htext : (d.bodies d.arms).length < d.text.length := by
    simp only [Dispatch.text, Dispatch.head, Dispatch.rest, hother, Option.getD_some, List.length_append,
      List.length_singleton]
    omega
  intro part hpart arrivals s₁ _
  have hunmarked : ¬ d.Marked [] (part.2 ++ []) := by
    intro hmarked
    have hlen : d.text.length = part.2.length ∨ ∃ q ∈ d.parts, q.1.length + q.2.length = part.2.length := by
      rcases hmarked with hp | ⟨q, hq, hp⟩
      · exact .inl (by simpa using congrArg List.length hp.symm)
      · exact .inr ⟨q, hq, by simpa [Dispatch.start] using congrArg List.length hp.symm⟩
    rw [hparts] at hpart hlen
    simp only [List.mem_cons, List.not_mem_nil, or_false] at hpart
    simp only [List.mem_cons, List.not_mem_nil, or_false, exists_eq_or_imp, exists_eq_left,
      List.length_singleton] at hlen
    rcases hpart with rfl | rfl <;> dsimp only at hlen <;> omega
  have hbody : ∃ l, part.1 = [.label l false] := by
    rw [hparts] at hpart
    simp only [List.mem_cons, List.not_mem_nil, or_false] at hpart
    rcases hpart with rfl | rfl
    · exact ⟨_, rfl⟩
    · exact ⟨_, rfl⟩
  obtain ⟨l, hbody⟩ := hbody
  refine ⟨s₁, ?_, rfl⟩
  rw [Dispatch.start, hbody]
  exact .pass rfl hunmarked

/-- Of a variable that is two the first body is run. -/
theorem sampleChoices_run : ∃ (out' : Output) (d : Dispatch) (s : Store Unit),
    choose sampleEnvironment { scope := "main" } (.var "main.b")
        (Choice.parts sampleEnvironment { scope := "main" } sampleChoices) {} sampleOutput = .ok ((), out') ∧
      Writes sampleOutput d.text out' ∧ d.Evaluates (fun _ _ => none) 2 s ∧
      ∃ arrivals s', d.Goes (fun _ _ => none) [] [] (d.text ++ [], s) arrivals ([], s') ∧
        s'.stack = s.stack ∧ arrivals.map Prod.fst = (d.parts[0]?.map (Dispatch.start [])).toList := by
  have hlowered : (choose sampleEnvironment { scope := "main" } (.var "main.b")
      (Choice.parts sampleEnvironment { scope := "main" } sampleChoices) {} sampleOutput).toOption.isSome := by
    decide +kernel
  have htype : (Expr.var "main.b").type? sampleEnvironment.symbols = some (.int .ubyte) := by decide
  have hvalues : ∀ t, (Expr.var "main.b").type? sampleEnvironment.symbols = some (.int t) →
      ∀ c ∈ sampleChoices, c.IsRepresentable sampleEnvironment.symbols t := by
    intro t ht c hc values hcv e he
    rw [htype] at ht
    cases ht
    simp only [sampleChoices, List.mem_cons, List.not_mem_nil, or_false] at hc
    rcases hc with rfl | rfl
    · cases hcv
      simp only [List.mem_cons, List.not_mem_nil, or_false] at he
      rcases he with rfl | rfl
      · exact ⟨1, rfl, by decide⟩
      · exact ⟨2, rfl, by decide⟩
    · cases hcv
  cases h : choose sampleEnvironment { scope := "main" } (.var "main.b")
      (Choice.parts sampleEnvironment { scope := "main" } sampleChoices) {} sampleOutput with
  | error e => simp [h, Except.toOption] at hlowered
  | ok result =>
    obtain ⟨u, out'⟩ := result
    obtain ⟨d, hd, hruns⟩ := choose_runs_first h (by decide) hvalues
    let s : Store Unit := ⟨fun _ => .int .byte 2, fun _ => false, [], ()⟩
    have hubyte : d.type = .ubyte := by
      have hsome := hd.type
      rw [htype] at hsome
      exact (NumType.int.inj (DataType.num.inj (Option.some.inj hsome))).symm
    have heval : d.Evaluates (fun _ _ => none) 2 s := by
      have hcode : d.condition = [(Opcode.pushVar (.int .byte)).named "main.b"] :=
        (Except.ok.inj hd.condition).symm
      refine ⟨s, ?_, rfl⟩
      rw [hcode, Dispatch.cell, hubyte]
      exact Store.run_pushVar rfl
    obtain ⟨hselected, -⟩ := hruns (fun _ _ => none) [] [] (by simpa using hd.writes.distinct)
    refine ⟨out', d, s, rfl, hd.writes, heval, ?_⟩
    exact hselected 2 s (by rw [hubyte]; decide) heval (sampleChoices_fallThrough hd.ofChoices)

end StackCode
