/-
Control flow from end to end: a list of plain statements that is lowered and the text
that is written for it do the same, whatever conditions come to and whatever the flags
are.
-/
import StackCode.Proofs.Flow.Simulation

namespace StackCode

/-! ## The code in the text -/

/-- The code that stands for an action is its code. -/
structure Part.HasCode (symbols : SymbolTable) (p : Part) : Prop where
  code : ∀ {n : Nat} {ps : List Piece} {n' : Nat}, p n ps n' → ∀ {a : Action} {c : Code},
    .code a c ∈ ps → a.code symbols = .ok c

namespace Part.HasCode

variable {symbols : SymbolTable} {p q : Part}

theorem just {ps : List Piece} (h : ∀ a c, Piece.code a c ∉ ps) : (Part.just ps).HasCode symbols where
  code hp _ _ hm := by
    obtain ⟨rfl, -⟩ := hp
    exact absurd hm (h _ _)

theorem append (hp : p.HasCode symbols) (hq : q.HasCode symbols) : (p ++ q).HasCode symbols where
  code h _ _ hm := by
    obtain ⟨ps₁, m, ps₂, h₁, h₂, rfl⟩ := h
    exact (List.mem_append.1 hm).elim (hp.code h₁) (hq.code h₂)

theorem given {α : Type} {x : Lowered α} {f : α → Part} (h : ∀ a, (f a).HasCode symbols) :
    (Part.given x f).HasCode symbols where
  code hp := by
    obtain ⟨a, -, hp⟩ := hp
    exact (h a).code hp

theorem fresh {scope suffix : String} {f : String → Part} (h : ∀ l, (f l).HasCode symbols) :
    (Part.fresh scope suffix f).HasCode symbols where
  code hp := (h _).code hp

theorem frame {scope : String} {f : LoopFrame → Part} (h : ∀ l, (f l).HasCode symbols) :
    (Part.frame scope f).HasCode symbols :=
  .fresh fun _ => .fresh fun _ => .fresh fun _ => h _

theorem ops (code : Code) : (Part.ops code).HasCode symbols := .just fun a c h => by
  simp [Piece.op] at h

theorem place (name : String) : (Part.place name).HasCode symbols := .just fun a c h => by
  simp [Piece.label] at h

theorem close (name : String) : (Part.close name).HasCode symbols := .just fun a c h => by
  simp [Piece.label, Piece.op] at h

theorem act (a : Action) : (Part.act symbols a).HasCode symbols where
  code h _ _ hm := by
    obtain ⟨c, hc, rfl, -⟩ := h
    cases List.mem_singleton.1 hm
    exact hc

theorem jump {env : Environment} {op : Opcode} {target : JumpTarget} :
    (Part.jump env op target).HasCode symbols :=
  .given fun _ => .ops _

theorem alternatives {away : Opcode} {elseLabel endLabel : String} {elseIdle : Bool}
    (hp : p.HasCode symbols) (hq : q.HasCode symbols) :
    (Part.alternatives away elseLabel endLabel elseIdle p q).HasCode symbols := by
  unfold Part.alternatives
  split
  · exact (ops _).append (hp.append (.close _))
  · exact (ops _).append (hp.append ((ops _).append ((place _).append (hq.append (.close _)))))

variable {env : Environment} {ctx : Context}

theorem conditional {condition : Expr} {thenScope elseScope : Scope} (hp : p.HasCode env.symbols)
    (hq : q.HasCode env.symbols) :
    (Part.conditional env ctx condition thenScope elseScope p q).HasCode env.symbols := by
  refine .given fun t => (act _).append ?_
  split
  · exact .given fun _ => .append .jump hq
  · refine .given fun _ => .fresh fun _ => ?_
    split
    · exact .alternatives hp hq
    · exact .fresh fun _ => .alternatives hp hq

theorem flagBranch {test : FlagTest} {thenScope elseScope : Scope} (hp : p.HasCode symbols)
    (hq : q.HasCode symbols) : (Part.flagBranch env ctx test thenScope elseScope p q).HasCode symbols := by
  unfold Part.flagBranch
  split
  · exact .just (by simp)
  · split
    · refine .append .jump ?_
      split
      · exact .jump
      · exact .just (by simp)
    · exact .fresh fun _ => .fresh fun _ => .alternatives hp hq

variable {condition : Expr} {scope : String} {body : LoopLabels → Part}

theorem whileLoop (hb : ∀ labels, (body labels).HasCode env.symbols) :
    (Part.whileLoop env condition scope body).HasCode env.symbols :=
  .fresh fun _ => .fresh fun _ => .fresh fun _ => .given fun _ => .given fun _ => (ops _).append <|
    (place _).append <| (hb _).append <| (place _).append <| (act _).append <| (ops _).append (close _)

theorem repeatLoop (hb : ∀ labels, (body labels).HasCode env.symbols) :
    (Part.repeatLoop env condition scope body).HasCode env.symbols :=
  .frame fun _ => .given fun _ => .given fun _ => (place _).append <| (hb _).append <|
    (place _).append <| (act _).append <| (ops _).append (close _)

theorem exit {kind : LoopExit} : (Part.exit ctx kind).HasCode symbols where
  code h := by
    obtain ⟨labels, -, h⟩ := h
    exact (ops _).code h

end Part.HasCode

section Statements

variable {env : Environment}

mutual

theorem Statement.emits_hasCode : ∀ (s : Statement) (ctx : Context), s.isPlain →
    (s.emits env ctx).HasCode env.symbols
  | .varDecl _, _, _ | .nop, _, _ => .just (by simp)
  | .assign .., _, _ | .step .., _, _ | .call .., _, _ => .act _
  | .jump _ _, _, _ => .jump
  | .cond _ thenPart elsePart _, ctx, hp => by
    rw [Statement.isPlain, Bool.and_eq_true] at hp
    exact .conditional (thenPart.emits_hasCode ctx hp.1) (elsePart.emits_hasCode ctx hp.2)
  | .branch _ thenPart elsePart _, ctx, hp => by
    rw [Statement.isPlain, Bool.and_eq_true] at hp
    exact .flagBranch (thenPart.emits_hasCode ctx hp.1) (elsePart.emits_hasCode ctx hp.2)
  | .exit _ _, _, _ => .exit
  | .whileLoop _ body _, ctx, hp => .whileLoop fun labels => body.emits_hasCode (ctx.inLoop labels) hp
  | .repeatLoop body _ _, ctx, hp => .repeatLoop fun labels => body.emits_hasCode (ctx.inLoop labels) hp
  | .scope s, ctx, hp => s.emits_hasCode ctx hp

theorem Scope.emits_hasCode : ∀ (s : Scope) (ctx : Context), s.isPlain →
    (s.emits env ctx).HasCode env.symbols
  | ⟨name, statements, position⟩, ctx, hp =>
    Statement.emitsAll_hasCode statements (ctx.inside ⟨name, statements, position⟩) hp

theorem Statement.emitsAll_hasCode : ∀ (ss : List Statement) (ctx : Context), Statement.arePlain ss →
    (Statement.emitsAll env ctx ss).HasCode env.symbols
  | [], _, _ => .just (by simp)
  | s :: rest, ctx, hp => by
    rw [Statement.arePlain, Bool.and_eq_true] at hp
    exact (s.emits_hasCode ctx hp.1).append (Statement.emitsAll_hasCode rest ctx hp.2)

end

end Statements

/-! ## The same runs -/

/-- Whatever the oracle says, the machine does with the text what the statements say: step by step, also
if this has no end, and it ends in the same way. -/
structure SameRuns (o : Oracle) (ss : List Statement) (text : List Piece) : Prop where
  performs : ∀ trace, Performs o text trace ↔ Statement.Perform o ss trace
  ends : ∀ trace ending, Ends o text trace ending ↔ Statement.End o ss trace ending

/-- What has been shown for each amount of fuel comes to the same runs: fuel that goes beyond a trace is
not used up before the end of the trace. -/
theorem SameRuns.of_fuel {o : Oracle} {ss : List Statement} {text : List Piece}
    (hcut : ∀ fuel, (Statement.execAll o fuel ss []).ending = .isCut →
      ∃ s, Steps o text (.runs text [] []) s ∧ s.trace = (Statement.execAll o fuel ss []).trace ∧
        fuel ≤ s.trace.length)
    (hends : ∀ fuel, (Statement.execAll o fuel ss []).ending ≠ .isCut →
      Ends o text (Statement.execAll o fuel ss []).trace (Statement.execAll o fuel ss []).ending) :
    SameRuns o ss text where
  performs trace := by
    constructor
    · rintro ⟨s, hs, rfl⟩
      obtain ⟨fuel, hfuel⟩ : ∃ fuel, s.trace.length < fuel := ⟨_, Nat.lt_succ_self _⟩
      refine ⟨fuel, ?_⟩
      by_cases h : (Statement.execAll o fuel ss []).ending = .isCut
      · obtain ⟨s', hs', htrace, hlong⟩ := hcut fuel h
        exact htrace ▸ (hs.of_longer hs' (Nat.lt_of_lt_of_le hfuel hlong)).trace_grows
      · rcases hs.total (hends fuel h) with hon | hon
        · exact hon.trace_grows
        · rw [Steps.of_left hon]
          exact List.prefix_rfl
    · rintro ⟨fuel, hprefix⟩
      have hreach : ∃ s, Steps o text (.runs text [] []) s ∧
          s.trace = (Statement.execAll o fuel ss []).trace := by
        by_cases h : (Statement.execAll o fuel ss []).ending = .isCut
        · obtain ⟨s, hs, htrace, -⟩ := hcut fuel h
          exact ⟨s, hs, htrace⟩
        · exact ⟨_, hends fuel h, rfl⟩
      obtain ⟨s, hs, htrace⟩ := hreach
      exact hs.exists_of_prefix List.nil_prefix (htrace ▸ hprefix)
  ends trace ending := by
    constructor
    · intro hleft
      obtain ⟨fuel, hfuel⟩ : ∃ fuel, trace.length < fuel := ⟨_, Nat.lt_succ_self _⟩
      have h : (Statement.execAll o fuel ss []).ending ≠ .isCut := fun h => by
        obtain ⟨s, hs, -, hlong⟩ := hcut fuel h
        have hlater := Steps.of_longer hleft hs (Nat.lt_of_lt_of_le hfuel hlong)
        rw [Steps.of_left hlater, State.trace] at hlong
        omega
      have heq : State.left trace ending = .left (Statement.execAll o fuel ss []).trace
          (Statement.execAll o fuel ss []).ending := by
        rcases Steps.total hleft (hends fuel h) with hon | hon
        · exact (Steps.of_left hon).symm
        · exact Steps.of_left hon
      cases heq
      exact ⟨h, fuel, rfl⟩
    · rintro ⟨hend, fuel, h⟩
      have h' := hends fuel (by rwa [h])
      rwa [h] at h'

/-- **Control flow is preserved.** The text that is written for plain statements holds their actions, and
does what they say, if they jump to nothing in it. -/
theorem Statement.lowerAll_sameRuns {env : Environment} {scope : String} {returnTypes : List DataType}
    {ss : List Statement} {out out' : Output} {u : Unit} {es : List Entry} (hp : arePlain ss)
    (h : lowerAll env { scope, returnTypes } ss out = .ok (u, out'))
    (hes : out'.sink.code = out.sink.code ++ es) (hj : ∀ x ∈ allOf ss, x.JumpsClearOf (labelsOf es)) :
    ∃ text, entriesOf text = es ∧
      (∀ a c, .code a c ∈ text → a.code env.symbols = .ok c ∧ Straight c) ∧
      ∀ o, SameRuns o ss text := by
  obtain ⟨text, hemits, hwrites⟩ := (Statement.lowerAll_adds env _ ss).writes h
  obtain rfl : entriesOf text = es := List.append_cancel_left (hwrites.code.symm.trans hes)
  have hcode : ∀ a c, .code a c ∈ text → a.code env.symbols = .ok c :=
    fun _ _ hm => (emitsAll_hasCode ss _ hp).code hemits hm
  refine ⟨text, rfl, fun a c hm => ⟨hcode a c hm, a.code_straight c (hcode a c hm)⟩, fun o => ?_⟩
  have hreached : ∀ fuel, (execAll o fuel ss []).Reached o text none [] [] (.runs text [] []) := by
    intro fuel
    have hsim : (emitsAll env { scope, returnTypes } ss).Simulates o text none
        fun trace => execAll o fuel ss trace :=
      emitsAll_simulates hwrites.distinct ss hp hj { scope, returnTypes }
    have hstands : Stands text text [] := ⟨[], by simp⟩
    simpa using hsim.reached hemits hstands [] []
  refine .of_fuel (fun fuel hcut => ?_) fun fuel hend => ?_
  · have hr := hreached fuel
    rw [Outcome.Reached, hcut] at hr
    obtain ⟨rest, values, hsteps⟩ := hr
    have hlong := (execAll_lasts ss []).long hcut
    rw [List.length_nil, Nat.zero_add] at hlong
    exact ⟨_, hsteps, rfl, hlong⟩
  · have hr := hreached fuel
    unfold Outcome.Reached at hr
    split at hr
    next hfalls =>
      rw [hfalls]
      exact hr.tail rfl
    next kind hexits =>
      obtain ⟨labels, hl, -⟩ := hr
      cases hl
    next g hgoes =>
      rw [hgoes]
      exact hr
    next hcut => exact absurd hcut hend

/-- Two byte variables. -/
def sampleEnvironment : Environment where
  symbols := .ofDeclarations
    [.var ⟨"main.b", .ubyte, .plain, none, [], {}⟩, .var ⟨"main.c", .ubyte, .plain, none, [], {}⟩]
  markLines := false
  loader := .ofTexts []

/-- A loop that may be left from inside, and a jump away. -/
def sampleStatements : List Statement :=
  [.whileLoop (.var "main.b")
      ⟨"", [.cond (.var "main.c") ⟨"", [.exit .leave {}], {}⟩ ⟨"", [.step (.var "main.c") .up {}], {}⟩ {}],
        {}⟩ {},
    .jump (.address 0xFFD2) {}]

/-- The block that the statements are written to. -/
def sampleOutput : Output where
  sink := { name := "sample", current := some { name := "main", address := none, options := [] } }

theorem sampleStatements_sameRuns : Statement.arePlain sampleStatements ∧
    ∃ out' text, Statement.lowerAll sampleEnvironment { scope := "main" } sampleStatements sampleOutput =
        .ok ((), out') ∧
      out'.sink.code = sampleOutput.sink.code ++ entriesOf text ∧
      ∀ o, SameRuns o sampleStatements text := by
  have hlowered : (Statement.lowerAll sampleEnvironment { scope := "main" } sampleStatements
      sampleOutput).toOption.isSome := by decide +kernel
  cases h : Statement.lowerAll sampleEnvironment { scope := "main" } sampleStatements sampleOutput with
  | error e => simp [h, Except.toOption] at hlowered
  | ok result =>
    obtain ⟨u, out'⟩ := result
    obtain ⟨ps, -, hwrites⟩ := (Statement.lowerAll_adds sampleEnvironment _ sampleStatements).writes h
    have hj : ∀ x ∈ Statement.allOf sampleStatements, x.JumpsClearOf (labelsOf (entriesOf ps)) := by
      simp [sampleStatements, Statement.allOf, Statement.withInner, Scope.inner, Statement.JumpsClearOf,
        JumpTarget.goal]
    obtain ⟨text, heq, -, hsame⟩ := Statement.lowerAll_sameRuns rfl h hwrites.code hj
    exact ⟨rfl, out', text, rfl, heq ▸ hwrites.code, hsame⟩

end StackCode
