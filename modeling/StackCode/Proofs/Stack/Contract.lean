/-
The contract of the operand stack. Code of an expression adds one value of its type;
code of a statement leaves the stack as it was, and a return leaves what the subroutine
declares, the first value on top.

The type of a call is that of the subroutine that the table holds under the name in the
call, and the call that is emitted goes to the name that this subroutine has itself. So
the contract needs each subroutine to stand under its own name, as it does in a table
that is built from declarations.
-/
import StackCode.Proofs.Lowering.Emits

namespace StackCode

/-! ## Symbol tables of programs -/

theorem Declaration.name_of_binding {d : Declaration} {s : Signature}
    (h : d.binding.2 = .subroutine s) : s.name = d.binding.1 := by
  cases d <;> cases h
  rfl

/-- A table that was built from declarations has each subroutine under its own name. -/
theorem SymbolTable.wellNamed_ofDeclarations (ds : List Declaration) :
    (ofDeclarations ds).WellNamed := by
  intro name s h
  obtain ⟨d, -, hd⟩ := exists_of_find? h
  rw [Declaration.name_of_binding (congrArg Prod.snd hd), hd]

variable {symbols : SymbolTable}

/-! ## Actions -/

/-- The calls inside are what the stack needs them to be. -/
def Action.WellCalled (symbols : SymbolTable) : Action → Prop
  | assign p value => p.read.WellCalled symbols ∧ value.WellCalled symbols
  | step p _ => p.read.WellCalled symbols
  | call target args => (∀ a ∈ args, a.WellCalled symbols) ∧ symbols.Fits target
  | evaluate e | give e _ => e.WellCalled symbols

/-- What an action leaves on the stack. -/
def Action.gives (symbols : SymbolTable) : Action → List Slot
  | evaluate e => ((e.type? symbols).map (·.slot)).toList
  | give _ t => [t.slot]
  | assign .. | step .. | call .. => []

theorem Place.ofExpr?_read (p : Place) : Place.ofExpr? p.read = some p := by cases p <;> rfl

theorem Place.inner_runs {p : Place} (hn : symbols.WellNamed) (hw : p.read.WellCalled symbols) :
    p.InnerRuns symbols (p.inner symbols) :=
  (Expr.operand_sound hn p.read hw).inner (by rw [Expr.expr_operand, ofExpr?_read])

theorem assignCode_runs {p : Place} {value : Expr} {code : Code} (hn : symbols.WellNamed)
    (hp : p.read.WellCalled symbols) (hv : value.WellCalled symbols)
    (h : assignCode symbols p value = .ok code) : Runs symbols code [] [] :=
  (Expr.operand_sound hn value hv).assign (Place.inner_runs hn hp) h

/-- A struct literal is stored member by member. -/
theorem structAssignCode_runs {p : Place} {values : List Expr} {code : Code}
    (hn : symbols.WellNamed) (hv : ∀ v ∈ values, v.WellCalled symbols)
    (h : structAssignCode symbols p values = .ok code) : Runs symbols code [] [] := by
  unfold structAssignCode at h
  split at h
  next name =>
    split at h
    next =>
      simp only [Lowered.check_ok_iff, Lowered.bind_ok_iff, Lowered.pure_ok_iff] at h
      obtain ⟨-, codes, hcodes, rfl⟩ := h
      refine .flatten fun c hc => ?_
      obtain ⟨⟨member, value⟩, hmem, hx⟩ := Lowered.exists_of_mem_mapM hcodes hc
      exact assignCode_runs hn (by simp [Place.read, Expr.WellCalled, Expr.withInner])
        (hv value (List.of_mem_zip hmem).2) hx
    next => simp only [Lowered.throw_ok_iff] at h
  next => simp only [Lowered.throw_ok_iff] at h

/-- Results that nobody uses are dropped, the first one first. -/
theorem discards_runs {types : List DataType} {ops : List Opcode}
    (h : types.mapM Opcode.discardFor = .ok ops) :
    Runs symbols (ops.map Opcode.plain) (types.map (·.slot)) [] := by
  rw [Lowered.mapM_ok_iff] at h
  induction h with
  | nil => exact .nil
  | cons ht _ ih =>
    rw [Opcode.discardFor, orInvalid_ok_iff] at ht
    obtain ⟨s, hs, heff⟩ := Opcode.stackSize?_map (fun _ => rfl) ht
    rw [List.map_cons, List.map_cons, hs]
    exact ((Runs.of_pop heff).frame _).append ih

theorem callStatementCode_runs {target : String} {args : List Expr} {code : Code}
    (hn : symbols.WellNamed) (ha : ∀ a ∈ args, a.WellCalled symbols) (hfits : symbols.Fits target)
    (h : callStatementCode symbols target args = .ok code) : Runs symbols code [] [] := by
  have hsound := Expr.operands_sound hn args ha
  unfold callStatementCode at h
  split at h
  next s hs =>
    simp only [Lowered.bind_ok_iff, Lowered.pure_ok_iff] at h
    obtain ⟨c, hc, ops, hops, rfl⟩ := h
    have hcall := subroutineCall_runs ((hn target s hs).symm ▸ hs) (hfits s hs) hsound hc
    exact hcall.append (discards_runs hops)
  next hs =>
    cases h
    refine .of_gives ?_
    simp [Instruction.effect?, Opcode.named, SymbolTable.callEffect?, hs]
  next => simp only [Lowered.throw_ok_iff] at h
  next =>
    split at h
    next => simp only [Lowered.throw_ok_iff] at h
    next b hb =>
      simp only [Lowered.bind_ok_iff, Lowered.pure_ok_iff] at h
      obtain ⟨first, hfirst, c, hc, discards, hd, rfl⟩ := h
      have hcall := builtinCall_runs (List.mem_of_find?_eq_some hb) hsound hc
      have hres : args.head?.bind (·.type? symbols) = first := by
        rw [Lowered.option_mapM_ok_iff] at hfirst
        rcases hfirst with ⟨hnone, rfl⟩ | ⟨e, t, hsome, rfl, ht⟩
        · simp [hnone]
        · simp [hsome, Expr.needType_ok_iff.1 ht]
      rw [Expr.head?_operands, hres] at hcall
      refine hcall.append ?_
      unfold BuiltinResult.slots
      rw [Lowered.option_mapM_ok_iff] at hd
      rcases hd with ⟨hnone, rfl⟩ | ⟨t, op, hsome, rfl, ht⟩
      · rw [hnone]
        exact .nil
      · rw [Opcode.discardFor, orInvalid_ok_iff] at ht
        obtain ⟨s, hs, heff⟩ := Opcode.stackSize?_map (fun _ => rfl) ht
        simp only [hsome, Option.map_some, Option.toList_some, hs]
        exact .of_pop heff

theorem Expr.WellCalled.of_structLiteral {values : List Expr}
    (h : (Expr.structLiteral values).WellCalled symbols) : ∀ v ∈ values, v.WellCalled symbols :=
  fun v hv => h.of_subset fun _ hx => List.mem_cons_of_mem _ (Expr.mem_allOf.2 ⟨v, hv, hx⟩)

/-- **An action leaves what it gives on a stack that it does not touch.** -/
theorem Action.code_runs {a : Action} {code : Code} (hn : symbols.WellNamed)
    (hw : a.WellCalled symbols) (h : a.code symbols = .ok code) :
    Runs symbols code [] (a.gives symbols) := by
  cases a with
  | assign p value =>
    cases value with
    | structLiteral values => exact structAssignCode_runs hn hw.2.of_structLiteral h
    | _ => exact assignCode_runs hn hw.1 hw.2 h
  | step p op => exact Place.step_runs (Place.inner_runs hn hw) h
  | call target args => exact callStatementCode_runs hn hw.1 hw.2 h
  | evaluate e =>
    obtain ⟨t, ht⟩ := Expr.type?_of_code hw h
    have hruns := (Expr.operand_sound hn e hw).push (by rwa [Expr.expr_operand]) h
    rwa [gives, ht]
  | give e t => exact (Expr.operand_sound hn e hw).pushAs h

/-! ## Returns -/

/-- Values that are given one after the other. -/
theorem gives_runs {values : List (Expr × DataType)} {ps : List Piece} {n n' : Nat}
    (hn : symbols.WellNamed) (hw : ∀ v ∈ values, v.1.WellCalled symbols)
    (h : Part.gives symbols values n ps n') :
    ∃ code, entriesOf ps = code.map .instruction ∧ Straight code ∧
      Runs symbols code [] (values.map (·.2.slot)).reverse := by
  induction values generalizing ps with
  | nil =>
    obtain ⟨rfl, -⟩ := h
    exact ⟨[], rfl, .nil, .nil⟩
  | cons value values ih =>
    obtain ⟨ps₁, m, ps₂, ⟨c, hc, rfl, rfl⟩, hrest, rfl⟩ := h
    obtain ⟨code, hcode, hstraight, hruns⟩ := ih (fun v hv => hw v (List.mem_cons_of_mem _ hv)) hrest
    have hfirst := Action.code_runs hn (a := .give value.1 value.2) (hw value List.mem_cons_self) hc
    refine ⟨c ++ code, by rw [entriesOf_append, entriesOf_code, hcode, List.map_append],
      (Action.code_straight _ c hc).append hstraight, ?_⟩
    rw [List.map_cons, List.reverse_cons]
    exact hfirst.append (hruns.onto _)

theorem Part.ret_runs {env : Environment} {ctx : Context} {values : List Expr} {ps : List Piece}
    {n n' : Nat} (hn : env.symbols.WellNamed) (hw : ∀ v ∈ values, v.WellCalled env.symbols)
    (h : Part.ret env ctx values n ps n') :
    ∃ code : Code, entriesOf ps = code.map .instruction ++ [.instruction Opcode.ret.plain] ∧
      Straight code ∧ Runs env.symbols code [] (ctx.returnTypes.map (·.slot)) := by
  obtain ⟨hlen, ps₁, m, ps₂, hg, ⟨rfl, -⟩, rfl⟩ := h
  obtain ⟨code, hcode, hstraight, hruns⟩ := gives_runs hn
    (fun v hv => hw v.1 (List.of_mem_zip (List.mem_reverse.1 hv)).1) hg
  refine ⟨code, by rw [entriesOf_append, hcode, entriesOf_ops]; rfl, hstraight, ?_⟩
  have htypes := calc (values.zip ctx.returnTypes).map (·.2.slot)
    _ = ((values.zip ctx.returnTypes).map (·.2)).map (·.slot) := by
      rw [List.map_map]
      rfl
    _ = ctx.returnTypes.map (·.slot) := by rw [List.map_snd_zip (Nat.le_of_eq hlen.symm)]
  rwa [List.map_reverse, List.reverse_reverse, htypes] at hruns

theorem ret_runs {env : Environment} {ctx : Context} {values : List Expr} {position : Position}
    {out out' : Output} {u : Unit} (hn : env.symbols.WellNamed)
    (hw : ∀ v ∈ values, v.WellCalled env.symbols) (h : env.ret ctx values position out = .ok (u, out')) :
    ∃ code : Code, out'.sink.code =
        out.sink.code ++ code.map .instruction ++ [.instruction Opcode.ret.plain] ∧
      Runs env.symbols code [] (ctx.returnTypes.map (·.slot)) := by
  obtain ⟨ps, hps, hwrites⟩ := ret_adds.writes h
  obtain ⟨code, hcode, -, hruns⟩ := Part.ret_runs hn hw hps
  exact ⟨code, by rw [hwrites.code, hcode, List.append_assoc], hruns⟩

/-! ## The contract -/

/-- What lowering promises about the operand stack, under the declarations of a program. The calls in an
expression have types, and machine subroutines return what they declare. -/
structure StackContract (symbols : SymbolTable) : Prop where
  /-- An expression leaves one value of its type. -/
  expression : ∀ {e : Expr} {t : DataType} {code : Code}, e.WellCalled symbols →
    e.type? symbols = some t → e.code symbols = .ok code → Runs symbols code [] [t.slot]
  /-- A place takes one value of its type, also where an index or an address is computed first. -/
  place : ∀ {p : Place} {t : DataType} {code : Code}, p.read.WellCalled symbols →
    p.type? symbols = some t → p.write symbols (p.inner symbols) = .ok code →
    Runs symbols code [t.slot] []
  assign : ∀ {p : Place} {value : Expr} {code : Code}, p.read.WellCalled symbols →
    value.WellCalled symbols → assignCode symbols p value = .ok code → Runs symbols code [] []
  assignMembers : ∀ {p : Place} {values : List Expr} {code : Code},
    (∀ v ∈ values, v.WellCalled symbols) → structAssignCode symbols p values = .ok code →
    Runs symbols code [] []
  step : ∀ {p : Place} {op : Increment} {code : Code}, p.read.WellCalled symbols →
    p.step symbols op (p.inner symbols) = .ok code → Runs symbols code [] []
  /-- A subroutine leaves its results, the first one on top. -/
  subroutine : ∀ {name : String} {s : Signature} {args : List Expr} {code : Code},
    symbols.find? name = some (.subroutine s) → s.Fits → (∀ a ∈ args, a.WellCalled symbols) →
    subroutineCall symbols s (Expr.operands symbols args) = .ok code →
    Runs symbols code [] (s.returnTypes.map (·.slot))
  /-- A builtin leaves the result that its first argument asks for. -/
  builtin : ∀ {b : Builtin} {args : List Expr} {code : Code}, b ∈ Builtin.all →
    (∀ a ∈ args, a.WellCalled symbols) →
    builtinCall symbols b (Expr.operands symbols args) = .ok code →
    Runs symbols code [] (b.result.slots (args.head?.bind (·.type? symbols)))
  /-- A call whose results nobody uses leaves none of them. -/
  call : ∀ {target : String} {args : List Expr} {code : Code}, (∀ a ∈ args, a.WellCalled symbols) →
    symbols.Fits target → callStatementCode symbols target args = .ok code → Runs symbols code [] []
  /-- A return comes with what the subroutine declares, the first value on top. -/
  ret : ∀ {env : Environment} {ctx : Context} {values : List Expr} {position : Position}
    {out out' : Output} {u : Unit}, env.symbols = symbols → (∀ v ∈ values, v.WellCalled symbols) →
    env.ret ctx values position out = .ok (u, out') →
    ∃ code : Code, out'.sink.code =
        out.sink.code ++ code.map .instruction ++ [.instruction Opcode.ret.plain] ∧
      Runs symbols code [] (ctx.returnTypes.map (·.slot))

/-- **Lowered code keeps the contract of the operand stack**, under a table that has each subroutine
under its own name. -/
theorem lowering_keeps_stackContract (hn : symbols.WellNamed) : StackContract symbols where
  expression hw ht h := (Expr.operand_sound hn _ hw).push (by rwa [Expr.expr_operand]) h
  place hw ht h := Place.write_runs ht (Place.inner_runs hn hw) h
  assign hp hv h := assignCode_runs hn hp hv h
  assignMembers hv h := structAssignCode_runs hn hv h
  step hw h := Place.step_runs (Place.inner_runs hn hw) h
  subroutine hs hfits ha h :=
    subroutineCall_runs ((hn _ _ hs).symm ▸ hs) hfits (Expr.operands_sound hn _ ha) h
  builtin hb ha h := by
    rw [← Expr.head?_operands]
    exact builtinCall_runs hb (Expr.operands_sound hn _ ha) h
  call ha hfits h := callStatementCode_runs hn ha hfits h
  ret hsym hw h := by
    subst hsym
    exact ret_runs hn hw h

/-- A word variable, and a machine subroutine that takes a byte and returns a word. -/
def sampleTable : SymbolTable :=
  .ofDeclarations
    [.var ⟨"main.w", .uword, .plain, none, [], {}⟩,
      .subroutine
        { name := "main.f", parameters := [⟨"a", .ubyte⟩], returnTypes := [.uword],
          machine := some
            { address := none, parameters := [.register .a], returns := [.pair .ax],
              clobbers := [.x] } } true]

/-- The sum of the variable and of a call. -/
def sampleSum : Expr :=
  .binary (.var "main.w") (.arithmetic .add) (.call "main.f" [.number (.wrapped .ubyte 3)])

theorem sampleSum_leaves_word : sampleTable.WellNamed ∧ sampleSum.WellCalled sampleTable ∧
    sampleSum.type? sampleTable = some .uword ∧
    ∃ code, sampleSum.code sampleTable = .ok code ∧ Runs sampleTable code [] [.sized .word] := by
  have hn : sampleTable.WellNamed := SymbolTable.wellNamed_ofDeclarations _
  have hw : sampleSum.WellCalled sampleTable := by
    intro target args h
    simp only [sampleSum, Expr.withInner, Expr.allOf, List.mem_cons, List.mem_append,
      List.not_mem_nil, Expr.call.injEq, reduceCtorEq, or_false, false_or] at h
    obtain ⟨rfl, rfl⟩ := h
    refine ⟨rfl, fun s hs m hm => ?_⟩
    cases hs
    cases hm
    rfl
  exact ⟨hn, hw, rfl, _, rfl, (lowering_keeps_stackContract hn).expression hw rfl rfl⟩

/-- Two names for subroutines that are both called `main.g`, one with a byte and one with a word as its
result. -/
def crossedTable : SymbolTable :=
  (SymbolTable.insert {} "main.f" (.subroutine ⟨"main.g", [], [.ubyte], none⟩)).insert "main.g"
    (.subroutine ⟨"main.g", [], [.uword], none⟩)

/-- A call of `main.f` has the type of a byte, but goes to `main.g` and leaves a word. -/
theorem crossedTable_leaves_word : (Expr.call "main.f" []).WellCalled crossedTable ∧
    (Expr.call "main.f" []).type? crossedTable = some .ubyte ∧
    (∃ code, (Expr.call "main.f" []).code crossedTable = .ok code ∧
      Runs crossedTable code [] [.sized .word] ∧ ¬ Runs crossedTable code [] [.sized .byte]) ∧
    ¬ StackContract crossedTable := by
  have hw : (Expr.call "main.f" []).WellCalled crossedTable := by
    intro target args h
    simp only [Expr.withInner, Expr.allOf, List.mem_singleton, Expr.call.injEq] at h
    obtain ⟨rfl, rfl⟩ := h
    refine ⟨rfl, fun s hs m hm => ?_⟩
    cases hs
    cases hm
  have hword : Runs crossedTable [Opcode.call.named "main.g"] [] [.sized .word] :=
    call_runs (s := ⟨"main.g", [], [.uword], none⟩) rfl
  have hbyte : ¬ Runs crossedTable [Opcode.call.named "main.g"] [] [.sized .byte] := fun h => by
    cases (hword []).symm.trans (h [])
  exact ⟨hw, rfl, ⟨_, rfl, hword, hbyte⟩, fun h => hbyte (h.expression hw rfl rfl)⟩

end StackCode
