/-
Where statements may go elsewhere. A choice among many keeps its value on the stack
until its end, so a `break`, a `continue` or a `return` in one of its parts goes away
with a value too many. Everything else goes where the stack is as it was.

The result is that the code of a statement is level just if no statement inside leaves
a choice in this way.
-/
import StackCode.Proofs.Lowering.Program
import StackCode.Proofs.Stack.Loops
import StackCode.Tree.Traversal

namespace StackCode

/-! ## Leaving a choice -/

mutual

/-- No `break`, `continue` or `return` leaves a choice that it stands in. The flags say whether the
loop and the subroutine around the statement may be left from where it stands. -/
def Statement.isContained (exits returns : Bool) : Statement → Bool
  | .exit _ _ => exits
  | .ret _ _ => returns
  | .cond _ thenPart elsePart _ =>
    thenPart.isContained exits returns && elsePart.isContained exits returns
  | .branch _ thenPart elsePart _ =>
    (branchJumps? thenPart elsePart).isSome ||
      thenPart.isContained exits returns && elsePart.isContained exits returns
  | .forEach _ _ _ body _ | .whileLoop _ body _ | .repeatLoop body _ _ => body.isContained true returns
  | .scope s => s.isContained exits returns
  | .subroutine _ body _ => Statement.areContained true true body
  | .choose _ choices _ => Choice.areContained choices
  | _ => true

def Scope.isContained (exits returns : Bool) : Scope → Bool
  | ⟨_, statements, _⟩ => Statement.areContained exits returns statements

/-- In a choice neither may be left. -/
def Choice.areContained : List Choice → Bool
  | [] => true
  | ⟨_, body⟩ :: rest => body.isContained false false && Choice.areContained rest

def Statement.areContained (exits returns : Bool) : List Statement → Bool
  | [] => true
  | s :: rest => s.isContained exits returns && Statement.areContained exits returns rest

end

/-- No statement of the program leaves a choice by `break`, `continue` or `return`. -/
def Tree.isContained (t : Tree) : Bool :=
  t.blocks.all fun b => Statement.areContained true true b.statements

variable {env : Environment} {ctx : Context} {symbols : SymbolTable} {results : List Slot}
  {known : LabelStacks} {stack : List Slot} {exits returns : Bool}

theorem Statement.areContained_iff {ss : List Statement} :
    areContained exits returns ss ↔ ∀ s ∈ ss, s.isContained exits returns := by
  induction ss with
  | nil => simp [areContained]
  | cons s ss ih => simp [areContained, ih]

theorem Statement.areContained_of_nops {ss : List Statement} (h : ss.all (·.isNop)) :
    areContained exits returns ss :=
  areContained_iff.2 fun _ hs => by rw [eq_nop_of_all h hs]; rfl

theorem Scope.isContained_of_isIdle {s : Scope} (h : s.isIdle) : s.isContained exits returns := by
  obtain ⟨name, statements, position⟩ := s
  exact Statement.areContained_of_nops h

theorem Scope.isContained_of_onlyJump? {s : Scope} {target : JumpTarget} {position : Position}
    (h : s.onlyJump? = some (target, position)) : s.isContained exits returns := by
  have hs := onlyJump?_ok h
  obtain ⟨name, statements, p⟩ := s
  cases hs
  rfl

/-- The body of a subroutine that is a single assembly text. -/
theorem Statement.areContained_of_soleAssembly? {body : List Statement} {sole : String × Position}
    (h : soleAssembly? body = some sole) : areContained exits returns body := by
  refine areContained_iff.2 fun s hs => ?_
  obtain ⟨d, rfl⟩ | rfl | ⟨text, position, rfl⟩ := soleAssembly?_ok h hs <;> rfl

/-! ## Sound programs -/

/-- The statement itself, apart from those inside, is as the program around it needs it: its calls
fit the declarations, its jumps go to labels of the program, and a subroutine is known by its name. -/
def Statement.Sound (symbols : SymbolTable) : Statement → Prop
  | .assign p value _ => (Action.assign p value).WellCalled symbols
  | .step p op _ => (Action.step p op).WellCalled symbols
  | .call target args _ => (Action.call target args).WellCalled symbols
  | .cond e _ _ _ | .whileLoop e _ _ | .repeatLoop _ e _ | .choose e _ _ | .forEach _ _ e _ _ =>
    e.WellCalled symbols
  | .ret values _ => ∀ v ∈ values, v.WellCalled symbols
  | .jump target _ => target.IsOwn
  | .subroutine s _ _ => symbols.find? s.name = some (.subroutine s)
  | _ => True

/-- A jump of the program at the start of a scope. -/
theorem Scope.isOwn_of_jump {s : Scope} {target : JumpTarget} {position : Position}
    (hs : ∀ x ∈ s.inner, x.Sound symbols) (h : ∃ rest, s.statements = .jump target position :: rest) :
    target.IsOwn := by
  obtain ⟨rest, h⟩ := h
  exact hs (.jump target position) (mem_inner_of_cons h)

/-! ## Leaves of the tree -/

theorem exit_levels {kind : LoopExit} {base : List Slot}
    (hloop : ∀ labels, ctx.loop = some labels → labels.StandAt known base) :
    (Part.exit ctx kind).Levels symbols results known [] stack stack (stack = base) where
  walks h := by
    obtain ⟨labels, hlabels, rfl, -⟩ := h
    obtain ⟨hmem, hgen⟩ := hloop labels hlabels kind
    exact ⟨_, Opcode.Jumps.jump _ rfl, .exit hmem hgen, by simp⟩

/-- A return comes with its results on the stack, and with nothing else just if there was nothing. -/
theorem ret_levels {values : List Expr} (hn : env.symbols.WellNamed)
    (hw : ∀ v ∈ values, v.WellCalled env.symbols) :
    (Part.ret env ctx values).Levels env.symbols (ctx.returnTypes.map (·.slot)) known [] stack stack
      (stack = []) where
  walks h := by
    obtain ⟨code, hcode, hstraight, hruns⟩ := Part.ret_runs hn hw h
    exact ⟨_, hcode ▸ (Walks.runs hstraight hruns stack).append .ret,
      Accounts.returns.congr (by simp), by simp⟩

theorem verbatim_levels : Part.verbatim.Levels symbols results known [] stack stack True where
  walks h := by
    obtain ⟨code, hcode, rfl, -⟩ := h
    have heff : ∀ i ∈ code, i.opcode.effect? = some {} := fun i hi => by
      rcases hcode i hi with h | h | h <;> rw [h] <;> rfl
    exact ⟨[], entriesOf_ops code ▸ .runs (fun i hi => .inl (by simp [heff i hi]))
      (.of_stills heff) stack, .nil, by simp⟩

theorem subroutineBody_levels {body : List Statement} {part : Part} {c : Prop}
    (hp : part.Levels symbols results known [] [] [] c)
    (hsole : ∀ sole, soleAssembly? body = some sole → c) :
    (Part.subroutineBody body part).Levels symbols results known [] [] [] c := by
  unfold Part.subroutineBody
  split
  next sole hbody => exact verbatim_levels.congr (by simp [hsole sole hbody])
  next => exact hp

theorem subroutine_levels {s : Signature} {body : List Statement} {part : Part} {c : Prop}
    (hs : symbols.find? s.name = some (.subroutine s))
    (hp : part.Levels symbols (s.returnTypes.map (·.slot)) known [] [] [] c)
    (hidle : body.all (·.isNop) → c) (hsole : ∀ sole, soleAssembly? body = some sole → c) :
    (Part.subroutine s body part).Levels symbols results known [] stack stack c := by
  unfold Part.subroutine
  split
  next =>
    refine ⟨fun h => ?_⟩
    obtain ⟨hbody, hnil⟩ := h
    exact (Part.Levels.just_nil.congr (by simp [hidle hbody])).walks hnil
  next =>
    have hslots : symbols.resultSlots s.name = s.returnTypes.map (·.slot) := by
      rw [SymbolTable.resultSlots, hs]
    rw [← hslots] at hp
    refine ⟨fun h => ?_⟩
    obtain ⟨_, _, _, ⟨rfl, rfl⟩, ⟨_, _, _, ⟨rfl, rfl⟩, ⟨ps, _, _, hps, ⟨rfl, -⟩, rfl⟩, rfl⟩, rfl⟩ := h
    obtain ⟨sites, hw, ha, -⟩ := (subroutineBody_levels hp hsole).walks hps
    simp only [entriesOf_append]
    exact ⟨sites, hw.subroutine, ha, by simp⟩

/-! ## Statements -/

/-- Wherever the part stands, it is level just if what it holds is contained. The stack there may have
more on it than the stack around the innermost loop: a choice stands between the two. -/
structure LevelAnywhere (env : Environment) (emits : Context → Part)
    (contained : Bool → Bool → Bool) : Prop where
  levels : ∀ {ctx : Context} {known : LabelStacks} {stack base : List Slot}, base <:+ stack →
    (∀ labels, ctx.loop = some labels → labels.StandAt known base) →
    (emits ctx).Levels env.symbols (ctx.returnTypes.map (·.slot)) known [] stack stack
      (contained (stack = base) (stack = []))

namespace LevelAnywhere

variable {emits : Context → Part} {contained : Bool → Bool → Bool} {base : List Slot}

/-- In a loop the stack is what it is around the loop. -/
theorem body (h : LevelAnywhere env emits contained) :
    BodyLevels env.symbols (ctx.returnTypes.map (·.slot)) stack (fun labels => emits (ctx.inLoop labels))
      (contained true (stack = [])) := fun known labels hstand => by
  have hloop : ∀ labels', (ctx.inLoop labels).loop = some labels' → labels'.StandAt known stack :=
    fun labels' hl => Option.some.inj hl ▸ hstand
  have hlevels : (emits (ctx.inLoop labels)).Levels env.symbols (ctx.returnTypes.map (·.slot)) known []
      stack stack (contained (stack = stack) (stack = [])) :=
    h.levels (List.suffix_refl stack) hloop
  simpa only [decide_true] using hlevels

/-- A subroutine has a stack and a context of its own. -/
theorem fresh (h : LevelAnywhere env emits contained) (scope : String) (returnTypes : List DataType) :
    (emits { scope, returnTypes }).Levels env.symbols (returnTypes.map (·.slot)) known [] [] []
      (contained true true) := by
  have hloop : ∀ labels, ({ scope, returnTypes } : Context).loop = some labels →
      labels.StandAt known [] := fun labels hl => by cases hl
  have hlevels : (emits { scope, returnTypes }).Levels env.symbols (returnTypes.map (·.slot)) known []
      [] [] (contained (([] : List Slot) = []) (([] : List Slot) = [])) :=
    h.levels (List.suffix_refl []) hloop
  simpa only [decide_true] using hlevels

/-- In a choice there is one value more. -/
theorem choice (h : LevelAnywhere env emits contained) {slot : Slot} (hb : base <:+ stack)
    (hl : ∀ labels, ctx.loop = some labels → labels.StandAt known base) :
    (emits ctx).Levels env.symbols (ctx.returnTypes.map (·.slot)) known [] (slot :: stack)
      (slot :: stack) (contained false false) := by
  have hlevels := h.levels (hb.trans (List.suffix_cons slot stack)) hl
  have hne : slot :: stack ≠ base := fun heq => by
    have hlen := hb.length_le
    rw [← heq, List.length_cons] at hlen
    omega
  simpa [hne] using hlevels

theorem of_true {p : Part} (h : ∀ {results : List Slot} {known : LabelStacks} {stack : List Slot},
    p.Levels env.symbols results known [] stack stack True) :
    LevelAnywhere env (fun _ => p) fun _ _ => true :=
  ⟨fun _ _ => h.congr (by simp)⟩

end LevelAnywhere

mutual

/-- **The code of a statement is level just if nothing in it leaves a choice.** -/
theorem Statement.levelAnywhere (hn : env.symbols.WellNamed) : ∀ s : Statement,
    (∀ x ∈ s.withInner, x.Sound env.symbols) →
    LevelAnywhere env (fun ctx => s.emits env ctx) fun exits returns => s.isContained exits returns
  | .varDecl _, _ | .nop, _ => .of_true .just_nil
  | .label _ _, _ => .of_true (Part.Levels.place.close [] (by simp))
  | .assign p value _, hs =>
    .of_true (.act_still hn (a := .assign p value) (hs _ List.mem_cons_self) rfl)
  | .step p op _, hs => .of_true (.act_still hn (a := .step p op) (hs _ List.mem_cons_self) rfl)
  | .jump _ _, hs => .of_true (jump_levels_own .jump (hs _ List.mem_cons_self))
  | .call target args _, hs =>
    .of_true (.act_still hn (a := .call target args) (hs _ List.mem_cons_self) rfl)
  | .cond _ thenPart elsePart _, hs => ⟨fun hb hl => by
    have hthen := fun x hx => hs x (List.mem_cons_of_mem _ (List.mem_append_left _ hx))
    have helse := fun x hx => hs x (List.mem_cons_of_mem _ (List.mem_append_right _ hx))
    simp only [Statement.isContained, Bool.and_eq_true]
    exact conditional_levels hn (hs _ List.mem_cons_self)
      ((thenPart.levelAnywhere hn hthen).levels hb hl) ((elsePart.levelAnywhere hn helse).levels hb hl)
      (fun _ _ h => ⟨Scope.isOwn_of_jump hthen ⟨[], Scope.onlyJump?_ok h⟩,
        Scope.isContained_of_onlyJump? h⟩)
      Scope.isContained_of_isIdle⟩
  | .branch _ thenPart elsePart _, hs => ⟨fun hb hl => by
    have hthen := fun x hx => hs x (List.mem_cons_of_mem _ (List.mem_append_left _ hx))
    have helse := fun x hx => hs x (List.mem_cons_of_mem _ (List.mem_append_right _ hx))
    simp only [Statement.isContained, Bool.or_eq_true, Bool.and_eq_true]
    exact flagBranch_levels ((thenPart.levelAnywhere hn hthen).levels hb hl)
      ((elsePart.levelAnywhere hn helse).levels hb hl)
      (fun _ _ h => Scope.isOwn_of_jump hthen (Scope.leadingJump?_ok h))
      (fun _ _ h => Scope.isOwn_of_jump helse (Scope.leadingJump?_ok h)) Scope.isContained_of_isIdle
      Scope.isContained_of_isIdle⟩
  | .exit _ _, _ => ⟨fun _ hl => (exit_levels hl).congr (by simp [Statement.isContained])⟩
  | .forEach _ _ _ body _, hs => ⟨fun _ _ => by
    have hbody := body.levelAnywhere hn fun x hx => hs x (List.mem_cons_of_mem _ hx)
    simp only [Statement.emits, Statement.isContained]
    split
    next h => exact Part.Levels.just_nil.congr (by simp [Scope.isContained_of_isIdle h])
    next => exact forLoop_levels hn (hs _ List.mem_cons_self) hbody.body⟩
  | .whileLoop _ body _, hs => ⟨fun _ _ => by
    have hbody := body.levelAnywhere hn fun x hx => hs x (List.mem_cons_of_mem _ hx)
    simp only [Statement.emits, Statement.isContained]
    exact whileLoop_levels hn (hs _ List.mem_cons_self) hbody.body⟩
  | .repeatLoop body _ _, hs => ⟨fun _ _ => by
    have hbody := body.levelAnywhere hn fun x hx => hs x (List.mem_cons_of_mem _ hx)
    simp only [Statement.emits, Statement.isContained]
    exact repeatLoop_levels hn (hs _ List.mem_cons_self) hbody.body⟩
  | .scope s, hs => s.levelAnywhere hn fun x hx => hs x (List.mem_cons_of_mem _ hx)
  | .ret _ _, hs => ⟨fun _ _ =>
    (ret_levels hn (hs _ List.mem_cons_self)).congr (by simp [Statement.isContained])⟩
  | .returnFromIrq _, _ => .of_true (.of_walks (fun _ _ => by simp [Reading.read?]; rfl) .nil)
  | .directive _ _ _, _ | .assembly _ _, _ => .of_true verbatim_levels
  | .subroutine s body _, hs => ⟨fun _ _ => by
    have hbody := Statement.levelsAnywhere hn body fun x hx => hs x (List.mem_cons_of_mem _ hx)
    exact subroutine_levels (hs _ List.mem_cons_self) (hbody.fresh _ _) Statement.areContained_of_nops
      fun _ => Statement.areContained_of_soleAssembly?⟩
  | .choose _ choices _, hs => ⟨fun hb hl => by
    have hinner := fun x hx => hs x (List.mem_cons_of_mem _ hx)
    exact choose_levels hn (hs _ List.mem_cons_self) fun hsub =>
      Choice.levelAnywhere hn choices hinner hb fun labels h => (hl labels h).mono hsub⟩

theorem Scope.levelAnywhere (hn : env.symbols.WellNamed) : ∀ s : Scope,
    (∀ x ∈ s.inner, x.Sound env.symbols) →
    LevelAnywhere env (fun ctx => s.emits env ctx) fun exits returns => s.isContained exits returns
  | ⟨name, statements, position⟩, hs => ⟨fun {ctx} _ _ _ hb hl => by
    have hinside : ∀ labels, (ctx.inside ⟨name, statements, position⟩).loop = some labels → _ := hl
    exact (Statement.levelsAnywhere hn statements hs).levels hb hinside⟩

theorem Choice.levelAnywhere (hn : env.symbols.WellNamed) : ∀ choices : List Choice,
    (∀ x ∈ Choice.innerOf choices, x.Sound env.symbols) →
    ∀ {ctx : Context} {known : LabelStacks} {stack base : List Slot} {slot : Slot}, base <:+ stack →
    (∀ labels, ctx.loop = some labels → labels.StandAt known base) →
    ChoicesLevel env.symbols (ctx.returnTypes.map (·.slot)) known (slot :: stack)
      (Choice.emits env ctx choices) (Choice.areContained choices)
  | [], _ => fun _ _ => by simpa [Choice.areContained] using .nil
  | ⟨_, body⟩ :: rest, hs => fun hb hl => by
    have hbody := body.levelAnywhere hn fun x hx => hs x (List.mem_append_left _ hx)
    have hinner := fun x hx => hs x (List.mem_append_right _ hx)
    simp only [Choice.areContained, Bool.and_eq_true]
    exact .cons (hbody.choice hb hl) (Choice.levelAnywhere hn rest hinner hb hl)

theorem Statement.levelsAnywhere (hn : env.symbols.WellNamed) : ∀ ss : List Statement,
    (∀ x ∈ Statement.allOf ss, x.Sound env.symbols) →
    LevelAnywhere env (fun ctx => Statement.emitsAll env ctx ss) fun exits returns =>
      Statement.areContained exits returns ss
  | [], _ => .of_true .just_nil
  | s :: rest, hs => ⟨fun hb hl => by
    have hfirst := s.levelAnywhere hn fun x hx => hs x (List.mem_append_left _ hx)
    have hrest := Statement.levelsAnywhere hn rest fun x hx => hs x (List.mem_append_right _ hx)
    simp only [Statement.areContained, Bool.and_eq_true]
    exact .append (hfirst.levels hb hl) (hrest.levels hb hl)⟩

end

/-! ## Programs -/

/-- Each statement of the program is as the others need it. -/
def Tree.Sound (t : Tree) : Prop :=
  ∀ b ∈ t.blocks, ∀ s ∈ Statement.allOf b.statements, s.Sound (.ofTree t)

/-- The stack in a block has one height at each place just if nothing in the block leaves a choice. -/
theorem Block.Holds.isLevel_iff {b : Tree.Block} {out : Block} (hn : env.symbols.WellNamed)
    (hs : ∀ x ∈ Statement.allOf b.statements, x.Sound env.symbols) (h : Block.Holds env b out) :
    out.IsLevel env.symbols ↔ Statement.areContained true true b.statements := by
  obtain ⟨source, n, ps, n', hp, hentries⟩ := h.entries
  have hsource : ({ env with source } : Environment).symbols.WellNamed := hn
  have hlevels : (Statement.emitsAll { env with source } { scope := b.name } b.statements).Levels
      env.symbols [] [] [] [] [] (Statement.areContained true true b.statements) :=
    (Statement.levelsAnywhere hsource b.statements hs).fresh b.name []
  obtain ⟨sites, hw, ha, -⟩ := hlevels.walks hp
  have hread : Reading.read? env.symbols {} out.entries = some ⟨⟨[], []⟩, [], sites⟩ := by
    rw [← Reading.read?_filter, hentries]
    exact hw [] []
  constructor
  · rintro ⟨r, hr, hlevel⟩
    rw [hread, Option.some.injEq] at hr
    subst hr
    exact ha.needed (List.Subset.refl sites) hlevel (by simp)
  · intro hc
    have hreached : ∀ {l stack}, .jump l stack ∈ sites → IsGenerated l → .label l stack ∈ sites :=
      fun hj hg => (ha.reached hc hj hg).resolve_right (by simp)
    refine ⟨_, hread, hreached, fun hj hg hl => ?_, ha.ret hc⟩
    have hfiltered := (Reading.read?_filter out.entries {}).trans hread
    exact Reading.stack_unique h.labels hfiltered hl (hreached hj hg)

/-- **The stack of a program has one height at each place just if no `break`, `continue` or `return`
leaves a choice among many.** -/
theorem Tree.isLevel_iff_isContained {t : Tree} {c : Configuration} {loader : IncludeLoader}
    {p : Program} (hs : t.Sound) (h : t.program c loader = .ok p) :
    (∀ b ∈ p.blocks, b.IsLevel (.ofTree t)) ↔ t.isContained := by
  have hn : (SymbolTable.ofTree t).WellNamed := SymbolTable.wellNamed_ofDeclarations _
  have hall := Tree.lower_blocks h
  rw [isContained, List.all_eq_true]
  unfold Sound at hs
  generalize t.blocks = bs, p.blocks = outs at hs hall ⊢
  induction hall with
  | nil => simp
  | cons hb _ ih =>
    have hrest := ih fun b hmem => hs b (List.mem_cons_of_mem _ hmem)
    rw [List.forall_mem_cons, List.forall_mem_cons]
    exact and_congr (hb.isLevel_iff hn (hs _ List.mem_cons_self)) hrest

/-- A loop with a choice among many in it, the only part of which leaves the loop. -/
def breakInChoice : Tree where
  name := "sample"
  loadAddress := none
  modules :=
    [{ name := "main"
       source := "main"
       blocks :=
        [{ name := "main"
           address := none
           options := []
           statements :=
            [.varDecl ⟨"main.b", .ubyte, .plain, none, [], {}⟩,
              .whileLoop (.var "main.b")
                ⟨"", [.choose (.var "main.b")
                  [⟨some [.number (.wrapped .ubyte 1)], ⟨"", [.exit .leave {}], {}⟩⟩] {}], {}⟩ {}]
           position := {} }] }]

theorem breakInChoice_uneven : breakInChoice.Sound ∧
    ∃ p, breakInChoice.program {} (.ofTexts []) = .ok p ∧
      ¬∀ b ∈ p.blocks, b.IsLevel (.ofTree breakInChoice) := by
  have hs : breakInChoice.Sound := by
    simp [Tree.Sound, Tree.blocks, breakInChoice, Statement.allOf, Statement.withInner, Scope.inner,
      Choice.innerOf, Statement.Sound, Expr.WellCalled, Expr.withInner]
  have hlowered : (breakInChoice.program {} (.ofTexts [])).toOption.isSome := by decide +kernel
  cases h : breakInChoice.program {} (.ofTexts []) with
  | error e => simp [h, Except.toOption] at hlowered
  | ok p =>
    refine ⟨hs, p, rfl, fun hlevel => ?_⟩
    exact absurd ((Tree.isLevel_iff_isContained hs h).1 hlevel) (by decide)

end StackCode
