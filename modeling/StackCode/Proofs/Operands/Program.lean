/-
The operands of a program. All that are asked for a type have one that will do. Indices and
addresses only have code: an access to an element or a byte of memory takes the code as it
is, whatever the type, and even from a call that leaves nothing.
-/
import StackCode.Proofs.Lowering.Actions
import StackCode.Proofs.Operands.Expr
import StackCode.Proofs.Stack.Contract

namespace StackCode

/-! ## Accesses -/

/-- What is done to an element or to a byte of memory. -/
inductive Access where
  | read
  | write
  | step (op : Increment)
deriving DecidableEq, Repr

namespace Access

def code (symbols : SymbolTable) (p : Place) : Access → Lowered Code
  | read => p.read.code symbols
  | write => p.write symbols (p.inner symbols)
  | step op => p.step symbols op (p.inner symbols)

/-- The opcode for an element of a variable of this type. -/
def opcodeFor : Access → DataType → Lowered Opcode
  | read, t => Opcode.readIndexedFor t
  | write, t => Opcode.writeIndexedFor t
  | step op, t => Opcode.stepIndexedFor op t

/-- The opcode for the byte at an address from the stack. -/
def memoryOpcode : Access → Opcode
  | read => .pushMemRead
  | write => .popMemWrite
  | step op => Opcode.popStepMemory op

variable {symbols : SymbolTable}

/-- An access to an element asks for the array and for the code of the index. -/
theorem code_element (a : Access) (array : String) (index : Expr) :
    a.code symbols (.element array index) = (do
      let op ← a.opcodeFor (← symbols.needVar array).type
      return (← index.code symbols) ++ [op.named array]) := by
  cases a <;> rfl

/-- An access to memory asks for the code of the address, if that is no constant. -/
theorem code_memory {address : Expr} (h : address.constant? symbols = none) (a : Access) :
    a.code symbols (.memory address) = (do
      return (← address.code symbols) ++ [a.memoryOpcode.plain]) := by
  have hfixed : address.fixedAddress? symbols = .ok none := by rw [Expr.fixedAddress?, h]
  cases a <;>
    simp only [code, Place.read, Expr.code, Expr.operand, readMemory, Place.write, Place.step,
      Place.inner, hfixed] <;> rfl

end Access

/-! ## The operands of actions -/

variable {symbols : SymbolTable}

/-- A value that is consumed, and the operands in it. -/
def Use.withInner (symbols : SymbolTable) (u : Use) : List Use := u :: u.expr.uses symbols

/-- The values that are stored in a place. Those of a struct literal go to the members of a struct, one after
the other. -/
def Place.stored (symbols : SymbolTable) : Place → Expr → List Use
  | .var name, .structLiteral values =>
    match symbols.var? name with
    | some info => (info.members.zip values).flatMap fun x =>
      Use.withInner symbols ⟨x.2, .typed ((Place.var (memberName name x.1)).type? symbols)⟩
    | none => []
  | p, value => Use.withInner symbols ⟨value, .typed (p.type? symbols)⟩

/-- The operands in the code of an action. A label takes no arguments. -/
def Action.uses (symbols : SymbolTable) : Action → List Use
  | assign p value => p.read.uses symbols ++ p.stored symbols value
  | step p _ => p.read.uses symbols
  | call target args =>
    match symbols.find? target with
    | some .label => []
    | _ => Expr.argumentUses symbols (symbols.consumers target args) args
  | evaluate e => Use.withInner symbols ⟨e, .test⟩
  | give e t => Use.withInner symbols ⟨e, .typed (some t)⟩

/-- The operands in the code of a program. -/
def Tree.uses (symbols : SymbolTable) (t : Tree) : List Use :=
  (t.actions symbols).flatMap (·.uses symbols)

theorem Use.withInner_closed (u : Use) : UsesClosed symbols (u.withInner symbols) :=
  .use u.expr.uses_closed

theorem Place.stored_closed (p : Place) (value : Expr) : UsesClosed symbols (p.stored symbols value) := by
  unfold stored
  split
  · split
    · exact .flatMap fun _ _ => Use.withInner_closed _
    · exact .nil
  · exact Use.withInner_closed _

theorem Action.uses_closed (a : Action) : UsesClosed symbols (a.uses symbols) := by
  cases a with
  | assign p value => exact .append p.read.uses_closed (p.stored_closed value)
  | step p op => exact p.read.uses_closed
  | call target args =>
    rw [uses]
    split
    · exact .nil
    · exact Expr.argumentUses_closed _ _
  | evaluate e | give e t => exact Use.withInner_closed _

/-! ## What actions accept -/

/-- The index or the address of a place that is accessed. -/
theorem Access.uses_accepted {a : Access} {p : Place} {code : Code} (h : a.code symbols p = .ok code) :
    ∀ u ∈ p.read.uses symbols, u.IsAccepted symbols := by
  cases p with
  | var | register => exact List.forall_mem_nil _
  | element array index =>
    rw [code_element] at h
    simp only [Lowered.bind_ok_iff] at h
    obtain ⟨_, -, _, -, c, hc, -⟩ := h
    exact List.forall_mem_cons.2 ⟨.unchecked rfl hc, Expr.uses_accepted hc⟩
  | memory address =>
    rw [Place.read, Expr.uses]
    split
    next => exact List.forall_mem_nil _
    next hconstant =>
      rw [code_memory (by simpa using hconstant)] at h
      obtain ⟨c, hc, -⟩ := Lowered.bind_ok_iff.1 h
      exact List.forall_mem_cons.2 ⟨.unchecked rfl hc, Expr.uses_accepted hc⟩

theorem Expr.pushAs_accepted {e : Expr} {t : DataType} {code : Code}
    (h : (e.operand symbols).pushAs symbols t = .ok code) :
    ∀ u ∈ Use.withInner symbols ⟨e, .typed (some t)⟩, u.IsAccepted symbols := by
  obtain ⟨⟨c, hc⟩, htaken⟩ := Operand.pushAs_taken h
  rw [expr_operand] at htaken
  exact List.forall_mem_cons.2 ⟨⟨fun _ => htaken, .inl ⟨c, hc⟩⟩, uses_accepted hc⟩

theorem assignCode_accepted {p : Place} {value : Expr} {code : Code}
    (h : assignCode symbols p value = .ok code) :
    (∀ u ∈ p.read.uses symbols, u.IsAccepted symbols) ∧
      ∀ u ∈ Use.withInner symbols ⟨value, .typed (p.type? symbols)⟩, u.IsAccepted symbols := by
  simp only [assignCode, Operand.assign, Lowered.bind_ok_iff, Place.needType_ok_iff] at h
  obtain ⟨t, ht, _, hpush, _, hwrite, -⟩ := h
  exact ⟨Access.uses_accepted (a := .write) hwrite, ht ▸ Expr.pushAs_accepted hpush⟩

/-- Each value of a struct literal has a member of its own. -/
theorem structAssignCode_accepted {p : Place} {values : List Expr} {code : Code}
    (h : structAssignCode symbols p values = .ok code) :
    ∀ u ∈ p.read.uses symbols ++ p.stored symbols (.structLiteral values), u.IsAccepted symbols := by
  unfold structAssignCode at h
  split at h
  next name =>
    split at h
    next members hvar =>
      simp only [Lowered.check_ok_iff, Lowered.bind_ok_iff] at h
      obtain ⟨-, codes, hcodes, -⟩ := h
      simp only [Place.stored, hvar]
      refine List.forall_mem_append.2 ⟨List.forall_mem_nil _, fun u hu => ?_⟩
      obtain ⟨x, hx, hu⟩ := List.mem_flatMap.1 hu
      obtain ⟨c, hc⟩ := Lowered.ok_of_mem_mapM hcodes hx
      exact (assignCode_accepted hc).2 u hu
    next => simp only [Lowered.throw_ok_iff] at h
  next => simp only [Lowered.throw_ok_iff] at h

theorem callStatementCode_accepted {target : String} {args : List Expr} {code : Code}
    (h : callStatementCode symbols target args = .ok code) :
    ∀ u ∈ (Action.call target args).uses symbols, u.IsAccepted symbols := by
  unfold callStatementCode at h
  unfold Action.uses SymbolTable.consumers
  split at h
  next s hs =>
    simp only [hs]
    obtain ⟨_, hcall, -⟩ := Lowered.bind_ok_iff.1 h
    exact Expr.argumentUses_accepted (subroutineCall_passed hcall)
  next hs =>
    simp only [hs]
    exact List.forall_mem_nil _
  next => simp only [Lowered.throw_ok_iff] at h
  next hn =>
    split at h
    next => simp only [Lowered.throw_ok_iff] at h
    next b hb =>
      simp only [Lowered.bind_ok_iff] at h
      obtain ⟨_, -, _, hcall, -⟩ := h
      simp only [hn, hb, Option.map_some, Option.getD_some]
      rw [← Expr.types_operands]
      exact Expr.argumentUses_accepted (builtinCall_passed hcall)

/-- **Every operand of an action that is done is accepted.** -/
theorem Action.uses_accepted {a : Action} (h : a.IsDone symbols) :
    ∀ u ∈ a.uses symbols, u.IsAccepted symbols := by
  obtain ⟨⟨code, hcode⟩, htested⟩ := h
  cases a with
  | assign p value =>
    cases value with
    | structLiteral values => exact structAssignCode_accepted hcode
    | _ =>
      obtain ⟨hplace, hvalue⟩ := assignCode_accepted hcode
      refine List.forall_mem_append.2 ⟨hplace, ?_⟩
      cases p <;> exact hvalue
  | step p op => exact Access.uses_accepted (a := .step op) hcode
  | call target args => exact callStatementCode_accepted hcode
  | evaluate e =>
    obtain ⟨t, ht⟩ := htested e rfl
    exact List.forall_mem_cons.2 ⟨.of_type? ht rfl hcode, Expr.uses_accepted hcode⟩
  | give e t => exact Expr.pushAs_accepted hcode

/-! ## Programs -/

/-- What lowering makes sure of about operands, and what it does not. -/
structure OperandContract (symbols : SymbolTable) (us : List Use) : Prop where
  /-- The operands in an operand are listed as well. -/
  closed : UsesClosed symbols us
  /-- An operand whose consumer is checked has a type that the consumer can do with. -/
  accepted : ∀ u ∈ us, u.IsAccepted symbols
  /-- An operand leaves one value of its type, or no value or several if it has none, as long as the indices
  and addresses in it have types. -/
  leaves : ∀ u ∈ us, ∀ code, u.expr.code symbols = .ok code → u.expr.CallsFit symbols →
    (∀ v ∈ u.expr.uses symbols, v.consumer.isChecked = false → (v.expr.type? symbols).isSome) →
    u.expr.Leaves symbols code
  /-- Any index will do that has code. The code is taken as it is. -/
  element : ∀ (a : Access) (array : String) (index : Expr),
    a.code symbols (.element array index) = (do
      let op ← a.opcodeFor (← symbols.needVar array).type
      return (← index.code symbols) ++ [op.named array])
  /-- Any address will do that has code, unless it is a constant. The code is taken as it is. -/
  memory : ∀ (a : Access) (address : Expr), address.constant? symbols = none →
    a.code symbols (.memory address) = (do
      return (← address.code symbols) ++ [a.memoryOpcode.plain])

/-- **A program that is lowered has its operands checked, apart from indices and addresses.** -/
theorem Tree.program_checks_operands {t : Tree} {c : Configuration} {loader : IncludeLoader}
    {p : Program} (h : t.program c loader = .ok p) :
    OperandContract (.ofTree t) (t.uses (.ofTree t)) where
  closed := .flatMap fun a _ => a.uses_closed
  accepted u hu := by
    obtain ⟨a, ha, hu⟩ := List.mem_flatMap.1 hu
    exact Action.uses_accepted (lower_does (t.program_eq c loader ▸ h) a ha) u hu
  leaves u _ code hcode hfit hinner :=
    Expr.leaves (SymbolTable.wellNamed_ofDeclarations _) hfit hinner hcode
  element a := a.code_element
  memory a _ hconstant := a.code_memory hconstant

/-- An element whose index is a call without a result, and the byte at an address that is a byte. -/
def strayIndices : Tree where
  name := "sample"
  loadAddress := none
  modules :=
    [{ name := "main"
       source := "main"
       blocks :=
        [{ name := "main"
           address := none
           options := []
           statements :=
            [.varDecl ⟨"main.a", .array (.int .ubyte), .plain, some 4, [], {}⟩,
              .varDecl ⟨"main.x", .ubyte, .plain, none, [], {}⟩,
              .subroutine { name := "main.f", parameters := [], returnTypes := [], machine := none }
                [.ret [] {}] {},
              .assign (.var "main.x") (.element "main.a" (.call "main.f" [])) {},
              .assign (.var "main.x") (.memory (.var "main.x")) {}]
           position := {} }] }]

/-- The index and the address are not what their consumers take, and the index leaves no value. -/
theorem strayIndices_accepted :
    (strayIndices.uses (.ofTree strayIndices)).map
        (fun u => (u.consumer, u.isTaken (.ofTree strayIndices))) =
      [(.typed (some .ubyte), true), (.element, false), (.typed (some .ubyte), true),
        (.memory, false)] ∧
    ∃ p, strayIndices.program {} (.ofTexts []) = .ok p ∧
      (∀ u ∈ strayIndices.uses (.ofTree strayIndices),
        u.IsAccepted (.ofTree strayIndices)) ∧
      ∃ slots, Runs (.ofTree strayIndices) [Opcode.call.named "main.f"] [] slots ∧
        slots.length ≠ 1 := by
  have huses : (strayIndices.uses (.ofTree strayIndices)).map
      (fun u => (u.consumer, u.isTaken (.ofTree strayIndices))) =
        [(.typed (some .ubyte), true), (.element, false), (.typed (some .ubyte), true),
          (.memory, false)] := by decide +kernel
  have hlowered : (strayIndices.program {} (.ofTexts [])).toOption.isSome := by decide +kernel
  refine ⟨huses, ?_⟩
  cases h : strayIndices.program {} (.ofTexts []) with
  | error e => simp [h, Except.toOption] at hlowered
  | ok p =>
    have hcontract := Tree.program_checks_operands h
    have hcall : Use.mk (.call "main.f" []) .element ∈
        strayIndices.uses (.ofTree strayIndices) := List.mem_cons_of_mem _ List.mem_cons_self
    have hfit : (Expr.call "main.f" []).CallsFit (.ofTree strayIndices) := fun target args hm => by
      simp only [Expr.withInner, Expr.allOf, List.mem_singleton, Expr.call.injEq] at hm
      obtain ⟨rfl, rfl⟩ := hm
      intro s hs m hmachine
      cases hs
      cases hmachine
    have hleaves := hcontract.leaves _ hcall [Opcode.call.named "main.f"] rfl hfit
      (List.forall_mem_nil _)
    exact ⟨p, rfl, hcontract.accepted, hleaves⟩

end StackCode
