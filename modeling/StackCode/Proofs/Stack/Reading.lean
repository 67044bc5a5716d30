/-
The heights of the operand stack in a finished block. Read from top to bottom, the
entries give one stack to each place: an instruction hands on what it leaves, and
behind a jump or a return the text goes on with the stack that was there before what
they took. A subroutine starts with a stack of its own, and behind it the text around
it goes on with the old one.

A place counts where control can come from elsewhere or go elsewhere: at labels, at
jumps and at returns. A block is level if each jump to a generated label finds the
stack that the label has, and each return finds just what is returned.
-/
import StackCode.Proofs.Stack.Contract

namespace StackCode

/-! ## Places that count -/

/-- A place where control comes or goes, with the stack there. -/
inductive Site where
  | label (name : String) (stack : List Slot)
  /-- The stack is what is left when the jump is taken. -/
  | jump (target : String) (stack : List Slot)
  /-- A return from a subroutine with these results. -/
  | ret (stack results : List Slot)

/-- The label has the shape of the labels that lowering makes up. -/
def IsGenerated (label : String) : Prop := ∃ scope suffix n, label = labelName scope suffix n

/-- Each jump to a generated label goes to one stack, and each return has its results on the stack and
nothing else. -/
structure Level (sites : List Site) : Prop where
  reached : ∀ {l stack}, .jump l stack ∈ sites → IsGenerated l → .label l stack ∈ sites
  agree : ∀ {l stack stack'}, .jump l stack ∈ sites → IsGenerated l → .label l stack' ∈ sites →
    stack' = stack
  ret : ∀ {stack results}, .ret stack results ∈ sites → stack = results

/-! ## Reading a block -/

/-- The body of a subroutine, or of a block. -/
structure Body where
  stack : List Slot := []
  /-- What a return leaves. -/
  results : List Slot := []

/-- What has been read. -/
structure Reading where
  body : Body := {}
  /-- The bodies around, the innermost first. -/
  outer : List Body := []
  sites : List Site := []

/-- What the subroutine of a name returns. -/
def SymbolTable.resultSlots (symbols : SymbolTable) (name : String) : List Slot :=
  match symbols.find? name with
  | some (.subroutine s) => s.returnTypes.map (·.slot)
  | _ => []

namespace Reading

def note (r : Reading) (s : Site) : Reading := { r with sites := r.sites ++ [s] }

def withStack (r : Reading) (stack : List Slot) : Reading := { r with body := { r.body with stack } }

/-- A jump that is taken with this stack. One to a fixed address leaves the program. -/
def jump (r : Reading) (i : Instruction) : Reading :=
  match i.label with
  | some l => r.note (.jump l r.body.stack)
  | none => r

def instruction? (symbols : SymbolTable) (r : Reading) (i : Instruction) : Option Reading :=
  match i.opcode with
  | .jump | .branch _ => some (r.jump i)
  | .jumpZero s | .jumpNonzero s =>
    (Effect.take? [.size (.int s)] r.body.stack).map fun stack => (r.withStack stack).jump i
  | .ret =>
    some ((r.note (.ret r.body.stack r.body.results)).withStack
      (r.body.stack.drop r.body.results.length))
  | .startProc | .returnFromIrq | .line => some r
  | .endProc =>
    match r.outer with
    | [] => none
    | body :: outer => some { r with body, outer }
  | _ => (run symbols [i] r.body.stack).map r.withStack

def readOne? (symbols : SymbolTable) (r : Reading) : Entry → Option Reading
  | .label name true =>
    some { r with body := { results := symbols.resultSlots name }, outer := r.body :: r.outer }
  | .label name false => some (r.note (.label name r.body.stack))
  | .instruction i => r.instruction? symbols i

def read? (symbols : SymbolTable) (r : Reading) (es : List Entry) : Option Reading :=
  es.foldlM (readOne? symbols) r

end Reading

/-- The stack has one height at each place of the block, whatever way leads there. -/
def Block.IsLevel (symbols : SymbolTable) (b : Block) : Prop :=
  ∃ r, Reading.read? symbols {} b.entries = some r ∧ Level r.sites

/-! ## Walks -/

/-- Reading the entries takes the stack of the body from one state to another, past these sites. -/
def Walks (symbols : SymbolTable) (results : List Slot) (es : List Entry) (before after : List Slot)
    (sites : List Site) : Prop :=
  ∀ outer old, Reading.read? symbols ⟨⟨before, results⟩, outer, old⟩ es =
    some ⟨⟨after, results⟩, outer, old ++ sites⟩

namespace Walks

variable {symbols : SymbolTable} {results before between after : List Slot} {es es' : List Entry}
  {sites sites' : List Site}

theorem nil : Walks symbols results [] before before [] := fun outer old => by
  simp [Reading.read?]

theorem append (h : Walks symbols results es before between sites)
    (h' : Walks symbols results es' between after sites') :
    Walks symbols results (es ++ es') before after (sites ++ sites') := fun outer old => by
  have hread := h outer old
  have hread' := h' outer (old ++ sites)
  rw [Reading.read?] at hread hread' ⊢
  rw [List.foldlM_append, hread, ← List.append_assoc]
  exact hread'

theorem label (name : String) :
    Walks symbols results [.label name false] before before [.label name before] := fun _ _ => rfl

theorem ret : Walks symbols results [.instruction Opcode.ret.plain] (results ++ before) before
    [.ret (results ++ before) results] := fun _ _ => by
  simp [Reading.read?, Reading.readOne?, Reading.instruction?, Opcode.plain, Reading.withStack,
    Reading.note]

/-- A subroutine has a stack of its own. -/
theorem subroutine {name : String} (h : Walks symbols (symbols.resultSlots name) es [] after sites) :
    Walks symbols results ([Entry.label name true] ++ ([Entry.instruction Opcode.startProc.plain] ++
      (es ++ [Entry.instruction Opcode.endProc.plain]))) before before sites := fun outer old => by
  have hbody := h (⟨before, results⟩ :: outer) old
  rw [Reading.read?] at hbody ⊢
  simp only [List.foldlM_append, List.foldlM_cons, List.foldlM_nil, Reading.readOne?,
    Reading.instruction?, Opcode.plain, Option.bind_eq_bind, Option.bind_some, Option.pure_def, hbody]

/-- Straight code is read as it runs. -/
theorem straight {code : Code} (hs : Straight code) (h : run symbols code before = some after) :
    Walks symbols results (code.map .instruction) before after [] := by
  induction code generalizing before with
  | nil =>
    cases h
    exact nil
  | cons i code ih =>
    rw [← List.singleton_append, run_append, Option.bind_eq_some_iff] at h
    obtain ⟨between, hi, hrest⟩ := h
    have hfirst : Walks symbols results [.instruction i] before between [] := fun outer old => by
      have hinstr : Reading.instruction? symbols ⟨⟨before, results⟩, outer, old⟩ i =
          (run symbols [i] before).map (Reading.withStack ⟨⟨before, results⟩, outer, old⟩) := by
        have hop := hs i List.mem_cons_self
        unfold Reading.instruction?
        split <;> first
          | rfl
          | (next hopcode => simp [Instruction.IsStraight, hopcode, Opcode.effect?] at hop)
      simp [Reading.read?, Reading.readOne?, hinstr, hi, Reading.withStack]
    exact hfirst.append (ih (fun j hj => hs j (List.mem_cons_of_mem _ hj)) hrest)

theorem runs {code : Code} (hs : Straight code) (h : Runs symbols code before after)
    (below : List Slot) :
    Walks symbols results (code.map .instruction) (before ++ below) (after ++ below) [] :=
  straight hs (h below)

end Walks

/-- An instruction of this opcode turns the one stack into the other, both where it goes on and where it
jumps to. -/
def Opcode.Jumps (symbols : SymbolTable) (results : List Slot) (op : Opcode)
    (before after : List Slot) : Prop :=
  ∀ i : Instruction, i.opcode = op →
    Walks symbols results [.instruction i] before after (i.label.map (.jump · after)).toList

namespace Opcode.Jumps

variable {symbols : SymbolTable} {results stack : List Slot}

theorem of_read {op : Opcode} {before after : List Slot}
    (h : ∀ {r : Reading} {i : Instruction}, i.opcode = op → r.body.stack = before →
      r.instruction? symbols i = some ((r.withStack after).jump i)) :
    op.Jumps symbols results before after := fun i hi outer old => by
  simp only [Reading.read?, List.foldlM_cons, List.foldlM_nil, Reading.readOne?,
    h (r := ⟨⟨before, results⟩, outer, old⟩) hi rfl]
  unfold Reading.jump
  cases i.label <;> simp [Reading.note, Reading.withStack]

theorem jump : Opcode.jump.Jumps symbols results stack stack :=
  of_read fun hi hs => by simp [Reading.instruction?, hi, Reading.withStack, ← hs]

theorem branch {test : FlagTest} : (Opcode.branch test).Jumps symbols results stack stack :=
  of_read fun hi hs => by simp [Reading.instruction?, hi, Reading.withStack, ← hs]

theorem jumpZeroFor {t : DataType} {op : Opcode} (h : Opcode.jumpZeroFor t = .ok op) :
    op.Jumps symbols results (t.slot :: stack) stack := by
  obtain ⟨n, rfl, rfl⟩ := jumpZeroFor_ok h
  exact of_read fun hi hs => by
    simp [Reading.instruction?, hi, hs, Effect.take?, DataType.slot, NumType.size]

theorem jumpNonzeroFor {t : DataType} {op : Opcode} (h : Opcode.jumpNonzeroFor t = .ok op) :
    op.Jumps symbols results (t.slot :: stack) stack := by
  obtain ⟨n, rfl, rfl⟩ := jumpNonzeroFor_ok h
  exact of_read fun hi hs => by
    simp [Reading.instruction?, hi, hs, Effect.take?, DataType.slot, NumType.size]

end Opcode.Jumps

/-! ## Labels of a reading -/

def Site.labelName? : Site → Option String
  | .label name _ => some name
  | .jump .. | .ret .. => none

/-- What an instruction adds to the places that count is not a label. -/
theorem Reading.sites_of_instruction? {symbols : SymbolTable} {i : Instruction} {r r' : Reading}
    (h : r.instruction? symbols i = some r') :
    ∃ new, r'.sites = r.sites ++ new ∧ new.filterMap (·.labelName?) = [] := by
  have hjump : ∀ r : Reading, ∃ new, (r.jump i).sites = r.sites ++ new ∧
      new.filterMap (·.labelName?) = [] := fun r => by
    unfold jump
    split
    next l _ => exact ⟨[.jump l r.body.stack], rfl, rfl⟩
    next => exact ⟨[], (List.append_nil _).symm, rfl⟩
  unfold instruction? at h
  split at h
  · cases h
    exact hjump r
  · cases h
    exact hjump r
  · obtain ⟨stack, -, rfl⟩ := Option.map_eq_some_iff.1 h
    exact hjump (r.withStack stack)
  · obtain ⟨stack, -, rfl⟩ := Option.map_eq_some_iff.1 h
    exact hjump (r.withStack stack)
  · cases h
    exact ⟨[.ret _ _], rfl, rfl⟩
  · cases h
    exact ⟨[], (List.append_nil _).symm, rfl⟩
  · cases h
    exact ⟨[], (List.append_nil _).symm, rfl⟩
  · cases h
    exact ⟨[], (List.append_nil _).symm, rfl⟩
  · split at h <;> cases h
    exact ⟨[], (List.append_nil _).symm, rfl⟩
  · obtain ⟨stack, -, rfl⟩ := Option.map_eq_some_iff.1 h
    exact ⟨[], (List.append_nil _).symm, rfl⟩

/-- The labels that a reading passes are labels of the text, each as often as it stands there. -/
theorem Reading.labels_sublist {symbols : SymbolTable} {es : List Entry} {r r' : Reading}
    (h : r.read? symbols es = some r') :
    ∃ new, r'.sites = r.sites ++ new ∧ (new.filterMap (·.labelName?)).Sublist (labelsOf es) := by
  induction es generalizing r with
  | nil =>
    cases h
    exact ⟨[], (List.append_nil _).symm, List.Sublist.refl _⟩
  | cons e es ih =>
    rw [read?, List.foldlM_cons] at h
    obtain ⟨mid, he, hrest⟩ := Option.bind_eq_some_iff.1 h
    obtain ⟨rest, hr', hsub⟩ := ih hrest
    have hfirst : ∃ new, mid.sites = r.sites ++ new ∧
        (new.filterMap (·.labelName?)).Sublist (labelsOf [e]) := by
      rcases e with i | ⟨name, _ | _⟩
      · obtain ⟨new, hmid, hnew⟩ := sites_of_instruction? he
        exact ⟨new, hmid, hnew ▸ List.nil_sublist _⟩
      · cases he
        exact ⟨[.label name _], rfl, List.Sublist.refl _⟩
      · cases he
        exact ⟨[], (List.append_nil _).symm, List.nil_sublist _⟩
    obtain ⟨first, hmid, hfirst⟩ := hfirst
    refine ⟨first ++ rest, by rw [hr', hmid, List.append_assoc], ?_⟩
    rw [List.filterMap_append, ← List.singleton_append, labelsOf_append]
    exact hfirst.append hsub

theorem eq_of_nodup_filterMap {α β : Type} {f : α → Option β} {a a' : α} {b : β} : ∀ {l : List α},
    (l.filterMap f).Nodup → a ∈ l → a' ∈ l → f a = some b → f a' = some b → a = a'
  | [], _, ha, _, _, _ => by cases ha
  | x :: l, hn, ha, ha', h, h' => by
    rcases List.mem_cons.1 ha with rfl | hl <;> rcases List.mem_cons.1 ha' with rfl | hl'
    · rfl
    · rw [List.filterMap_cons_some h, List.nodup_cons] at hn
      exact absurd (List.mem_filterMap.2 ⟨a', hl', h'⟩) hn.1
    · rw [List.filterMap_cons_some h', List.nodup_cons] at hn
      exact absurd (List.mem_filterMap.2 ⟨a, hl, h⟩) hn.1
    · exact eq_of_nodup_filterMap (hn.sublist ((List.sublist_cons_self x l).filterMap f)) hl hl' h h'

/-- In a text without a label defined twice no label is read with two stacks. -/
theorem Reading.stack_unique {symbols : SymbolTable} {es : List Entry} {r : Reading} {l : String}
    {stack stack' : List Slot} (hn : (labelsOf es).Nodup) (h : read? symbols {} es = some r)
    (hl : .label l stack ∈ r.sites) (hl' : .label l stack' ∈ r.sites) : stack = stack' := by
  obtain ⟨new, hr, hsub⟩ := labels_sublist h
  rw [hr, List.nil_append] at hl hl'
  have heq := eq_of_nodup_filterMap (f := Site.labelName?) (hsub.nodup hn) hl hl' rfl rfl
  cases heq
  rfl

/-- Line markers are no place that counts. -/
theorem Reading.read?_filter {symbols : SymbolTable} (es : List Entry) (r : Reading) :
    r.read? symbols (es.filter (!·.isLine)) = r.read? symbols es := by
  induction es generalizing r with
  | nil => rfl
  | cons e es ih =>
    rw [List.filter_cons]
    split
    · simp only [read?, List.foldlM_cons] at ih ⊢
      exact congrArg _ (funext ih)
    next hline =>
      have hskip : r.readOne? symbols e = some r := by
        rcases e with i | _
        · have hop : i.opcode = .line := by
            simpa [Entry.isLine, Instruction.isLine] using hline
          simp [readOne?, instruction?, hop]
        · simp [Entry.isLine] at hline
      rw [ih]
      simp only [read?, List.foldlM_cons, hskip]
      rfl

end StackCode
