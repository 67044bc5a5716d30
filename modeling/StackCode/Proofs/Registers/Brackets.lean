/-
Register X around calls. A call that may change it keeps it first and restores it last, and
so do the calls inside of its arguments, each within the other. What is kept is therefore the
same behind the code of a call as in front of it, and the register is as well, if this call
keeps it. Whether it does is decided by what the subroutine clobbers and takes: a result in
register X is not asked about.
-/
import StackCode.Proofs.Registers.Results

namespace StackCode

variable {symbols : SymbolTable}

/-! ## Nesting -/

namespace Change

/-- How often register X is kept behind a change, given how often it was kept in front of it. What is not
kept cannot be restored. -/
def depth? (n : Nat) : Change → Option Nat
  | saveX => some (n + 1)
  | restoreX => if n = 0 then none else some (n - 1)
  | _ => some n

/-- How often register X is kept behind the changes. -/
def depthBehind? (n : Nat) (changes : List Change) : Option Nat := changes.foldlM depth? n

/-- Each time that register X is restored it was kept before, and each time that it is kept it is restored
again. -/
def IsNested (changes : List Change) : Prop := depthBehind? 0 changes = some 0

instance : DecidablePred IsNested := fun changes =>
  inferInstanceAs (Decidable (depthBehind? 0 changes = some 0))

variable {c : Change} {changes changes' : List Change} {n k : Nat}

theorem depthBehind?_append : depthBehind? n (changes ++ changes') =
    (depthBehind? n changes).bind fun k => depthBehind? k changes' :=
  List.foldlM_append

/-- What was kept before stays below. -/
theorem depth?_add (h : c.depth? n = some k) (m : Nat) : c.depth? (n + m) = some (k + m) := by
  cases c <;> simp only [depth?, Option.some.injEq] at h ⊢
  case saveX => omega
  case restoreX =>
    split at h <;> simp only [Option.some.injEq, reduceCtorEq] at h
    rw [if_neg (by omega), Option.some.injEq]
    omega
  all_goals omega

theorem depthBehind?_add (h : depthBehind? n changes = some k) (m : Nat) :
    depthBehind? (n + m) changes = some (k + m) := by
  induction changes generalizing n with
  | nil =>
    cases h
    rfl
  | cons c changes ih =>
    obtain ⟨n', hc, hrest⟩ := Option.bind_eq_some_iff.1 h
    exact Option.bind_eq_some_iff.2 ⟨n' + m, depth?_add hc m, ih hrest⟩

namespace IsNested

theorem nil : IsNested [] := rfl

theorem append (h : IsNested changes) (h' : IsNested changes') : IsNested (changes ++ changes') := by
  rw [IsNested, depthBehind?_append, h]
  exact h'

theorem flatMap {α : Type} {xs : List α} {f : α → List Change} (h : ∀ x ∈ xs, IsNested (f x)) :
    IsNested (xs.flatMap f) := by
  induction xs with
  | nil => exact nil
  | cons x xs ih =>
    rw [List.flatMap_cons]
    exact (h x List.mem_cons_self).append (ih fun y hy => h y (List.mem_cons_of_mem _ hy))

/-- Register X is kept and restored around changes that are nested. -/
theorem saving (h : IsNested changes) : IsNested ([saveX] ++ changes ++ [restoreX]) := by
  have hinside : depthBehind? 1 changes = some 1 := by simpa using depthBehind?_add h 1
  rw [IsNested, List.append_assoc, depthBehind?_append]
  change depthBehind? 1 (changes ++ [restoreX]) = some 0
  rw [depthBehind?_append, hinside]
  rfl

end IsNested
end Change

/-! ## Shapes -/

open Change

theorem Place.isNested_changes (p : Place) : IsNested (p.changes symbols) := by
  cases p with
  | var name =>
    rw [changes]
    split <;> rfl
  | _ => rfl

theorem Carrier.isNested_changes (c : Carrier) (arg : Expr) {changes : List Change} (h : IsNested changes) :
    IsNested (c.changes symbols arg changes) := by
  cases c with
  | register r => exact h.append rfl
  | pair p =>
    refine h.append ?_
    split <;> rfl
  | flag f => exact .nil

theorem Carrier.isNested_result (c : Carrier) : IsNested c.resultChanges := by
  rcases c with r | p | _ | _ <;> rfl

theorem MachineConvention.isNested_changes {m : MachineConvention} {args : List (Expr × List Change)}
    (h : ∀ x ∈ args, IsNested x.2) : IsNested (m.changes symbols args) := by
  have hinner : IsNested (((m.parameters.zip args).flatMap fun x =>
      x.1.changes symbols x.2.1 x.2.2) ++ m.returns.reverse.flatMap Carrier.resultChanges) :=
    (IsNested.flatMap fun x hx => x.1.isNested_changes _ (h x.2 (List.of_mem_zip hx).2)).append
      (IsNested.flatMap fun c _ => c.isNested_result)
  rw [changes]
  split
  · exact hinner.saving
  · exact hinner

theorem Signature.isNested_changes (s : Signature) {args : List (Expr × List Change)}
    (h : ∀ x ∈ args, IsNested x.2) : IsNested (s.changes symbols args) := by
  rw [changes]
  split
  next m _ => exact m.isNested_changes h
  next => exact IsNested.flatMap fun x hx => (h x.2 (List.of_mem_zip hx).2).append rfl

/-- No builtin has the opcode that keeps register X, or the one that restores it. -/
theorem Builtin.isNested_opcode {b : Builtin} (hb : b ∈ all) {op : Opcode}
    (hm : b.method = .opcode op) : IsNested op.plain.change?.toList := by
  have hall : ∀ b ∈ all, b.method ≠ .opcode .saveX ∧ b.method ≠ .opcode .restoreX := by decide
  obtain ⟨hsave, hrestore⟩ := hall b hb
  rw [hm] at hsave hrestore
  cases op <;> first | rfl | exact absurd rfl hsave | exact absurd rfl hrestore

theorem Builtin.isNested_changes {b : Builtin} (hb : b ∈ all) {args : List (Expr × List Change)}
    (h : ∀ x ∈ args, IsNested x.2) : IsNested (b.changes symbols args) := by
  refine (IsNested.flatMap h).append ?_
  cases hm : b.method with
  | swap | shift =>
    refine IsNested.flatMap fun x hx => (h x hx).append ?_
    cases Place.ofExpr? x.1 with
    | none => exact .nil
    | some p => exact p.isNested_changes
  | opcode op => exact Builtin.isNested_opcode hb hm
  | _ => exact .nil

theorem SymbolTable.isNested_changes (target : String) {args : List (Expr × List Change)}
    (h : ∀ x ∈ args, IsNested x.2) : IsNested (symbols.changes target args) := by
  rw [changes]
  split
  next s _ => exact s.isNested_changes h
  next => exact .nil
  next =>
    cases hb : Builtin.find? target with
    | none => exact .nil
    | some b => exact Builtin.isNested_changes (List.mem_of_find?_eq_some hb) h

namespace Expr

mutual

/-- The changes that the code of an expression makes are nested. -/
theorem isNested_changes : ∀ e : Expr, IsNested (e.changes symbols)
  | .unary _ e | .cast e _ | .element _ e => isNested_changes e
  | .binary left (.shift _) _ => isNested_changes left
  | .binary left (.arithmetic _) right | .binary left (.connective _) right
  | .binary left (.comparison _) right => (isNested_changes left).append (isNested_changes right)
  | .memory address => by
    rw [changes]
    split
    · exact .nil
    · exact isNested_changes address
  | .call target args => by
    rw [changes]
    split
    · exact .nil
    · exact symbols.isNested_changes target (isNested_each args)
  | .number _ | .register _ | .var _ | .addressOf _ | .range .. | .structLiteral _ => .nil

theorem isNested_each : ∀ es : List Expr, ∀ x ∈ withChanges symbols es, IsNested x.2
  | [], _, hx => by cases hx
  | e :: es, x, hx => by
    rw [withChanges, List.mem_cons] at hx
    rcases hx with rfl | hx
    · exact isNested_changes e
    · exact isNested_each es x hx

end

/-- The same goes for the code that brings the value to a type. -/
theorem isNested_pushAs {e : Expr} {t : DataType} {code : Code}
    (h : (e.operand symbols).pushAs symbols t = .ok code) : IsNested (changesOf code) := by
  have hchanges := (operand_changes e).pushAs code h
  rw [expr_operand] at hchanges
  rw [hchanges]
  exact e.isNested_changes

theorem isNested_code {e : Expr} {code : Code} (h : e.code symbols = .ok code) :
    IsNested (changesOf code) := by
  rw [(operand_changes e).code code h]
  exact e.isNested_changes

end Expr

/-! ## Calls -/

theorem Carrier.Passes.isNested {x : Carrier × Expr} {p : Passing} (h : Passes symbols x p) :
    IsNested (changesOf p.code) := by
  rw [Passing.code, changesOf_append]
  cases h with
  | register lowered => exact (Expr.isNested_pushAs lowered).append rfl
  | byte type lowered => exact (Expr.isNested_pushAs lowered).append rfl
  | word type lowered => exact (Expr.isNested_code lowered).append rfl
  | carry constant => rfl

variable {m : MachineConvention} {args : List Expr} {c : MachineCode}

theorem isNested_passings {xs : List (Carrier × Expr)} {passings : List Passing}
    (h : List.Forall₂ (Carrier.Passes symbols) xs passings) :
    IsNested (changesOf (passings.flatMap (·.code))) := by
  induction h with
  | nil => rfl
  | cons hx _ ih =>
    rw [List.flatMap_cons, changesOf_append]
    exact hx.isNested.append ih

namespace MachineCode.IsFor

theorem changesOf_results (h : c.IsFor symbols m args) :
    changesOf c.results.flatten = m.returns.reverse.flatMap Carrier.resultChanges :=
  Lowered.Changes.mapM (fun _ _ => takeResult_changes) (Lowered.mapM_ok_iff.2 h.takes)

theorem isNested_inner (h : c.IsFor symbols m args) (name : String) :
    IsNested (changesOf (c.inner name)) := by
  have hcall : changesOf [Opcode.call.named name] = [] := changesOf_named rfl name
  rw [inner, front, changesOf_append, changesOf_append, changesOf_append, setCarry_changes, hcall,
    h.changesOf_results]
  exact (((isNested_passings h.passes).append .nil).append .nil).append
    (IsNested.flatMap fun c _ => c.isNested_result)

/-- The last instruction restores register X just if the code keeps it: none of those for the results
does. -/
theorem getLast?_eq_restoreX_iff (h : c.IsFor symbols m args) (keepsX : Bool) (name : String) :
    (savingX keepsX (c.inner name)).getLast? = some Opcode.restoreX.plain ↔ keepsX := by
  cases keepsX with
  | true => exact iff_of_true List.getLast?_concat rfl
  | false =>
    refine iff_of_false (fun hlast => ?_) Bool.false_ne_true
    have hmem : Opcode.restoreX.plain ∈ [Opcode.call.named name] ++ c.results.flatten := by
      change (c.inner name).getLast? = _ at hlast
      rw [inner, List.append_assoc, List.getLast?_append_of_ne_nil _ (by simp)] at hlast
      exact List.mem_of_getLast? hlast
    have hchange : Change.restoreX ∈ changesOf ([Opcode.call.named name] ++ c.results.flatten) :=
      mem_changesOf.2 ⟨_, hmem, rfl⟩
    rw [changesOf_append, changesOf_named rfl, h.changesOf_results, List.nil_append,
      List.mem_flatMap] at hchange
    obtain ⟨r, -, hr⟩ := hchange
    rcases r with r | p | _ | _ <;> simp [Carrier.resultChanges] at hr

end MachineCode.IsFor

namespace Cpu

variable {M : Type} {others : Instruction → Cpu M → Option (Cpu M)} {code : Code} {s s' : Cpu M}

/-- One instruction, with `top` kept since some time before. What is kept behind it was kept already or is
register X, and what is restored was kept. -/
theorem kept_step (ho : LeavesKept others) {i : Instruction} {top base : List (BitVec 8)} {k : Nat}
    (hdepth : depthBehind? top.length (changesOf (i :: code)) = some k) (hs : s.kept = top ++ base)
    (h : step? others i s = some s') :
    ∃ top', s'.kept = top' ++ base ∧ depthBehind? top'.length (changesOf code) = some k ∧
      (∀ b ∈ top', b ∈ top ∨ b = s.registers .x) ∧
      (i.change? = some .restoreX → s'.registers .x ∈ top) := by
  have hchanges : changesOf (i :: code) = i.change?.toList ++ changesOf code := by
    rw [← changesOf_singleton, ← changesOf_append]
    rfl
  rw [hchanges, depthBehind?_append] at hdepth
  rcases kept_step? ho h with ⟨hc, hkept⟩ | ⟨hc, hkept⟩ | ⟨hc, hc', hkept⟩
  · rw [hc] at hdepth
    refine ⟨s.registers .x :: top, by rw [hkept, hs]; rfl, hdepth, fun b hb => ?_, by simp [hc]⟩
    exact (List.mem_cons.1 hb).symm
  · rw [hc] at hdepth
    cases top with
    | nil => cases hdepth
    | cons b top =>
      rw [hs, List.cons_append, List.cons.injEq] at hkept
      exact ⟨top, hkept.2.symm, hdepth, fun b hb => .inl (List.mem_cons_of_mem _ hb), fun _ =>
        hkept.1 ▸ List.mem_cons_self⟩
  · have hsame : depthBehind? top.length i.change?.toList = some top.length := by
      rcases hci : i.change? with _ | c
      · rfl
      · cases c <;> simp_all [depthBehind?, depth?]
    rw [hsame] at hdepth
    exact ⟨top, hkept.trans hs, hdepth, fun b hb => .inl hb, fun hrestore => absurd hrestore hc'⟩

/-- What was kept before stays below what is kept by then. -/
theorem kept_run (ho : LeavesKept others) {top base : List (BitVec 8)} {k : Nat}
    (hdepth : depthBehind? top.length (changesOf code) = some k) (hs : s.kept = top ++ base)
    (h : run others code s = some s') : ∃ top', s'.kept = top' ++ base ∧ top'.length = k := by
  induction code generalizing s top with
  | nil =>
    cases h
    cases hdepth
    exact ⟨top, hs, rfl⟩
  | cons i code ih =>
    obtain ⟨t, hi, hrest⟩ := Option.bind_eq_some_iff.1 h
    obtain ⟨top', ht, hdepth', -, -⟩ := kept_step ho hdepth hs hi
    exact ih hdepth' ht hrest

/-- A register that nothing in the code is about stays as it is. If it is register X, then what is kept
and restored is only itself. -/
theorem registers_run {r : Register} (ho : Leaves others r) (hkept : LeavesKept others)
    (hsets : ∀ i ∈ code, ¬i.Sets r) {top base : List (BitVec 8)} {k : Nat}
    (hdepth : depthBehind? top.length (changesOf code) = some k) (hs : s.kept = top ++ base)
    (htop : r = .x → ∀ b ∈ top, b = s.registers r) (h : run others code s = some s') :
    s'.registers r = s.registers r := by
  induction code generalizing s top with
  | nil =>
    cases h
    rfl
  | cons i code ih =>
    obtain ⟨t, hi, hrest⟩ := Option.bind_eq_some_iff.1 h
    obtain ⟨top', ht, hdepth', hmem, hrestore⟩ := kept_step hkept hdepth hs hi
    have hstep : t.registers r = s.registers r := by
      by_cases hx : i.change? = some .restoreX ∧ r = .x
      · obtain ⟨hc, rfl⟩ := hx
        exact htop rfl _ (hrestore hc)
      · exact registers_step? ho hi (hsets i List.mem_cons_self) fun hc heq => hx ⟨hc, heq⟩
    rw [← hstep]
    refine ih (fun j hj => hsets j (List.mem_cons_of_mem _ hj)) hdepth' ht (fun heq b hb => ?_) hrest
    subst heq
    rw [hstep]
    exact (hmem b hb).elim (htop rfl b) id

/-- Behind code whose changes are nested, as much is kept as in front of it. -/
theorem kept_of_isNested (ho : LeavesKept others) (hcode : IsNested (changesOf code))
    (h : run others code s = some s') : s'.kept = s.kept := by
  have hdepth : depthBehind? ([] : List (BitVec 8)).length (changesOf code) = some 0 := hcode
  obtain ⟨top, hkept, hlen⟩ := kept_run ho hdepth rfl h
  rw [hkept, List.eq_nil_of_length_eq_zero hlen, List.nil_append]

theorem registers_of_isNested {r : Register} (ho : Leaves others r) (hkept : LeavesKept others)
    (hsets : ∀ i ∈ code, ¬i.Sets r) (hcode : IsNested (changesOf code))
    (h : run others code s = some s') : s'.registers r = s.registers r := by
  have hdepth : depthBehind? ([] : List (BitVec 8)).length (changesOf code) = some 0 := hcode
  exact registers_run ho hkept hsets hdepth rfl (fun _ b hb => by cases hb) h

/-- Code that keeps register X, if it changes it. -/
theorem registers_x_of_savingX (ho : LeavesKept others) (hcode : IsNested (changesOf code))
    (h : run others (savingX true code) s = some s') : s'.registers .x = s.registers .x := by
  have hsplit : savingX true code = Opcode.saveX.plain :: (code ++ [Opcode.restoreX.plain]) := by
    simp [savingX]
  rw [hsplit, run_cons] at h
  change run others (code ++ _) _ = _ at h
  obtain ⟨t, ht, hrestore⟩ := run_append_eq_some.1 h
  have hkept : t.kept = s.registers .x :: s.kept := kept_of_isNested ho hcode ht
  rw [run_cons] at hrestore
  simp only [step?, Opcode.plain, hkept, Option.bind_some, run_nil, Option.some.injEq] at hrestore
  rw [← hrestore]
  exact Function.update_self Register.x _ t.registers

theorem takeAll_registers_x (cs : List Carrier) (s : Cpu M) :
    (s.takeAll cs).registers .x = s.registers .x := by
  rw [takeAll_registers]
  split <;> rfl

end Cpu

/-- **A call keeps register X just if the subroutine clobbers it or takes an argument in it**, and what
calls keep is nested. Then the code starts with keeping it and ends with restoring it, and the register
is the same behind it as in front of it. A result in register X is no reason for a call to keep it: if
it does not, the register is what the subroutine left in it. -/
theorem SymbolTable.callCode_keepsX {s : Signature} {target : String} {code : Code}
    (hs : symbols.find? target = some (.subroutine s)) (hm : s.machine = some m)
    (h : symbols.CallCode target args code) :
    IsNested (changesOf code) ∧
    ∃ (c : MachineCode) (discards : List Opcode), c.IsFor symbols m args ∧
      IsNested (changesOf (c.inner s.name)) ∧
      code = savingX m.keepsX (c.inner s.name) ++ discards.map Opcode.plain ∧
      ((savingX m.keepsX (c.inner s.name)).getLast? = some Opcode.restoreX.plain ↔ m.keepsX) ∧
      ∀ {M : Type} (others : Instruction → Cpu M → Option (Cpu M)), Cpu.LeavesKept others →
        ∀ t t' : Cpu M, t.run others (savingX m.keepsX (c.inner s.name)) = some t' →
          t'.kept = t.kept ∧
          (m.keepsX → t'.registers .x = t.registers .x) ∧
          (¬m.keepsX → ∃ u, t.run others (c.front ++ [Opcode.call.named s.name]) = some u ∧
            t'.registers .x = u.registers .x) := by
  obtain ⟨c, discards, hc, hdiscards, rfl⟩ := h.machine_parts hs hm
  have hinner := hc.isNested_inner s.name
  have hcall : IsNested (changesOf (savingX m.keepsX (c.inner s.name))) := by
    rw [savingX_changes]
    split
    · exact hinner.saving
    · exact hinner
  have hquiet : changesOf (discards.map Opcode.plain) = [] := changesOf_of_isQuiet fun i hi => by
    obtain ⟨op, hop, rfl⟩ := List.mem_map.1 hi
    obtain ⟨z, rfl⟩ := hdiscards op hop
    rfl
  refine ⟨?_, c, discards, hc, hinner, rfl, hc.getLast?_eq_restoreX_iff _ _, ?_⟩
  · rw [changesOf_append, hquiet]
    exact hcall.append .nil
  intro M others ho t t' hrun
  refine ⟨Cpu.kept_of_isNested ho hcall hrun, fun hkeeps => ?_, fun hkeeps => ?_⟩
  · rw [hkeeps] at hrun
    exact Cpu.registers_x_of_savingX ho hinner hrun
  · rw [Bool.not_eq_true] at hkeeps
    rw [hkeeps] at hrun
    obtain ⟨u, hu, hresults⟩ := Cpu.run_append_eq_some.1 hrun
    rw [Cpu.run_results hc.takes, Option.some.injEq] at hresults
    exact ⟨u, hu, by rw [← hresults, Cpu.takeAll_registers_x]⟩

/-- The result is in register X, which the subroutine neither clobbers nor takes an argument in. -/
def byteInX : MachineConvention where
  address := some 0xFF9F
  parameters := []
  returns := [.register .x]
  clobbers := []

def finding : Signature where
  name := "main.find"
  parameters := []
  returnTypes := [.ubyte]
  machine := some byteInX

def findingSymbols : SymbolTable := .ofDeclarations [.subroutine finding false]

/-- Nothing brings register X back behind the call: it is what the subroutine left in it. -/
theorem finding_leaves_x : ∃ code call discards,
    callStatementCode findingSymbols "main.find" [] = .ok code ∧ code = call ++ discards ∧
    call.getLast? ≠ some Opcode.restoreX.plain ∧
    ∀ (others : Instruction → Cpu Unit → Option (Cpu Unit)), Cpu.LeavesKept others →
      ∀ t t' : Cpu Unit, t.run others call = some t' →
        ∃ front u, t.run others (front ++ [Opcode.call.named "main.find"]) = some u ∧
          t'.registers .x = u.registers .x := by
  have hs : findingSymbols.find? "main.find" = some (.subroutine finding) := by decide +kernel
  have hlowered : (callStatementCode findingSymbols "main.find" []).toBool := by decide +kernel
  cases h : callStatementCode findingSymbols "main.find" [] with
  | error e => simp [h, Except.toBool] at hlowered
  | ok code =>
    obtain ⟨-, c, discards, -, -, hcode, hlast, hrun⟩ :=
      SymbolTable.callCode_keepsX hs rfl (.statement h)
    refine ⟨code, _, _, rfl, hcode, hlast.not.2 Bool.false_ne_true, fun others ho t t' ht => ?_⟩
    obtain ⟨u, hu, hx⟩ := (hrun others ho t t' ht).2.2 Bool.false_ne_true
    exact ⟨c.front, u, hu, hx⟩

end StackCode
