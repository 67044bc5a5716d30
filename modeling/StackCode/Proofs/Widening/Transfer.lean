/-
Where an expression hands a value over: an argument to a parameter that asks for a type, and
a place to the one that it is swapped with. Code for it comes out only if the value is not
wider than where it goes, so no high part of a value is dropped.
-/
import StackCode.Proofs.Stack.Expr

namespace StackCode

/-! ## Transfers -/

/-- A value goes to a place: the type that is inferred for the value, and that of the place. -/
structure Transfer where
  source : Option DataType
  target : Option DataType
deriving DecidableEq, Repr

/-- Both types are known, and the value is not wider than the place. -/
def Transfer.Widens (x : Transfer) : Prop :=
  ∃ s t, x.source = some s ∧ x.target = some t ∧ s.isWiderThan t = false

variable {symbols : SymbolTable}

namespace DataType

theorem isWiderThan_self (t : DataType) : t.isWiderThan t = false := by
  unfold isWiderThan
  cases t.rank? <;> simp

theorem isWiderThan_of_isIterable {s t : DataType} (h : s.isIterable) : s.isWiderThan t = false := by
  cases s <;> first | rfl | cases h

theorem isWiderThan_of_widening {source target : DataType} {op : Option Opcode}
    (h : source.widening target = .ok op) : source.isWiderThan target = false := by
  unfold widening at h
  split at h
  next heq => rw [heq, isWiderThan_self]
  next =>
    simp only [Lowered.bind_ok_iff] at h
    obtain ⟨⟨t, u⟩, htu, h⟩ := h
    obtain ⟨rfl, rfl⟩ := Runs.bothNumeric_ok htu
    split at h
    next => simp only [Lowered.throw_ok_iff] at h
    next hrank => simpa [isWiderThan, rank?, num?] using hrank

end DataType

namespace Operand

variable {o : Operand} {t : DataType} {code : Code}

theorem pushAs_ok (h : o.pushAs symbols t = .ok code) :
    (∃ c, o.push = .ok c) ∧ (Transfer.mk (o.expr.type? symbols) (some t)).Widens := by
  simp only [pushAs, Lowered.bind_ok_iff, Expr.needType_ok_iff] at h
  obtain ⟨s, hs, c, hc, h⟩ := h
  refine ⟨⟨c, hc⟩, s, t, hs, rfl, ?_⟩
  split at h
  next hi => exact DataType.isWiderThan_of_isIterable (Bool.and_eq_true_iff.1 hi).1
  next =>
    obtain ⟨op, hop, -⟩ := Lowered.bind_ok_iff.1 h
    exact DataType.isWiderThan_of_widening hop

theorem load_ok {r : Register} (h : o.load symbols r = .ok code) :
    (∃ c, o.push = .ok c) ∧ (Transfer.mk (o.expr.type? symbols) (some .ubyte)).Widens := by
  simp only [load, Lowered.bind_ok_iff] at h
  obtain ⟨c, hc, -⟩ := h
  exact pushAs_ok hc

/-- The operand is evaluated, or it is a variable that is used as a whole. -/
def IsUsed (o : Operand) : Prop := (∃ code, o.push = .ok code) ∨ ∃ name, o.expr = .var name

/-- The operand is evaluated, or there is nothing to evaluate: it is a variable, or a constant that is
known beforehand. -/
def IsEvaluated (symbols : SymbolTable) (o : Operand) : Prop :=
  (∃ code, o.push = .ok code) ∨ (∃ name, o.expr = .var name) ∨ (o.expr.constant? symbols).isSome

theorem IsUsed.isEvaluated (h : o.IsUsed) : o.IsEvaluated symbols := h.imp_right .inl

end Operand

/-! ## What calls ask for -/

/-- The type that a parameter asks for. -/
def BuiltinParam.asked? : BuiltinParam → Option DataType
  | exact t => some t
  | _ => none

/-- The type that a carrier asks for. A flag has no type: its value is noted. -/
def Carrier.asked? : Carrier → Option DataType
  | register _ => some .ubyte
  | pair _ => some .uword
  | flag _ => none

def Signature.asked (s : Signature) : List (Option DataType) :=
  match s.machine with
  | some m => m.parameters.map (·.asked?)
  | none => s.parameters.map (some ·.type)

/-- An exchange asks for no type. -/
def Builtin.asked (b : Builtin) : List (Option DataType) :=
  if b.method = .swap then [] else b.params.map (·.asked?)

/-- The types that a call asks for, one for each argument that it asks for one. -/
def SymbolTable.asked (symbols : SymbolTable) (target : String) : List (Option DataType) :=
  match symbols.find? target with
  | some (.subroutine s) => s.asked
  | some _ => []
  | none => ((Builtin.find? target).map (·.asked)).getD []

/-- The call exchanges two places. -/
def SymbolTable.swaps (symbols : SymbolTable) (target : String) : Bool :=
  (symbols.find? target).isNone && (Builtin.find? target).any (·.method = .swap)

/-- The arguments are evaluated, and where a type is asked for, they are no wider. -/
structure Passes (symbols : SymbolTable) (asked : List (Option DataType)) (args : List Operand) :
    Prop where
  evaluated : ∀ arg ∈ args, arg.IsEvaluated symbols
  widens : ∀ t arg, (some t, arg) ∈ asked.zip args →
    (Transfer.mk (arg.expr.type? symbols) (some t)).Widens

/-- Each argument goes to a parameter of its own. -/
theorem Passes.of_zip {α : Type} {params : List α} {asked : α → Option DataType} {args : List Operand}
    (hlen : args.length = params.length)
    (h : ∀ p arg, (p, arg) ∈ params.zip args → arg.IsEvaluated symbols ∧
      ∀ t ∈ asked p, (Transfer.mk (arg.expr.type? symbols) (some t)).Widens) :
    Passes symbols (params.map asked) args where
  evaluated arg harg := by
    rw [← List.map_snd_zip (Nat.le_of_eq hlen)] at harg
    obtain ⟨⟨p, _⟩, hmem, rfl⟩ := List.mem_map.1 harg
    exact (h p _ hmem).1
  widens t arg hmem := by
    rw [List.zip_map_left] at hmem
    obtain ⟨⟨p, _⟩, hpair, heq⟩ := List.mem_map.1 hmem
    obtain ⟨hp, rfl⟩ := Prod.mk.inj heq
    exact (h p _ hpair).2 t hp

/-! ## Calls -/

theorem ordinaryCall_passes {s : Signature} {args : List Operand} {code : Code}
    (h : ordinaryCall symbols s args = .ok code) :
    Passes symbols (s.parameters.map (some ·.type)) args := by
  simp only [ordinaryCall, Lowered.check_ok_iff, Lowered.bind_ok_iff, not_not] at h
  obtain ⟨hlen, passed, hpassed, -⟩ := h
  refine .of_zip hlen fun p arg hmem => ?_
  obtain ⟨c, hc⟩ := Lowered.ok_of_mem_mapM hpassed hmem
  simp only [passParameter, Lowered.bind_ok_iff] at hc
  obtain ⟨_, hpush, -⟩ := hc
  obtain ⟨hpush, hwidens⟩ := Operand.pushAs_ok hpush
  refine ⟨.inl hpush, fun t ht => ?_⟩
  cases ht
  exact hwidens

/-- A pair takes a byte with zero above it, or a word. -/
theorem passPair_ok {p : RegisterPair} {arg : Operand} {code : Code}
    (h : passPair symbols p arg = .ok code) :
    (∃ c, arg.push = .ok c) ∧ (Transfer.mk (arg.expr.type? symbols) (some .uword)).Widens := by
  simp only [passPair, Lowered.bind_ok_iff, Expr.needType_ok_iff] at h
  obtain ⟨t, ht, h⟩ := h
  split at h
  next =>
    obtain ⟨c, hc, -⟩ := Lowered.bind_ok_iff.1 h
    exact ⟨(Operand.load_ok hc).1, _, _, ht, rfl, rfl⟩
  next =>
    split at h
    next htype =>
      obtain ⟨c, hc, -⟩ := Lowered.bind_ok_iff.1 h
      refine ⟨⟨c, hc⟩, t, _, ht, rfl, ?_⟩
      rcases t with ((_ | _ | _ | _) | _) | _ | _ | _ | _ <;> first | rfl | cases htype
    next => simp only [Lowered.throw_ok_iff] at h

theorem passCarrier_ok {c : Carrier} {arg : Operand} {r : Code × Option Bool}
    (h : passCarrier symbols c arg = .ok r) : arg.IsEvaluated symbols ∧
      ∀ t ∈ c.asked?, (Transfer.mk (arg.expr.type? symbols) (some t)).Widens := by
  unfold passCarrier at h
  split at h
  · obtain ⟨_, hload, -⟩ := Lowered.bind_ok_iff.1 h
    obtain ⟨hpush, hwidens⟩ := Operand.load_ok hload
    exact ⟨.inl hpush, fun t ht => by cases ht; exact hwidens⟩
  · obtain ⟨_, hpair, -⟩ := Lowered.bind_ok_iff.1 h
    obtain ⟨hpush, hwidens⟩ := passPair_ok hpair
    exact ⟨.inl hpush, fun t ht => by cases ht; exact hwidens⟩
  · split at h
    next v hv => exact ⟨.inr (.inr (by rw [hv]; rfl)), fun t ht => by cases ht⟩
    next => simp only [Lowered.throw_ok_iff] at h
  · simp only [Lowered.throw_ok_iff] at h

theorem machineCall_passes {s : Signature} {m : MachineConvention} {args : List Operand} {code : Code}
    (h : machineCall symbols s m args = .ok code) :
    Passes symbols (m.parameters.map (·.asked?)) args := by
  simp only [machineCall, Lowered.check_ok_iff, Lowered.bind_ok_iff, not_not] at h
  obtain ⟨hlen, passed, hpassed, -⟩ := h
  refine .of_zip hlen.symm fun c arg hmem => ?_
  obtain ⟨r, hr⟩ := Lowered.ok_of_mem_mapM hpassed hmem
  exact passCarrier_ok hr

theorem subroutineCall_passes {s : Signature} {args : List Operand} {code : Code}
    (h : subroutineCall symbols s args = .ok code) : Passes symbols s.asked args := by
  cases hm : s.machine with
  | none =>
    simp only [subroutineCall, hm] at h
    simpa only [Signature.asked, hm] using ordinaryCall_passes h
  | some machine =>
    simp only [subroutineCall, hm] at h
    simpa only [Signature.asked, hm] using machineCall_passes h

/-! ## Calls of builtins -/

theorem BuiltinParam.isWiderThan_of_accepts {p : BuiltinParam} {s t : DataType} (hp : p.asked? = some t)
    (h : p.accepts s) : s.isWiderThan t = false := by
  cases p <;> cases hp
  simp only [accepts, Bool.or_eq_true, decide_eq_true_eq] at h
  rcases h with rfl | hwider
  · exact DataType.isWiderThan_self _
  · unfold DataType.isWiderThan at hwider ⊢
    split at hwider
    next hs ht =>
      rw [decide_eq_true_eq] at hwider
      simp only [hs, ht, decide_eq_false_iff_not]
      omega
    next => cases hwider

theorem pushArguments_ok {params : List BuiltinParam} {args : List Operand} {code : Code}
    (h : pushArguments symbols params args = .ok code) {p : BuiltinParam} {arg : Operand}
    (hmem : (p, arg) ∈ params.zip args) : ∃ c, arg.push = .ok c := by
  obtain ⟨codes, hcodes, -⟩ := Lowered.bind_ok_iff.1 h
  obtain ⟨c, hc⟩ := Lowered.ok_of_mem_mapM hcodes hmem
  cases p with
  | exact t => exact (Operand.pushAs_ok hc).1
  | _ => exact ⟨c, hc⟩

/-- An array is not evaluated as a whole. -/
theorem isUsed_of_declaredArray {arg : Operand} {r : DataType × UInt16}
    (h : declaredArray symbols arg.expr = .ok r) : arg.IsUsed := by
  unfold declaredArray at h
  split at h
  next name heq => exact .inr ⟨name, heq⟩
  next => simp only [Lowered.throw_ok_iff] at h

theorem reduction_isUsed {name : String} {byType : Bool} {arg : Operand} {code : Code}
    (h : reduction symbols name byType arg = .ok code) : arg.IsUsed := by
  obtain ⟨r, hr, -⟩ := Lowered.bind_ok_iff.1 h
  exact isUsed_of_declaredArray hr

theorem elementCount_isUsed {arg : Operand} {code : Code}
    (h : elementCount symbols arg = .ok code) : arg.IsUsed := by
  obtain ⟨t, -, h⟩ := Lowered.bind_ok_iff.1 h
  split at h
  next =>
    obtain ⟨c, hc, -⟩ := Lowered.bind_ok_iff.1 h
    exact .inl ⟨c, hc⟩
  next =>
    obtain ⟨r, hr, -⟩ := Lowered.bind_ok_iff.1 h
    exact isUsed_of_declaredArray hr

theorem checkedCall_isUsed {b : Builtin} {args : List Operand} {code : Code}
    (hlen : args.length = b.params.length) (h : checkedCall symbols b args = .ok code) {arg : Operand}
    (harg : arg ∈ args) : arg.IsUsed := by
  have hpushed {c : Code} (hc : pushArguments symbols b.params args = .ok c) :
      arg.IsUsed := by
    rw [← List.map_snd_zip (Nat.le_of_eq hlen)] at harg
    obtain ⟨⟨p, _⟩, hmem, rfl⟩ := List.mem_map.1 harg
    exact .inl (pushArguments_ok hc hmem)
  unfold checkedCall at h
  split at h
  · obtain rfl := List.mem_singleton.1 harg
    exact elementCount_isUsed h
  · obtain rfl := List.mem_singleton.1 harg
    exact reduction_isUsed h
  · obtain rfl := List.mem_singleton.1 harg
    obtain ⟨r, hr, -⟩ := Lowered.bind_ok_iff.1 h
    exact isUsed_of_declaredArray hr
  · obtain rfl := List.mem_singleton.1 harg
    simp only [absolute, Lowered.bind_ok_iff] at h
    obtain ⟨_, -, c, hc, -⟩ := h
    exact .inl ⟨c, hc⟩
  · obtain rfl := List.mem_singleton.1 harg
    simp only [highByte, Lowered.bind_ok_iff] at h
    obtain ⟨_, -, _, hc, -⟩ := h
    exact .inl (Operand.pushAs_ok hc).1
  · obtain rfl := List.mem_singleton.1 harg
    unfold shiftInPlace at h
    split at h
    · simp only [Lowered.throw_ok_iff] at h
    · simp only [Lowered.bind_ok_iff] at h
      obtain ⟨_, -, _, -, c, hc, -⟩ := h
      exact .inl ⟨c, hc⟩
  · obtain ⟨c, hc, -⟩ := Lowered.bind_ok_iff.1 h
    exact hpushed hc
  · obtain ⟨c, hc, -⟩ := Lowered.bind_ok_iff.1 h
    exact hpushed hc

/-- Two places that are exchanged have the same type. -/
theorem swapPlaces_ok {args : List Operand} {code : Code} (h : swapPlaces symbols args = .ok code) :
    ∃ first second t, args = [first, second] ∧ first.expr.type? symbols = some t ∧
      second.expr.type? symbols = some t ∧ (∃ c, first.push = .ok c) ∧ ∃ c, second.push = .ok c := by
  unfold swapPlaces at h
  split at h
  next first second =>
    simp only [Lowered.check_ok_iff, Lowered.bind_ok_iff, Expr.needType_ok_iff, not_not] at h
    obtain ⟨-, -, t, ht, u, hu, rfl, -, h⟩ := h
    split at h
    next =>
      simp only [Lowered.bind_ok_iff] at h
      obtain ⟨c, hc, d, hd, -⟩ := h
      exact ⟨first, second, t, rfl, ht, hu, ⟨c, hc⟩, d, hd⟩
    next => simp only [Lowered.throw_ok_iff] at h
  next => cases h

theorem builtinCall_passes {b : Builtin} {args : List Operand} {code : Code}
    (h : builtinCall symbols b args = .ok code) : Passes symbols b.asked args := by
  unfold builtinCall at h
  unfold Builtin.asked
  split at h
  next hswap =>
    obtain ⟨first, second, _, rfl, -, -, hfirst, hsecond⟩ := swapPlaces_ok h
    rw [if_pos hswap]
    refine ⟨fun arg harg => ?_, fun _ _ hmem => by cases hmem⟩
    rcases List.mem_pair.1 harg with rfl | rfl
    · exact .inl hfirst
    · exact .inl hsecond
  next hswap =>
    obtain ⟨_, hcheck, hcall⟩ := Lowered.bind_ok_iff.1 h
    rw [if_neg hswap]
    obtain ⟨hlen, haccepts⟩ := checkArguments_ok_iff.1 hcheck
    refine .of_zip hlen fun p arg hmem =>
      ⟨(checkedCall_isUsed hlen hcall (List.of_mem_zip hmem).2).isEvaluated, fun t ht => ?_⟩
    obtain ⟨s, hs, hp⟩ := haccepts p arg hmem
    exact ⟨s, t, hs, rfl, BuiltinParam.isWiderThan_of_accepts ht hp⟩

/-! ## Expressions -/

namespace Expr

/-- The arguments that go to parameters that ask for a type. -/
def passed (symbols : SymbolTable) (asked : List (Option DataType)) (args : List Expr) : List Transfer :=
  (asked.zip args).filterMap fun x => x.1.map fun t => ⟨x.2.type? symbols, some t⟩

/-- The values of two places, each of which goes to the other place. -/
def exchanged (symbols : SymbolTable) : List Expr → List Transfer
  | [first, second] =>
    [⟨first.type? symbols, second.type? symbols⟩, ⟨second.type? symbols, first.type? symbols⟩]
  | _ => []

/-- What a call hands over, apart from what its arguments do themselves. -/
def handed (symbols : SymbolTable) (target : String) (args : List Expr) : List Transfer :=
  passed symbols (symbols.asked target) args ++
    if symbols.swaps target then exchanged symbols args else []

mutual

/-- The transfers in the code of an expression. A call that is a constant makes none. -/
def transfers (symbols : SymbolTable) : Expr → List Transfer
  | unary _ e | element _ e | cast e _ | memory e => e.transfers symbols
  | binary left _ right => left.transfers symbols ++ right.transfers symbols
  | call target args =>
    (if (callConstant? symbols target args).isSome then [] else handed symbols target args) ++
      allTransfers symbols args
  | range first last step =>
    first.transfers symbols ++ last.transfers symbols ++ step.transfers symbols
  | structLiteral values => allTransfers symbols values
  | number _ | register _ | var _ | addressOf _ => []

def allTransfers (symbols : SymbolTable) : List Expr → List Transfer
  | [] => []
  | e :: es => e.transfers symbols ++ allTransfers symbols es

end

theorem mem_allTransfers {es : List Expr} {x : Transfer} :
    x ∈ allTransfers symbols es ↔ ∃ e ∈ es, x ∈ e.transfers symbols := by
  induction es with
  | nil => simp [allTransfers]
  | cons e es ih => simp [allTransfers, ih]

/-- What is known beforehand hands nothing over. -/
theorem transfers_of_constant : ∀ {e : Expr} {v : Value}, e.constant? symbols = some v →
    e.transfers symbols = []
  | number _, _, _ => rfl
  | cast e _, _, h | unary _ e, _, h => by
    obtain ⟨_, he, -⟩ := Option.bind_eq_some_iff.1 h
    rw [transfers, transfers_of_constant he]
  | binary _ _ _, _, h => by
    obtain ⟨_, hl, h⟩ := Option.bind_eq_some_iff.1 h
    obtain ⟨_, hr, -⟩ := Option.bind_eq_some_iff.1 h
    rw [transfers, transfers_of_constant hl, transfers_of_constant hr, List.append_nil]
  | call target args, _, h => by
    rw [constant?] at h
    rw [transfers, h]
    unfold callConstant? at h
    split at h
    · rfl
    · cases h
  | register _, _, h | var _, _, h | element _ _, _, h | memory _, _, h | addressOf _, _, h
  | range .., _, h | structLiteral _, _, h => by cases h

theorem transfers_of_constantInt {e : Expr} {n : Int} (h : e.constantInt? symbols = some n) :
    e.transfers symbols = [] := by
  obtain ⟨v, hv, -⟩ := Option.bind_eq_some_iff.1 h
  exact transfers_of_constant hv

theorem transfers_of_fixedAddress {e : Expr} {address : UInt16}
    (h : e.fixedAddress? symbols = .ok (some address)) : e.transfers symbols = [] := by
  unfold fixedAddress? at h
  split at h
  next => cases h
  next v hv => exact transfers_of_constant hv

theorem operands_eq_map (es : List Expr) : operands symbols es = es.map (operand symbols) := by
  induction es with
  | nil => rfl
  | cons e es ih => rw [operands, ih, List.map_cons]

theorem passed_widen {asked : List (Option DataType)} {args : List Expr}
    (h : Passes symbols asked (operands symbols args)) : ∀ x ∈ passed symbols asked args, x.Widens := by
  intro x hx
  obtain ⟨⟨t?, arg⟩, hmem, hx⟩ := List.mem_filterMap.1 hx
  obtain ⟨t, rfl, rfl⟩ := Option.map_eq_some_iff.1 hx
  have hpair : (some t, arg.operand symbols) ∈ asked.zip (operands symbols args) := by
    rw [operands_eq_map, List.zip_map_right]
    exact List.mem_map.2 ⟨_, hmem, rfl⟩
  simpa only [expr_operand] using h.widens t _ hpair

/-- A call of a subroutine that has code. -/
theorem handed_widen_of_subroutine {target : String} {s : Signature} {args : List Expr} {code : Code}
    (hs : symbols.find? target = some (.subroutine s))
    (h : subroutineCall symbols s (operands symbols args) = .ok code) :
    (∀ x ∈ handed symbols target args, x.Widens) ∧
      ∀ o ∈ operands symbols args, o.IsEvaluated symbols := by
  have hpasses := subroutineCall_passes h
  have hasked : symbols.asked target = s.asked := by rw [SymbolTable.asked, hs]
  have hswaps : symbols.swaps target = false := by simp [SymbolTable.swaps, hs]
  refine ⟨fun x hx => ?_, hpasses.evaluated⟩
  rw [handed, hasked, hswaps] at hx
  exact passed_widen hpasses x (by simpa using hx)

/-- A call of a builtin that has code. -/
theorem handed_widen_of_builtin {target : String} {b : Builtin} {args : List Expr} {code : Code}
    (hn : symbols.find? target = none) (hb : Builtin.find? target = some b)
    (h : builtinCall symbols b (operands symbols args) = .ok code) :
    (∀ x ∈ handed symbols target args, x.Widens) ∧
      ∀ o ∈ operands symbols args, o.IsEvaluated symbols := by
  have hpasses := builtinCall_passes h
  have hasked : symbols.asked target = b.asked := by rw [SymbolTable.asked, hn, hb]; rfl
  refine ⟨fun x hx => ?_, hpasses.evaluated⟩
  rw [handed, hasked] at hx
  obtain hx | hx := List.mem_append.1 hx
  · exact passed_widen hpasses x hx
  · split at hx
    next hswaps =>
      have hswap : b.method = .swap := by simpa [SymbolTable.swaps, hn, hb] using hswaps
      simp only [builtinCall, hswap] at h
      obtain ⟨first, second, t, hargs, hfirst, hsecond, -⟩ := swapPlaces_ok h
      obtain ⟨e, e', rfl⟩ : ∃ e e', args = [e, e'] := by
        have hlen := congrArg List.length hargs
        rw [operands_eq_map, List.length_map] at hlen
        exact List.length_eq_two.1 hlen
      cases hargs
      rw [expr_operand] at hfirst hsecond
      rcases List.mem_pair.1 hx with rfl | rfl
      · exact ⟨t, t, hfirst, hsecond, t.isWiderThan_self⟩
      · exact ⟨t, t, hsecond, hfirst, t.isWiderThan_self⟩
    next => cases hx

mutual

/-- **What the code of an expression hands over is not wider than where it goes.** -/
theorem transfers_widen : ∀ {e : Expr} {code : Code}, e.code symbols = .ok code →
    ∀ x ∈ e.transfers symbols, x.Widens
  | number _, _, _ | register _, _, _ | var _, _, _ | addressOf _, _, _ => List.forall_mem_nil _
  | range .., _, h | structLiteral _, _, h => by cases h
  | unary op e, code, h => by
    simp only [Expr.code, operand, unaryCode, Lowered.bind_ok_iff] at h
    obtain ⟨_, -, _, -, c, hc, -⟩ := h
    rw [transfers]
    exact transfers_widen hc
  | cast e t, code, h => by
    simp only [Expr.code, operand, castCode, Lowered.bind_ok_iff] at h
    obtain ⟨_, -, _, -, c, hc, -⟩ := h
    rw [transfers]
    exact transfers_widen hc
  | binary left op right, code, h => by
    simp only [Expr.code, operand] at h
    intro x hx
    rw [transfers] at hx
    by_cases hop : ∀ s, op ≠ .shift s
    · obtain ⟨_, _, _, lc, _, rc, _, -, -, -, hlc, -, hrc, -⟩ := binaryCode_ok hop h
      exact (List.mem_append.1 hx).elim (transfers_widen hlc x) (transfers_widen hrc x)
    · -- The amount of a shift is a constant.
      obtain ⟨shift, rfl⟩ : ∃ s, op = .shift s := by simpa using hop
      obtain ⟨_, _, n, lc, -, -, hn, hlc, -⟩ := shiftCode_ok h
      obtain ⟨_, hamount, -⟩ := shiftAmount_ok hn
      rw [expr_operand] at hamount
      rw [transfers_of_constant hamount, List.append_nil] at hx
      exact transfers_widen hlc x hx
  | element array index, code, h => by
    simp only [Expr.code, operand, readElement, Lowered.bind_ok_iff] at h
    obtain ⟨_, -, _, -, c, hc, -⟩ := h
    rw [transfers]
    exact transfers_widen hc
  | memory address, code, h => by
    simp only [Expr.code, operand, readMemory, Lowered.bind_ok_iff] at h
    obtain ⟨_, haddress, h⟩ := h
    rw [transfers]
    split at h
    next =>
      rw [transfers_of_fixedAddress haddress]
      exact List.forall_mem_nil _
    next =>
      obtain ⟨c, hc, -⟩ := Lowered.bind_ok_iff.1 h
      exact transfers_widen hc
  | call target args, code, h => by
    simp only [Expr.code, operand, callCode, operands_expr] at h
    intro x hx
    cases hconstant : callConstant? symbols target args with
    | some v =>
      have hfolded : (call target args).constant? symbols = some v := hconstant
      rw [transfers_of_constant hfolded] at hx
      cases hx
    | none =>
      rw [transfers, hconstant] at hx
      simp only [hconstant] at h
      split at h
      next s hs =>
        obtain ⟨hown, hargs⟩ := handed_widen_of_subroutine hs h
        exact (List.mem_append.1 hx).elim (hown x) (allTransfers_widen hargs x)
      next => cases h
      next hn =>
        split at h
        next b hb =>
          obtain ⟨hown, hargs⟩ := handed_widen_of_builtin hn hb h
          exact (List.mem_append.1 hx).elim (hown x) (allTransfers_widen hargs x)
        next => cases h

theorem allTransfers_widen : ∀ {es : List Expr},
    (∀ o ∈ operands symbols es, o.IsEvaluated symbols) → ∀ x ∈ allTransfers symbols es, x.Widens
  | [], _ => List.forall_mem_nil _
  | e :: es, h => by
    intro x hx
    rcases List.mem_append.1 hx with hx | hx
    · rcases h _ List.mem_cons_self with ⟨c, hc⟩ | ⟨name, hname⟩ | hconstant
      · exact transfers_widen hc x hx
      · rw [expr_operand] at hname
        subst hname
        cases hx
      · obtain ⟨v, hv⟩ := Option.isSome_iff_exists.1 hconstant
        rw [expr_operand] at hv
        rw [transfers_of_constant hv] at hx
        cases hx
    · exact allTransfers_widen (fun o ho => h o (List.mem_cons_of_mem _ ho)) x hx

end

end Expr

end StackCode
