/-
The arguments of an ordinary call, from where each is stored to where the subroutine is
called. The variables of the parameters are the same for every call, so the code of a later
argument may store to one that has been filled already: if it calls the same subroutine, or
changes the variable in place. The argument is lost then, and it is kept in all other calls.
-/
import StackCode.Proofs.Storage.Stores

namespace StackCode

variable {symbols : SymbolTable} {s : Signature} {args : List Expr}

/-! ## Passing -/

/-- The code of an argument, with the value brought to the type of the parameter, and the store of it in
the variable of the parameter. -/
def Signature.Pass (symbols : SymbolTable) (s : Signature) (x : Parameter × Expr) (piece : Code) :
    Prop :=
  ∃ value size, (x.2.operand symbols).pushAs symbols x.1.type = .ok value ∧
    piece = value ++ [(Opcode.popVar size).named (s.slot x.1)]

/-- The argument for the parameter at a position is lost before the call: a later one is passed under the
same name, or its code stores to the variable of the parameter. -/
def Signature.Loses (symbols : SymbolTable) (s : Signature) (args : List Expr) (i : Nat)
    (p : Parameter) : Prop :=
  ∃ x ∈ (s.parameters.zip args).drop (i + 1), x.1.name = p.name ∨ s.slot p ∈ x.2.stores symbols

/-- The code of a call: its results are left on the stack, or they are dropped. -/
inductive SymbolTable.CallCode (symbols : SymbolTable) (target : String) (args : List Expr)
    (code : Code) : Prop where
  | value (unfolded : Expr.callConstant? symbols target args = none)
    (lowered : (Expr.call target args).code symbols = .ok code)
  | statement (lowered : callStatementCode symbols target args = .ok code)

theorem Signature.slot_inj {p q : Parameter} : s.slot p = s.slot q ↔ p.name = q.name := by
  simp [slot, String.append_right_inj]

theorem Signature.Pass.stores {x : Parameter × Expr} {piece : Code} (h : s.Pass symbols x piece) :
    storesOf piece = x.2.stores symbols ++ [s.slot x.1] := by
  obtain ⟨value, size, hvalue, rfl⟩ := h
  rw [storesOf_append, Expr.pushAs_stores hvalue, storesOf_named]
  rfl

theorem passParameter_pass {x : Parameter × Expr} {piece : Code}
    (h : passParameter symbols s x.1 (x.2.operand symbols) = .ok piece) : s.Pass symbols x piece := by
  simp only [passParameter, Lowered.bind_ok_iff, Lowered.pure_ok_iff, Opcode.popVarFor,
    orInvalid_ok_iff] at h
  obtain ⟨value, hvalue, op, hop, rfl⟩ := h
  obtain ⟨size, -, rfl⟩ := Option.map_eq_some_iff.1 hop
  exact ⟨value, size, hvalue, rfl⟩

theorem ordinaryCall_passes_each {code : Code}
    (h : ordinaryCall symbols s (Expr.operands symbols args) = .ok code) :
    args.length = s.parameters.length ∧
      ∃ pieces : List Code, List.Forall₂ (s.Pass symbols) (s.parameters.zip args) pieces ∧
        code = pieces.flatten ++ [Opcode.call.named s.name] := by
  simp only [ordinaryCall, Lowered.check_ok_iff, Lowered.bind_ok_iff, Lowered.pure_ok_iff, not_not] at h
  obtain ⟨hlen, pieces, hpieces, rfl⟩ := h
  rw [Expr.operands_eq_map] at hlen hpieces
  rw [List.zip_map_right, Lowered.mapM_ok_iff, List.forall₂_map_left_iff] at hpieces
  exact ⟨by simpa using hlen, pieces, hpieces.imp fun _ _ hx => passParameter_pass hx, rfl⟩

/-- Both forms of a call pass the arguments in the same way. -/
theorem SymbolTable.CallCode.passes_each {target : String} {code : Code}
    (hs : symbols.find? target = some (.subroutine s)) (hm : s.machine = none)
    (h : symbols.CallCode target args code) :
    args.length = s.parameters.length ∧ ∃ (pieces : List Code) (discards : List Opcode),
      List.Forall₂ (s.Pass symbols) (s.parameters.zip args) pieces ∧
        code = pieces.flatten ++ [Opcode.call.named s.name] ++ discards.map Opcode.plain := by
  cases h with
  | value unfolded lowered =>
    simp only [Expr.code, Expr.operand, callCode, Expr.operands_expr, unfolded, hs, subroutineCall,
      hm] at lowered
    obtain ⟨hlen, pieces, hpieces, rfl⟩ := ordinaryCall_passes_each lowered
    exact ⟨hlen, pieces, [], hpieces, (List.append_nil _).symm⟩
  | statement lowered =>
    simp only [callStatementCode, hs, subroutineCall, hm, Lowered.bind_ok_iff,
      Lowered.pure_ok_iff] at lowered
    obtain ⟨call, hcall, discards, -, rfl⟩ := lowered
    obtain ⟨hlen, pieces, hpieces, rfl⟩ := ordinaryCall_passes_each hcall
    exact ⟨hlen, pieces, discards, hpieces, rfl⟩

/-- Both forms of a call of a builtin without a result are the call itself. -/
theorem SymbolTable.CallCode.builtin {target : String} {b : Builtin} {code : Code}
    (hfree : symbols.find? target = none) (hb : Builtin.find? target = some b) (hresult : b.result = .nothing)
    (h : symbols.CallCode target args code) : builtinCall symbols b (Expr.operands symbols args) = .ok code := by
  cases h with
  | value unfolded lowered =>
    simpa only [Expr.code, Expr.operand, callCode, Expr.operands_expr, unfolded, hfree, hb] using lowered
  | statement lowered =>
    simp only [callStatementCode, hfree, hb, Lowered.bind_ok_iff, Lowered.pure_ok_iff, hresult,
      BuiltinResult.resolve, Option.mapM_none] at lowered
    obtain ⟨_, -, call, hcall, discards, rfl, rfl⟩ := lowered
    rw [hcall, Option.map_none, Option.toList_none, List.append_nil]

/-! ## Overwriting -/

/-- What the pieces store to, together. -/
theorem Signature.Pass.mem_stores {xs : List (Parameter × Expr)} {pieces : List Code} {p : Parameter}
    (h : List.Forall₂ (s.Pass symbols) xs pieces) : s.slot p ∈ storesOf pieces.flatten ↔
      ∃ x ∈ xs, x.1.name = p.name ∨ s.slot p ∈ x.2.stores symbols := by
  induction h with
  | nil => simp
  | @cons x piece xs pieces hx _ ih =>
    rw [List.flatten_cons, storesOf_append, List.mem_append, ih, hx.stores, List.mem_append,
      List.mem_singleton, slot_inj, List.exists_mem_cons_iff, eq_comm (a := p.name),
      or_comm (a := _ ∈ _)]

/-- **An argument of an ordinary call is overwritten before the call just if a later argument is passed
under the same name, or its code stores to the variable of the parameter.** The code of the call is the
passing of one argument after the other, and nothing else stands before the call itself. -/
theorem SymbolTable.overwrites_iff_loses {target : String} {code : Code}
    (hs : symbols.find? target = some (.subroutine s)) (hm : s.machine = none)
    (h : symbols.CallCode target args code) :
    args.length = s.parameters.length ∧ ∃ (pieces : List Code) (discards : List Opcode),
      List.Forall₂ (s.Pass symbols) (s.parameters.zip args) pieces ∧
      code = pieces.flatten ++ [Opcode.call.named s.name] ++ discards.map Opcode.plain ∧
      ∀ i p, s.parameters[i]? = some p →
        ((∃ instruction ∈ (pieces.drop (i + 1)).flatten, instruction.stored? = some (s.slot p)) ↔
          s.Loses symbols args i p) := by
  obtain ⟨hlen, pieces, discards, hpieces, hcode⟩ := h.passes_each hs hm
  refine ⟨hlen, pieces, discards, hpieces, hcode, fun i p _ => ?_⟩
  rw [← mem_storesOf]
  exact Signature.Pass.mem_stores (List.forall₂_drop (i + 1) hpieces)

/-- A subroutine that is called with the result of itself as the second argument. -/
def pairing : Signature where
  name := "main.pair"
  parameters := [⟨"low", .ubyte⟩, ⟨"high", .ubyte⟩]
  returnTypes := [.ubyte]
  machine := none

def pairingSymbols : SymbolTable := .ofDeclarations [.subroutine pairing true]

def nestedPair : List Expr :=
  [.number (.wrapped .ubyte 1),
    .call "main.pair" [.number (.wrapped .ubyte 2), .number (.wrapped .ubyte 3)]]

/-- The first argument is lost: the call inside the second one is passed its own first argument in the
same variable. -/
theorem nestedPair_loses : ∃ code pieces,
    callStatementCode pairingSymbols "main.pair" nestedPair = .ok code ∧
    List.Forall₂ (pairing.Pass pairingSymbols) (pairing.parameters.zip nestedPair) pieces ∧
    ∃ instruction ∈ (pieces.drop 1).flatten, instruction.stored? = some "main.pair.low" := by
  have hs : pairingSymbols.find? "main.pair" = some (.subroutine pairing) := by decide +kernel
  have hlowered : (callStatementCode pairingSymbols "main.pair" nestedPair).toBool := by decide +kernel
  cases h : callStatementCode pairingSymbols "main.pair" nestedPair with
  | error e => simp [h, Except.toBool] at hlowered
  | ok code =>
    obtain ⟨-, pieces, discards, hpieces, -, hloses⟩ :=
      SymbolTable.overwrites_iff_loses hs rfl (.statement h)
    refine ⟨code, pieces, rfl, hpieces, (hloses 0 ⟨"low", .ubyte⟩ rfl).2 ?_⟩
    exact ⟨(⟨"high", .ubyte⟩, nestedPair[1]), by simp [pairing, nestedPair], .inr (by decide +kernel)⟩

end StackCode
