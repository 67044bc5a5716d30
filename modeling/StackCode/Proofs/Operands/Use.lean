/-
What the values of operands are for. An operator, a parameter, a place or a test asks for
a type, and code comes out only if the operand has one that will do. An index and an
address are asked for nothing: the code for them is written as it is.
-/
import StackCode.Proofs.Widening.Transfer

namespace StackCode

/-! ## Consumers -/

def BinaryOp.isShift : BinaryOp → Bool
  | .shift _ => true
  | _ => false

theorem BinaryOp.isShift_iff {op : BinaryOp} : op.isShift ↔ ∃ s, op = .shift s := by
  cases op <;> simp [isShift]

theorem NumType.join_comm (t u : NumType) : t.join u = u.join t := by
  rcases t with (_ | _ | _ | _) | _ <;> rcases u with (_ | _ | _ | _) | _ <;> rfl

/-- What takes the value of an operand off the stack. -/
inductive Consumer where
  | unary (op : UnaryOp)
  | cast (target : DataType)
  /-- An operator that is no shift, with another operand of this type. -/
  | binary (op : BinaryOp) (other : Option DataType)
  | shift
  /-- A place, a parameter or a result of this type. -/
  | typed (type : Option DataType)
  /-- A pair of registers. -/
  | pair
  | builtin (p : BuiltinParam)
  /-- A place that changes its value with another one of this type. -/
  | exchange (other : Option DataType)
  /-- A jump on a condition, or a choice among values. -/
  | test
  /-- An access to an element, by its index. -/
  | element
  /-- An access to a byte of memory, by its address. -/
  | memory
deriving DecidableEq, Repr

namespace Consumer

/-- The consumer can do with a value of this type. An index is an integer, and an address a word. -/
def takes : Consumer → DataType → Bool
  | unary op, t => (Opcode.unaryFor op t).isOk
  | cast target, t => (t.castOpcode target).isOk
  | binary op other, t =>
    match t.num?, other.bind (·.num?) with
    | some a, some b => (Opcode.binary? op (a.join b)).isSome
    | _, _ => false
  | typed type, t => type.any fun u => t.isIterable && u = .uword || (t.widening u).isOk
  | pair, t => t = .ubyte || t.isWord || t.isIterable
  | builtin p, t => p.accepts t
  | exchange other, t => other = some t
  | shift, t | test, t | element, t => t.isInteger
  | memory, t => t.isWord

/-- Lowering looks at the type of what is consumed. -/
def isChecked : Consumer → Bool
  | element | memory => false
  | _ => true

end Consumer

/-! ## Uses -/

/-- An expression whose value is consumed. -/
structure Use where
  expr : Expr
  consumer : Consumer

variable {symbols : SymbolTable}

namespace Use

/-- The expression has a type, and one that the consumer can do with. -/
def isTaken (symbols : SymbolTable) (u : Use) : Bool := (u.expr.type? symbols).any u.consumer.takes

theorem isTaken_of_type? {e : Expr} {c : Consumer} {t : DataType} (ht : e.type? symbols = some t)
    (h : c.takes t) : (Use.mk e c).isTaken symbols := by
  rw [isTaken, ht]
  exact h

theorem isSome_of_isTaken {u : Use} (h : u.isTaken symbols) : (u.expr.type? symbols).isSome := by
  rw [isTaken] at h
  cases ht : u.expr.type? symbols with
  | none => simp [ht] at h
  | some t => rfl

/-- What lowering makes sure of. -/
structure IsAccepted (symbols : SymbolTable) (u : Use) : Prop where
  taken : u.consumer.isChecked → u.isTaken symbols
  /-- A variable that a builtin gets as a whole need not be read. -/
  lowered : (∃ code, u.expr.code symbols = .ok code) ∨ ∃ p name, u = ⟨.var name, .builtin p⟩

/-- For an index or an address it is enough that there is code for it. -/
theorem IsAccepted.unchecked {e : Expr} {c : Consumer} {code : Code} (hc : c.isChecked = false)
    (h : e.code symbols = .ok code) : (Use.mk e c).IsAccepted symbols where
  taken hchecked := by simp [hc] at hchecked
  lowered := .inl ⟨code, h⟩

theorem IsAccepted.of_type? {e : Expr} {c : Consumer} {t : DataType} {code : Code}
    (ht : e.type? symbols = some t) (htakes : c.takes t) (h : e.code symbols = .ok code) :
    (Use.mk e c).IsAccepted symbols where
  taken _ := isTaken_of_type? ht htakes
  lowered := .inl ⟨code, h⟩

end Use

theorem Lowered.isOk_of_eq {α : Type} {x : Lowered α} {a : α} (h : x = .ok a) : x.isOk := by
  rw [h]
  rfl

namespace Operand

variable {o : Operand} {t : DataType} {code : Code}

theorem pushAs_taken (h : o.pushAs symbols t = .ok code) :
    (∃ c, o.push = .ok c) ∧ (Use.mk o.expr (.typed (some t))).isTaken symbols := by
  simp only [pushAs, Lowered.bind_ok_iff, Expr.needType_ok_iff] at h
  obtain ⟨s, hs, c, hc, h⟩ := h
  refine ⟨⟨c, hc⟩, Use.isTaken_of_type? hs ?_⟩
  simp only [Consumer.takes, Option.any_some, Bool.or_eq_true]
  split at h
  next hi => exact .inl hi
  next =>
    obtain ⟨op, hop, -⟩ := Lowered.bind_ok_iff.1 h
    exact .inr (Lowered.isOk_of_eq hop)

theorem load_taken {r : Register} (h : o.load symbols r = .ok code) :
    (∃ c, o.push = .ok c) ∧ (Use.mk o.expr (.typed (some .ubyte))).isTaken symbols := by
  obtain ⟨c, hc, -⟩ := Lowered.bind_ok_iff.1 h
  exact pushAs_taken hc

/-- The argument is taken by its consumer. An argument without one is known beforehand. -/
def IsPassed (symbols : SymbolTable) : Option Consumer → Operand → Prop
  | some c, o => (Use.mk o.expr c).isTaken symbols ∧
    ((∃ code, o.push = .ok code) ∨ ∃ p name, c = .builtin p ∧ o.expr = .var name)
  | none, o => (o.expr.constant? symbols).isSome

theorem IsPassed.isAccepted {e : Expr} {c : Consumer}
    (h : (e.operand symbols).IsPassed symbols (some c)) : (Use.mk e c).IsAccepted symbols := by
  obtain ⟨htaken, hlowered⟩ := h
  rw [Expr.expr_operand] at htaken hlowered
  refine ⟨fun _ => htaken, hlowered.imp_right ?_⟩
  rintro ⟨p, name, rfl, rfl⟩
  exact ⟨p, name, rfl⟩

end Operand

/-! ## Arguments of calls -/

/-- The consumer of an argument. The carry flag has none: its value is noted. -/
def Carrier.consumer? : Carrier → Option Consumer
  | register _ => some (.typed (some .ubyte))
  | pair _ => some .pair
  | flag _ => none

def Signature.consumers (s : Signature) : List (Option Consumer) :=
  match s.machine with
  | some m => m.parameters.map (·.consumer?)
  | none => s.parameters.map fun p => some (.typed (some p.type))

/-- The consumers of arguments of these types. -/
def Builtin.consumers (b : Builtin) (types : List (Option DataType)) : List (Option Consumer) :=
  match b.method, types with
  | .swap, [first, second] => [some (.exchange second), some (.exchange first)]
  | _, _ => b.params.map fun p => some (.builtin p)

/-- The consumers of the arguments of a call. -/
def SymbolTable.consumers (symbols : SymbolTable) (target : String) (args : List Expr) :
    List (Option Consumer) :=
  match symbols.find? target with
  | some (.subroutine s) => s.consumers
  | some _ => []
  | none => ((Builtin.find? target).map (·.consumers (args.map (·.type? symbols)))).getD []

/-- Each argument is passed to a parameter of its own. -/
theorem passed_of_zip {α : Type} {params : List α} {consumer : α → Option Consumer}
    {args : List Operand} (hlen : args.length = params.length)
    (h : ∀ p arg, (p, arg) ∈ params.zip args → arg.IsPassed symbols (consumer p)) :
    List.Forall₂ (fun c o => Operand.IsPassed symbols c o) (params.map consumer) args := by
  rw [List.forall₂_map_left_iff, List.forall₂_iff_zip]
  exact ⟨hlen.symm, fun hmem => h _ _ hmem⟩

theorem ordinaryCall_passed {s : Signature} {args : List Operand} {code : Code}
    (h : ordinaryCall symbols s args = .ok code) :
    List.Forall₂ (fun c o => Operand.IsPassed symbols c o)
      (s.parameters.map fun p => some (.typed (some p.type))) args := by
  simp only [ordinaryCall, Lowered.check_ok_iff, Lowered.bind_ok_iff, not_not] at h
  obtain ⟨hlen, passed, hpassed, -⟩ := h
  refine passed_of_zip hlen fun p arg hmem => ?_
  obtain ⟨c, hc⟩ := Lowered.ok_of_mem_mapM hpassed hmem
  obtain ⟨_, hpush, -⟩ := Lowered.bind_ok_iff.1 hc
  obtain ⟨hcode, htaken⟩ := Operand.pushAs_taken hpush
  exact ⟨htaken, .inl hcode⟩

theorem passPair_taken {p : RegisterPair} {arg : Operand} {code : Code}
    (h : passPair symbols p arg = .ok code) :
    (∃ c, arg.push = .ok c) ∧ (Use.mk arg.expr .pair).isTaken symbols := by
  simp only [passPair, Lowered.bind_ok_iff, Expr.needType_ok_iff] at h
  obtain ⟨t, ht, h⟩ := h
  split at h
  next =>
    obtain ⟨c, hc, -⟩ := Lowered.bind_ok_iff.1 h
    exact ⟨(Operand.load_taken hc).1, Use.isTaken_of_type? ht rfl⟩
  next =>
    split at h
    next htype =>
      obtain ⟨c, hc, -⟩ := Lowered.bind_ok_iff.1 h
      refine ⟨⟨c, hc⟩, Use.isTaken_of_type? ht ?_⟩
      rw [Consumer.takes, Bool.or_assoc, htype, Bool.or_true]
    next => simp only [Lowered.throw_ok_iff] at h

theorem passCarrier_passed {c : Carrier} {arg : Operand} {r : Code × Option Bool}
    (h : passCarrier symbols c arg = .ok r) : arg.IsPassed symbols c.consumer? := by
  unfold passCarrier at h
  split at h
  · obtain ⟨_, hload, -⟩ := Lowered.bind_ok_iff.1 h
    obtain ⟨hcode, htaken⟩ := Operand.load_taken hload
    exact ⟨htaken, .inl hcode⟩
  · obtain ⟨_, hpair, -⟩ := Lowered.bind_ok_iff.1 h
    obtain ⟨hcode, htaken⟩ := passPair_taken hpair
    exact ⟨htaken, .inl hcode⟩
  · split at h
    next v hv =>
      rw [Carrier.consumer?, Operand.IsPassed, hv]
      rfl
    next => simp only [Lowered.throw_ok_iff] at h
  · simp only [Lowered.throw_ok_iff] at h

/-- **A call of a subroutine checks its arguments.** -/
theorem subroutineCall_passed {s : Signature} {args : List Operand} {code : Code}
    (h : subroutineCall symbols s args = .ok code) :
    List.Forall₂ (fun c o => Operand.IsPassed symbols c o) s.consumers args := by
  cases hm : s.machine with
  | none =>
    simp only [subroutineCall, hm] at h
    simpa only [Signature.consumers, hm] using ordinaryCall_passed h
  | some m =>
    simp only [subroutineCall, hm, machineCall, Lowered.check_ok_iff, Lowered.bind_ok_iff, not_not] at h
    obtain ⟨hlen, passed, hpassed, -⟩ := h
    simp only [Signature.consumers, hm]
    refine passed_of_zip hlen.symm fun c arg hmem => ?_
    obtain ⟨r, hr⟩ := Lowered.ok_of_mem_mapM hpassed hmem
    exact passCarrier_passed hr

/-- **A call of a builtin checks its arguments.** -/
theorem builtinCall_passed {b : Builtin} {args : List Operand} {code : Code}
    (h : builtinCall symbols b args = .ok code) :
    List.Forall₂ (fun c o => Operand.IsPassed symbols c o)
      (b.consumers (args.map (·.expr.type? symbols))) args := by
  unfold builtinCall at h
  split at h
  next hswap =>
    obtain ⟨first, second, t, rfl, ht, hu, hfirst, hsecond⟩ := swapPlaces_ok h
    simp only [Builtin.consumers, hswap, List.map_cons, List.map_nil, ht, hu]
    have htakes : (Consumer.exchange (some t)).takes t := by simp [Consumer.takes]
    exact .cons ⟨Use.isTaken_of_type? ht htakes, .inl hfirst⟩
      (.cons ⟨Use.isTaken_of_type? hu htakes, .inl hsecond⟩ .nil)
  next hswap =>
    obtain ⟨_, hcheck, hcall⟩ := Lowered.bind_ok_iff.1 h
    obtain ⟨hlen, haccepts⟩ := checkArguments_ok_iff.1 hcheck
    have hconsumers : b.consumers (args.map (·.expr.type? symbols)) =
        b.params.map fun p => some (.builtin p) := by
      unfold Builtin.consumers
      split
      next hmethod _ => exact absurd hmethod hswap
      next => rfl
    rw [hconsumers]
    refine passed_of_zip hlen fun p arg hmem => ?_
    obtain ⟨t, ht, hp⟩ := haccepts p arg hmem
    exact ⟨Use.isTaken_of_type? ht hp,
      (checkedCall_isUsed hlen hcall (List.of_mem_zip hmem).2).imp_right
        fun ⟨name, hname⟩ => ⟨p, name, rfl, hname⟩⟩

end StackCode
