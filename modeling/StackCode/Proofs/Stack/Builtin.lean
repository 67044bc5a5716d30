/-
The stack under the builtins. Each leaves the result that the table gives for the
type of its first argument, or nothing. The table is finite: what the ways to carry
out a builtin rely on is checked for every line of it.
-/
import StackCode.Proofs.Constant
import StackCode.Proofs.Stack.Call

namespace StackCode

variable {symbols : SymbolTable}

/-! ## The table -/

/-- The result does not depend on the arguments. -/
def BuiltinResult.isFixed : BuiltinResult → Bool
  | .nothing | .fixed _ => true
  | .sameAsArg | .elementOfArg | .sumOfArg => false

theorem BuiltinResult.slots_of_isFixed {r : BuiltinResult} (h : r.isFixed) (arg : Option DataType) :
    r.slots arg = r.slots none := by
  cases r <;> first | rfl | cases h

/-- The line of the table has what the way to carry out the builtin relies on. -/
def Builtin.isRegular (b : Builtin) : Bool :=
  match b.method with
  | .swap => b.result = .nothing
  | .length => b.params = [.iterable] && b.result = .fixed .ubyte
  | .reduction _ => b.params = [.array]
  | .average => b.params = [.array] && b.result = .fixed .float
  | .absolute => b.params = [.numeric] && b.result = .sameAsArg
  | .highByte => b.params = [.integer] && b.result = .fixed .ubyte
  | .shift _ => b.params = [.inPlace] && b.result = .nothing
  | .opcode op =>
    b.result.isFixed &&
      op.effect? = some { takes := (b.params.map (·.want)).reverse, gives := b.result.slots none }
  | .service => b.result.isFixed

theorem Builtin.isRegular_of_mem : ∀ b ∈ all, b.isRegular := by decide

/-- The sums that averages are made of. -/
def Builtin.sum : Builtin where
  name := "sum"
  params := [.array]
  result := .sumOfArg
  method := .reduction true

theorem Builtin.sum_mem : sum ∈ all := by decide

/-! ## Arguments -/

theorem checkArguments_ok_iff {b : Builtin} {args : List Operand} {u : Unit} :
    checkArguments symbols b args = .ok u ↔ args.length = b.params.length ∧
      ∀ p arg, (p, arg) ∈ b.params.zip args →
        ∃ t, arg.expr.type? symbols = some t ∧ p.accepts t := by
  simp only [checkArguments, Lowered.check_ok_iff, Lowered.forM_ok_iff, checkArgument,
    Lowered.bind_ok_iff, Expr.needType_ok_iff, Lowered.checked_iff, not_not, Prod.forall]
  refine and_congr Iff.rfl (forall_congr' fun p => forall_congr' fun arg => forall_congr' fun _ => ?_)
  simp

/-- What a parameter that asks for no type takes, the value of an accepted argument is. -/
theorem BuiltinParam.want_accepts {p : BuiltinParam} {t : DataType} (h : p.accepts t)
    (hp : ∀ u, p ≠ .exact u) : p.want.Accepts t.slot := by
  cases p with
  | exact u => exact absurd rfl (hp u)
  | array | iterable => cases t <;> first | rfl | cases h
  | _ => exact Want.accepts_any

theorem BuiltinParam.exact_accepts (t : DataType) : (exact t).want.Accepts t.slot := by
  cases t <;> first | rfl | exact Want.accepts_any

theorem pushArgument_runs {p : BuiltinParam} {arg : Operand} {t : DataType} {code : Code}
    (ha : arg.Sound symbols) (ht : arg.expr.type? symbols = some t) (hp : p.accepts t)
    (h : (match (p, arg) with
      | (.exact u, arg) => arg.pushAs symbols u
      | (_, arg) => arg.push) = .ok code) :
    ∃ slot, Runs symbols code [] [slot] ∧ p.want.Accepts slot := by
  cases p with
  | exact u => exact ⟨u.slot, ha.pushAs h, BuiltinParam.exact_accepts u⟩
  | _ => exact ⟨t.slot, ha.push ht h, BuiltinParam.want_accepts hp (by simp)⟩

theorem pushArguments_runs {params : List BuiltinParam} {args : List Operand} {code : Code}
    (ha : ∀ a ∈ args, a.Sound symbols) (hlen : args.length = params.length)
    (hacc : ∀ p arg, (p, arg) ∈ params.zip args → ∃ t, arg.expr.type? symbols = some t ∧ p.accepts t)
    (h : pushArguments symbols params args = .ok code) :
    ∃ slots, Runs symbols code [] slots.reverse ∧
      List.Forall₂ Want.Accepts (params.map (·.want)) slots := by
  simp only [pushArguments, Lowered.bind_ok_iff, Lowered.pure_ok_iff] at h
  obtain ⟨codes, hcodes, rfl⟩ := h
  induction params generalizing args codes with
  | nil =>
    rw [List.zip_nil_left, Lowered.mapM_ok_iff] at hcodes
    cases hcodes
    exact ⟨[], .nil, .nil⟩
  | cons p params ih =>
    cases args with
    | nil => cases hlen
    | cons arg args =>
      rw [List.zip_cons_cons, List.mapM_cons] at hcodes
      simp only [Lowered.bind_ok_iff, Lowered.pure_ok_iff] at hcodes
      obtain ⟨c, hc, codes, hcodes, rfl⟩ := hcodes
      obtain ⟨t, ht, hp⟩ := hacc p arg (by simp)
      obtain ⟨slot, hslot, hw⟩ := pushArgument_runs (ha arg List.mem_cons_self) ht hp hc
      obtain ⟨slots, hruns, hws⟩ := ih (fun a hm => ha a (List.mem_cons_of_mem _ hm))
        (Nat.succ.inj hlen) (fun p arg hm => hacc p arg (by simp [hm])) codes hcodes
      refine ⟨slot :: slots, ?_, .cons hw hws⟩
      rw [List.flatten_cons, List.reverse_cons]
      exact hslot.append (hruns.onto _)

/-! ## Services -/

/-- A service finds what it takes and leaves what it gives. -/
theorem serviceCall_runs {s : Service} {code : Code} {before : List Slot} (hs : s ∈ Service.all)
    (hw : List.Forall₂ Want.Accepts s.effect.takes before)
    (h : serviceCall s.function = .ok code) : Runs symbols code before s.effect.gives := by
  unfold serviceCall at h
  split at h <;> cases h
  next service hservice =>
    have heff := Service.effect?_number s hs
    simp only [Service.number?, hservice, Option.map_some, Option.bind_some] at heff
    have hn : IntType.ubyte.wrap service.number.toNat = service.number.toNat := by
      have hlt := service.number.toNat_lt
      exact IntType.wrap_eq_self ⟨Int.natCast_nonneg _, Int.ofNat_le.2 (Nat.le_of_lt_succ hlt)⟩
    have hcall : (Opcode.syscall.given (.wrapped .ubyte service.number.toNat)).effect? symbols =
        some s.effect := by
      simp only [Instruction.effect?, Opcode.given, Value.wrapped, hn, Option.bind_some, Value.int?,
        Int.toNat_natCast, UInt8.ofNat_toNat, heff]
    exact .of_effect hcall hw

theorem pushLength_runs {length : UInt16} {code : Code} (h : pushLength length = .ok code) :
    Runs symbols code [] [.sized .byte] := by
  unfold pushLength at h
  split at h <;> cases h
  next v hv =>
    have hpush : Runs symbols v.push [] _ := .push v
    rwa [Value.type_of_ofInt hv] at hpush

/-! ## Arrays -/

theorem declaredArray_ok {e : Expr} {t : DataType} {length : UInt16}
    (h : declaredArray symbols e = .ok (t, length)) : e.type? symbols = some t := by
  unfold declaredArray at h
  split at h
  · simp only [Lowered.bind_ok_iff, SymbolTable.needVar_ok_iff] at h
    obtain ⟨info, hinfo, h⟩ := h
    split at h
    · cases h
      simp [Expr.type?, hinfo]
    · simp only [Lowered.throw_ok_iff] at h
  · simp only [Lowered.throw_ok_iff] at h

/-- A reduction gets the address and the length, and the service that fits the elements. -/
theorem reduction_runs {b : Builtin} {byType : Bool} {arg : Operand} {element : NumType} {code : Code}
    (hb : b ∈ Builtin.all) (hm : b.method = .reduction byType) (ha : arg.Sound symbols)
    (ht : arg.expr.type? symbols = some (.array element))
    (h : reduction symbols b.name byType arg = .ok code) :
    Runs symbols code [] (b.result.slots (some (.array element))) := by
  simp only [reduction, Lowered.bind_ok_iff, Lowered.pure_ok_iff, orInvalid_ok_iff, Prod.exists] at h
  obtain ⟨t, length, hdecl, e, he, c, hc, n, hn, s, hs, rfl⟩ := h
  have hdecl := declaredArray_ok hdecl
  rw [ht, Option.some.injEq] at hdecl
  subst hdecl
  cases he
  -- The service is one of those that come with the builtin.
  let service : Service :=
    { function := b.name ++ "_" ++ if byType then element.suffix else element.size.suffix,
      effect := { takes := [.size .byte, .size .word],
                  gives := b.result.slots (some (.array element)) } }
  have hmem : service ∈ b.services := by
    simp only [Builtin.services, hm]
    exact List.mem_map.2 ⟨element, by rcases element with (_ | _ | _ | _) | _ <;> decide, rfl⟩
  have hcall : Runs symbols s [.sized .byte, .sized .word] service.effect.gives :=
    serviceCall_runs (Service.mem_all hb hmem) (.cons rfl (.cons rfl .nil)) hs
  exact ((ha.push ht hc).append ((pushLength_runs hn).onto _)).append hcall

theorem average_runs {arg : Operand} {code : Code} {element : NumType} (ha : arg.Sound symbols)
    (ht : arg.expr.type? symbols = some (.array element)) (h : average symbols arg = .ok code) :
    Runs symbols code [] [.sized .float] := by
  simp only [average, Lowered.bind_ok_iff, Lowered.pure_ok_iff, Prod.exists] at h
  obtain ⟨t, length, hdecl, sum, hsum, rfl⟩ := h
  have hdecl := declaredArray_ok hdecl
  rw [ht, Option.some.injEq] at hdecl
  subst hdecl
  have hrun := reduction_runs Builtin.sum_mem rfl ha ht hsum
  have hcast : Runs symbols ((Opcode.cast? element.sum .float).map Opcode.plain).toList
      [.sized element.sum.size] [.sized .float] := Runs.cast? _ _
  exact ((hrun.append hcast).append ((Runs.push _).onto _)).append (.of_merge rfl)

theorem elementCount_runs {arg : Operand} {code : Code} (ha : arg.Sound symbols)
    (h : elementCount symbols arg = .ok code) : Runs symbols code [] [.sized .byte] := by
  simp only [elementCount, Lowered.bind_ok_iff, Expr.needType_ok_iff] at h
  obtain ⟨t, ht, h⟩ := h
  split at h
  next hstr =>
    simp only [Lowered.bind_ok_iff, Lowered.pure_ok_iff] at h
    obtain ⟨c, hc, s, hs, rfl⟩ := h
    have hslot : t.slot = .sized .word := by
      cases t <;> first | rfl | cases hstr
    have hpush := ha.push ht hc
    rw [hslot] at hpush
    let service : Service :=
      { function := "len_str", effect := { takes := [.size .word], gives := [.sized .byte] } }
    have hmem : service ∈ Service.all :=
      Service.mem_all (b := ⟨"len", [.iterable], .fixed .ubyte, .length⟩) (by decide)
        List.mem_cons_self
    exact hpush.append (serviceCall_runs hmem (.cons rfl .nil) hs)
  next =>
    simp only [Lowered.bind_ok_iff] at h
    obtain ⟨⟨t', length⟩, -, h⟩ := h
    exact pushLength_runs h

/-! ## Numbers and places -/

theorem absolute_runs {arg : Operand} {code : Code} (ha : arg.Sound symbols)
    (h : absolute symbols arg = .ok code) :
    ∃ t, arg.expr.type? symbols = some t ∧ Runs symbols code [] [t.slot] := by
  simp only [absolute, Lowered.bind_ok_iff, Lowered.pure_ok_iff, Expr.needType_ok_iff] at h
  obtain ⟨t, ht, c, hc, rfl⟩ := h
  refine ⟨t, ht, (ha.push ht hc).append ?_⟩
  cases t with
  | num n =>
    simp only [DataType.num?, Option.bind_some]
    split
    · exact .of_turn rfl
    · exact .nil
  | _ => exact .nil

theorem highByte_runs {arg : Operand} {code : Code} (ha : arg.Sound symbols)
    (h : highByte symbols arg = .ok code) : Runs symbols code [] [.sized .byte] := by
  simp only [highByte, Lowered.bind_ok_iff, Lowered.pure_ok_iff, Expr.needType_ok_iff] at h
  obtain ⟨t, -, c, hc, rfl⟩ := h
  have hpush := ha.pushAs hc
  have hslot : (DataType.int (.of .word t.isSigned)).slot = .sized .word := by
    cases t.isSigned <;> rfl
  rw [hslot] at hpush
  exact hpush.append (.of_turn rfl)

theorem Opcode.inPlaceFor_runs {shift : InPlaceShift} {t : DataType} {op : Opcode}
    (h : Opcode.inPlaceFor shift t = .ok op) : Runs symbols [op.plain] [t.slot] [t.slot] := by
  rw [inPlaceFor, orInvalid_ok_iff] at h
  obtain ⟨n, hn, rfl⟩ := Option.map_eq_some_iff.1 h
  have ht : t.slot = .sized (.int n.size) := by
    rcases t with (m | _) | _ | _ | _ | _ <;> cases hn
    rfl
  rw [ht]
  cases shift <;> exact .of_turn rfl

theorem shiftInPlace_runs {name : String} {shift : InPlaceShift} {arg : Operand} {code : Code}
    (ha : arg.Sound symbols) (h : shiftInPlace symbols name shift arg = .ok code) :
    Runs symbols code [] [] := by
  unfold shiftInPlace at h
  split at h
  next => simp only [Lowered.throw_ok_iff] at h
  next p hp =>
    simp only [Lowered.bind_ok_iff, Lowered.pure_ok_iff, Expr.needType_ok_iff] at h
    obtain ⟨t, ht, op, hop, c, hc, w, hw, rfl⟩ := h
    have hwrite := Place.write_runs ((Place.type?_of_ofExpr? hp).trans ht) (ha.inner hp) hw
    exact ((ha.push ht hc).append (Opcode.inPlaceFor_runs hop)).append hwrite

/-- Both values are read before one is written. They are of one type, so it does not matter for the
stack which one goes where. -/
theorem swapPlaces_runs {args : List Operand} {code : Code} (ha : ∀ a ∈ args, a.Sound symbols)
    (h : swapPlaces symbols args = .ok code) : Runs symbols code [] [] := by
  unfold swapPlaces at h
  split at h
  next first second =>
    have hfirst := ha first (by simp)
    have hsecond := ha second (by simp)
    simp only [Lowered.check_ok_iff, Lowered.bind_ok_iff, Expr.needType_ok_iff] at h
    obtain ⟨-, -, t, ht, u, hu, htu, -, h⟩ := h
    obtain rfl := not_not.1 htu
    split at h
    next p q hp hq =>
      simp only [Lowered.bind_ok_iff, Lowered.pure_ok_iff] at h
      obtain ⟨c, hc, d, hd, v, hv, w, hw, rfl⟩ := h
      have hv' := Place.write_runs ((Place.type?_of_ofExpr? hp).trans ht) (hfirst.inner hp) hv
      have hw' := Place.write_runs ((Place.type?_of_ofExpr? hq).trans hu) (hsecond.inner hq) hw
      exact (((hfirst.push ht hc).append ((hsecond.push hu hd).onto _)).append
        (hv'.frame _)).append hw'
    next => simp only [Lowered.throw_ok_iff] at h
  next => cases h

/-! ## The call -/

/-- What a reduction takes is an array. -/
theorem array_of_accepts {arg : Operand}
    (h : ∀ p a, (p, a) ∈ [BuiltinParam.array].zip [arg] →
      ∃ t, a.expr.type? symbols = some t ∧ p.accepts t) :
    ∃ element, arg.expr.type? symbols = some (.array element) := by
  obtain ⟨t, ht, hacc⟩ := h .array arg (by simp)
  cases t with
  | array element => exact ⟨element, ht⟩
  | _ => cases hacc

/-- What takes one parameter was called with one argument. -/
theorem single_of_length {α β : Type} {args : List α} {params : List β} {p : β}
    (hlen : args.length = params.length) (hp : params = [p]) : ∃ arg, args = [arg] :=
  List.length_eq_one_iff.1 (by rw [hlen, hp, List.length_singleton])

theorem checkedCall_runs {b : Builtin} {args : List Operand} {code : Code} (hb : b ∈ Builtin.all)
    (hswap : b.method ≠ .swap) (ha : ∀ a ∈ args, a.Sound symbols)
    (hlen : args.length = b.params.length)
    (hacc : ∀ p a, (p, a) ∈ b.params.zip args → ∃ t, a.expr.type? symbols = some t ∧ p.accepts t)
    (h : checkedCall symbols b args = .ok code) :
    Runs symbols code [] (b.result.slots (args.head?.bind (·.expr.type? symbols))) := by
  have hreg := Builtin.isRegular_of_mem b hb
  cases hm : b.method with
  | swap => exact absurd hm hswap
  | length =>
    simp only [Builtin.isRegular, hm, Bool.and_eq_true, decide_eq_true_eq] at hreg
    obtain ⟨arg, rfl⟩ := single_of_length hlen hreg.1
    simp only [checkedCall, hm] at h
    rw [hreg.2]
    exact elementCount_runs (ha arg List.mem_cons_self) h
  | reduction byType =>
    simp only [Builtin.isRegular, hm, decide_eq_true_eq] at hreg
    obtain ⟨arg, rfl⟩ := single_of_length hlen hreg
    obtain ⟨element, ht⟩ := array_of_accepts (hreg ▸ hacc)
    simp only [checkedCall, hm] at h
    simp only [List.head?_cons, Option.bind_some, ht]
    exact reduction_runs hb hm (ha arg List.mem_cons_self) ht h
  | average =>
    simp only [Builtin.isRegular, hm, Bool.and_eq_true, decide_eq_true_eq] at hreg
    obtain ⟨arg, rfl⟩ := single_of_length hlen hreg.1
    obtain ⟨element, ht⟩ := array_of_accepts (hreg.1 ▸ hacc)
    simp only [checkedCall, hm] at h
    rw [hreg.2]
    exact average_runs (ha arg List.mem_cons_self) ht h
  | absolute =>
    simp only [Builtin.isRegular, hm, Bool.and_eq_true, decide_eq_true_eq] at hreg
    obtain ⟨arg, rfl⟩ := single_of_length hlen hreg.1
    simp only [checkedCall, hm] at h
    obtain ⟨t, ht, hruns⟩ := absolute_runs (ha arg List.mem_cons_self) h
    simp only [hreg.2, List.head?_cons, Option.bind_some, ht]
    exact hruns
  | highByte =>
    simp only [Builtin.isRegular, hm, Bool.and_eq_true, decide_eq_true_eq] at hreg
    obtain ⟨arg, rfl⟩ := single_of_length hlen hreg.1
    simp only [checkedCall, hm] at h
    rw [hreg.2]
    exact highByte_runs (ha arg List.mem_cons_self) h
  | shift shift =>
    simp only [Builtin.isRegular, hm, Bool.and_eq_true, decide_eq_true_eq] at hreg
    obtain ⟨arg, rfl⟩ := single_of_length hlen hreg.1
    simp only [checkedCall, hm] at h
    rw [hreg.2]
    exact shiftInPlace_runs (ha arg List.mem_cons_self) h
  | opcode op =>
    simp only [Builtin.isRegular, hm, Bool.and_eq_true, decide_eq_true_eq] at hreg
    simp only [checkedCall, hm, Lowered.bind_ok_iff, Lowered.pure_ok_iff] at h
    obtain ⟨c, hc, rfl⟩ := h
    obtain ⟨slots, hruns, hw⟩ := pushArguments_runs ha hlen hacc hc
    rw [BuiltinResult.slots_of_isFixed hreg.1]
    exact hruns.append (.of_opcode hreg.2 (List.rel_reverse hw))
  | service =>
    simp only [Builtin.isRegular, hm] at hreg
    simp only [checkedCall, hm, Lowered.bind_ok_iff, Lowered.pure_ok_iff] at h
    obtain ⟨c, hc, s, hs, rfl⟩ := h
    obtain ⟨slots, hruns, hw⟩ := pushArguments_runs ha hlen hacc hc
    let service : Service :=
      { function := b.name,
        effect := { takes := (b.params.map (·.want)).reverse, gives := b.result.slots none } }
    have hmem : service ∈ b.services := by
      simp only [Builtin.services, hm]
      exact List.mem_cons_self
    rw [BuiltinResult.slots_of_isFixed hreg]
    exact hruns.append (serviceCall_runs (Service.mem_all hb hmem) (List.rel_reverse hw) hs)

/-- **A builtin leaves the result that the table gives** for the type of its first argument. -/
theorem builtinCall_runs {b : Builtin} {args : List Operand} {code : Code} (hb : b ∈ Builtin.all)
    (ha : ∀ a ∈ args, a.Sound symbols) (h : builtinCall symbols b args = .ok code) :
    Runs symbols code [] (b.result.slots (args.head?.bind (·.expr.type? symbols))) := by
  unfold builtinCall at h
  split at h
  next hm =>
    have hreg := Builtin.isRegular_of_mem b hb
    simp only [Builtin.isRegular, hm, decide_eq_true_eq] at hreg
    rw [hreg]
    exact swapPlaces_runs ha h
  next hm =>
    simp only [Lowered.bind_ok_iff, checkArguments_ok_iff] at h
    obtain ⟨-, ⟨hlen, hacc⟩, h⟩ := h
    exact checkedCall_runs hb hm ha hlen hacc h

end StackCode
