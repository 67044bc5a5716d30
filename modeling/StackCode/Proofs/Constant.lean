/-
The type of a constant is the type of the value that it is folded to: the two
recursions over expressions agree wherever there is a value.
-/
import StackCode.Proofs.Lowered

namespace StackCode

namespace Value

theorem type_of_ofInt {n : Int} {t : DataType} {v : Value} (h : ofInt n t = .ok v) :
    DataType.num v.type = t := by
  unfold ofInt at h
  split at h
  · split at h
    · cases h
      rfl
    · cases h
  · cases h
    rfl
  · cases h

theorem type_of_ofFloat {x : Float} {t : DataType} {v : Value} (h : ofFloat x t = .ok v) :
    DataType.num v.type = t := by
  unfold ofFloat at h
  split at h
  · cases h
    rfl
  · split at h
    · exact type_of_ofInt h
    · cases h

theorem type_of_cast {v w : Value} {t : DataType} (h : v.cast t = .ok w) :
    DataType.num w.type = t := by
  unfold cast at h
  split at h
  · cases h
    rfl
  · cases h
    rfl
  · exact type_of_ofFloat h

theorem type_of_toOption_cast {v w : Value} {t : DataType} (h : (v.cast t).toOption = some w) :
    DataType.num w.type = t := by
  cases hc : v.cast t with
  | error => simp [hc, Except.toOption] at h
  | ok u =>
    simp only [hc, Except.toOption, Option.some.injEq] at h
    exact h ▸ type_of_cast hc

end Value

theorem UnaryOp.type_of_fold? {op : UnaryOp} {v w : Value} (h : op.fold? v = some w) :
    w.type = v.type := by
  cases op <;> cases v <;> simp [fold?] at h
  case minus.int => exact h.2 ▸ rfl
  all_goals exact h ▸ rfl

theorem Arithmetic.type_of_fold? {op : Arithmetic} {v w u : Value} (h : op.fold? v w = some u) :
    u.type = v.type.join w.type := by
  cases v <;> cases w <;> simp [fold?] at h <;> obtain ⟨_, _, rfl⟩ := h <;> rfl

theorem Shift.type_of_fold? {op : Shift} {v w u : Value} (h : op.fold? v w = some u) :
    u.type = v.type := by
  cases v <;> cases w <;> simp [fold?] at h
  exact h.2 ▸ rfl

theorem BinaryOp.resultType?_of_fold? {op : BinaryOp} {v w u : Value} (h : op.fold? v w = some u) :
    op.resultType? (.num v.type) (.num w.type) = some (.num u.type) := by
  cases op with
  | arithmetic op => simp [resultType?, DataType.num?, Arithmetic.type_of_fold? h]
  | connective op =>
    cases h
    rfl
  | comparison op =>
    cases h
    rfl
  | shift op => simp [resultType?, Shift.type_of_fold? h]

/-- A constant has the type of its value. -/
theorem Expr.type?_of_constant? {symbols : SymbolTable} : ∀ {e : Expr} {v : Value},
    e.constant? symbols = some v → e.type? symbols = some (.num v.type)
  | .number _, _, h => by
    cases h
    rfl
  | .cast e t, v, h => by
    simp only [constant?, Option.bind_eq_bind, Option.bind_eq_some_iff] at h
    obtain ⟨w, -, h⟩ := h
    rw [type?, Value.type_of_toOption_cast h]
  | .unary op e, v, h => by
    simp only [constant?, Option.bind_eq_bind, Option.bind_eq_some_iff] at h
    obtain ⟨w, hw, h⟩ := h
    rw [type?, type?_of_constant? hw, UnaryOp.type_of_fold? h]
  | .binary left op right, v, h => by
    simp only [constant?, Option.bind_eq_bind, Option.bind_eq_some_iff] at h
    obtain ⟨w, hw, u, hu, h⟩ := h
    simp only [type?, type?_of_constant? hw, type?_of_constant? hu, Option.bind_eq_bind,
      Option.bind_some]
    exact BinaryOp.resultType?_of_fold? h
  | .call target [], v, h => by simp [constant?, callConstant?] at h
  | .call target (arg :: rest), v, h => by
    rw [constant?] at h
    simp only [type?, h]
  | .register _, _, h | .var _, _, h | .element _ _, _, h | .memory _, _, h | .addressOf _, _, h
  | .range _ _ _, _, h | .structLiteral _, _, h => by simp [constant?] at h

/-- **Inference and folding agree on types**: whatever the names stand for, an expression that is folded
to a value has a type, which is that of the value. -/
theorem Expr.inference_agrees_with_folding (symbols : SymbolTable) (e : Expr) :
    ∀ v ∈ e.constant? symbols, e.type? symbols = some (.num v.type) :=
  fun _ => type?_of_constant?

/-- A byte as a word, and the length of an array, which takes a word. -/
def sampleLength : Expr :=
  .binary (.cast (.unary .minus (.number (.wrapped .byte 3))) .word) (.arithmetic .add)
    (.call "len" [.var "main.buffer"])

theorem sampleLength_is_word :
    let symbols := .ofDeclarations [.var ⟨"main.buffer", .array (.int .ubyte), .plain, some 300, [], {}⟩]
    sampleLength.constant? symbols = some (.wrapped .word 297) ∧
      sampleLength.type? symbols = some .word := by
  intro symbols
  have hvalue : sampleLength.constant? symbols = some (.wrapped .word 297) := by decide +kernel
  exact ⟨hvalue, sampleLength.inference_agrees_with_folding symbols _ hvalue⟩

end StackCode
