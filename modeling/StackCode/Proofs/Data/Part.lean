/-
The small parts of a program tree are read back from the JSON values that they are written
as. A name tells the alternative that it was written for, since no other one has it, and a
member that is written is found under its name.
-/
import StackCode.Tree.Data.Node
import StackCode.Tree.Data.Part
import Mathlib.Data.Option.Basic

namespace StackCode

/-! ## Lists, options and names -/

namespace Json

variable {α : Type} {decode : Json → Option α} {encode : α → Json}

/-- What is read item by item is read as a list. -/
theorem listOf?_map {xs : List α} (h : ∀ x ∈ xs, decode (encode x) = some x) :
    listOf? decode (.arr (xs.map encode)) = some xs := by
  rw [listOf?]
  induction xs with
  | nil => rfl
  | cons x xs ih =>
    rw [List.map_cons, List.mapM_cons, h x List.mem_cons_self,
      ih fun y hy => h y (List.mem_cons_of_mem _ hy)]
    rfl

/-- What may be missing is read back, if nothing is written as `null` that is there. -/
theorem orNull?_ofOption {o : Option α} (h : ∀ a, decode (encode a) = some a)
    (hnull : ∀ a, encode a ≠ .null) : (ofOption encode o).orNull? decode = some o := by
  cases o with
  | none => rfl
  | some a =>
    rw [ofOption, orNull?, h]
    · rfl
    · exact hnull a

/-- A name tells the choice that it was written for. -/
theorem oneOf?_name {standing : Standing} {name : α → String} {choices : List α} {a : α}
    (hmem : a ∈ choices) (hinj : ∀ b ∈ choices, name b = name a → b = a) :
    (str (name a)).oneOf? standing name choices = some a := by
  have hfound : (choices.find? (name · == name a)).isSome :=
    List.find?_isSome.2 ⟨a, hmem, beq_self_eq_true (name a)⟩
  obtain ⟨b, hb⟩ := Option.isSome_iff_exists.1 hfound
  have hname : name b = name a := by simpa using List.find?_some hb
  rw [oneOf?, alternative?, Option.bind_some, hb,
    hinj b (List.mem_of_find?_eq_some hb) hname]

theorem str?_str (s : String) : (str s).str? = some s := rfl

theorem listOf?_str (xs : List String) : listOf? str? (.arr (xs.map str)) = some xs :=
  listOf?_map fun x _ => str?_str x

theorem natUpTo?_int {n hi : Nat} (h : n ≤ hi) : (int n).natUpTo? hi = some n := by
  rw [natUpTo?, intBetween?, if_pos ⟨Int.natCast_nonneg n, Int.ofNat_le.2 h⟩]
  rfl

theorem word?_ofWord (n : UInt16) : (ofWord n).word? = some n := by
  have hn : n.toNat ≤ 65535 := Nat.le_of_lt_succ n.toNat_lt
  rw [word?, ofWord, natUpTo?_int hn, Option.map_some, UInt16.ofNat_toNat]

theorem orNull?_word (o : Option UInt16) : (ofOption ofWord o).orNull? word? = some o :=
  orNull?_ofOption word?_ofWord fun _ h => by cases h

end Json

/-! ## Names of one kind -/

theorem Register.ofJson?_toJson (r : Register) : ofJson? r.toJson = some r := by
  cases r <;> rfl

theorem UnaryOp.ofJson?_symbol (op : UnaryOp) : ofJson? (.str op.symbol) = some op := by
  cases op <;> rfl

theorem BinaryOp.ofJson?_symbol (op : BinaryOp) : ofJson? (.str op.symbol) = some op := by
  rcases op with op | op | op | op <;> cases op <;> rfl

theorem Increment.ofJson?_symbol (op : Increment) : ofJson? (.str op.symbol) = some op := by
  cases op <;> rfl

theorem FlagCondition.ofJson?_name (c : FlagCondition) : ofJson? (.str c.name) = some c := by
  cases c <;> rfl

theorem DataType.mem_all (t : DataType) : t ∈ all := by
  rcases t with ((_ | _ | _ | _) | _) | _ | _ | ((_ | _ | _ | _) | _) | _ <;> decide

theorem DataType.key_inj : ∀ t ∈ all, ∀ u ∈ all, t.key = u.key → t = u := by decide +kernel

theorem DataType.ofJson?_toJson (standing : Json.Standing) (t : DataType) :
    ofJson? standing t.toJson = some t :=
  Json.oneOf?_name (mem_all t) fun u hu h => key_inj u hu t (mem_all t) h

/-! ## Values -/

theorem NumType.oneOf?_name (standing : Json.Standing) (t : NumType) :
    (Json.str t.name).oneOf? standing (·.name) all = some t := by
  rcases t with (_ | _ | _ | _) | _ <;> rfl

/-- **A value is read back as it is**: an integer within the range of its type, and a float bit by
bit. -/
theorem Value.ofJson?_toJson (standing : Json.Standing) (v : Value) :
    ofJson? standing v.toJson = some v := by
  cases v with
  | int t n inRange =>
    have htype := NumType.oneOf?_name standing (.int t)
    have hn : (Json.int n).intBetween? t.lo t.hi = some n := if_pos inRange
    have hvalue : ofInt n (.int t) = .ok (int t n inRange) := dif_pos inRange
    simp [ofJson?, toJson, Json.member?, List.lookup_cons, type, htype, hn, hvalue, Except.toOption]
  | float x =>
    have htype := NumType.oneOf?_name standing .float
    simp [ofJson?, toJson, Json.member?, List.lookup_cons, type, htype, Json.number?]

/-! ## Records and alternatives -/

theorem Storage.ofJson?_toJson (s : Storage) : ofJson? .inNode s.toJson = some s := by
  cases s with
  | plain | const => rfl
  | memory address =>
    rw [toJson, ofJson?, Json.word?_ofWord]
    rfl

theorem Position.ofJson?_toJson (p : Position) : ofJson? p.toJson = some p := by
  have hline : (Json.int p.line.toNat).natUpTo? 4294967295 = some p.line.toNat :=
    Json.natUpTo?_int (Nat.le_of_lt_succ p.line.toNat_lt)
  simp [ofJson?, toJson, Json.isObject, Json.defaulted?, Json.member?, List.lookup_cons, Json.str?, hline,
    guard]

theorem Carrier.ofJson?_toJson (c : Carrier) : ofJson? c.toJson = some c := by
  rcases c with r | p | f
  · cases r <;> rfl
  · cases p <;> rfl
  · cases f <;> rfl

theorem JumpTarget.ofJson?_toJson (t : JumpTarget) : ofJson? t.toJson = some t := by
  cases t with
  | address a =>
    rw [toJson, ofJson?, Json.word?_ofWord]
    rfl
  | named | generated => rfl

theorem DirectiveArg.ofJson?_toJson (a : DirectiveArg) : ofJson? a.toJson = some a := by
  cases a with
  | str s => rfl
  | int n =>
    have hn : (Json.int n.toInt).intBetween? Int64.minValue.toInt Int64.maxValue.toInt = some n.toInt :=
      if_pos ⟨n.minValue_le_toInt, n.toInt_le⟩
    rw [toJson, ofJson?, hn, Option.map_some, Int64.ofInt_toInt]
    nofun

/-- The members of an object that the parts of a variable stand among. -/
theorem VarDecl.ofJson?_parts (kind : String) (d : VarDecl) : ofJson? (.node kind d.parts) = some d := by
  simp [ofJson?, parts, Json.node, Json.required?, Json.defaulted?, Json.optional?, Json.position?,
    Json.member?, List.lookup_cons, Json.str?_str, DataType.ofJson?_toJson, Storage.ofJson?_toJson,
    Json.orNull?_word, Json.listOf?_str, Position.ofJson?_toJson]

theorem Parameter.ofJson?_toJson (p : Parameter) : ofJson? p.toJson = some p := by
  simp [ofJson?, toJson, Json.required?, Json.member?, List.lookup_cons, Json.str?_str,
    DataType.ofJson?_toJson]

theorem MachineConvention.ofJson?_toJson (m : MachineConvention) : ofJson? m.toJson = some m := by
  have hcarriers (cs : List Carrier) :
      Json.listOf? Carrier.ofJson? (.arr (cs.map Carrier.toJson)) = some cs :=
    Json.listOf?_map fun c _ => c.ofJson?_toJson
  have hregisters (rs : List Register) :
      Json.listOf? Register.ofJson? (.arr (rs.map Register.toJson)) = some rs :=
    Json.listOf?_map fun r _ => r.ofJson?_toJson
  simp [ofJson?, toJson, Json.isObject, guard, Json.optional?, Json.defaulted?, Json.member?, List.lookup_cons,
    Json.orNull?_word, hcarriers, hregisters]

/-- A signature stands among other members of its node. -/
theorem Signature.ofJson?_parts (kind : String) (s : Signature) (rest : List (String × Json)) :
    ofJson? (.node kind (s.parts ++ rest)) = some s := by
  have hparameters : Json.listOf? Parameter.ofJson? (.arr (s.parameters.map Parameter.toJson)) =
      some s.parameters :=
    Json.listOf?_map fun p _ => p.ofJson?_toJson
  have htypes : Json.listOf? (DataType.ofJson? .inNode) (.arr (s.returnTypes.map DataType.toJson)) =
      some s.returnTypes :=
    Json.listOf?_map fun t _ => t.ofJson?_toJson .inNode
  have hmachine : (Json.ofOption MachineConvention.toJson s.machine).orNull?
      MachineConvention.ofJson? = some s.machine :=
    Json.orNull?_ofOption MachineConvention.ofJson?_toJson fun _ h => by cases h
  simp [ofJson?, parts, Json.node, Json.required?, Json.defaulted?, Json.optional?, Json.member?,
    List.lookup_cons, Json.str?_str, hparameters, htypes, hmachine]

end StackCode
