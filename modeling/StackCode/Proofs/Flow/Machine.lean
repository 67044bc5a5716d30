/-
The machine that carries out a text. It goes from one piece to the next, and a jump
makes it go on behind the label in the whole text. If there is no such label, it leaves
the text, and so it does at its end.

Of the operand stack it knows the conditions that have been evaluated and not looked at
yet. Jumps leave the status flags alone.
-/
import StackCode.Proofs.Flow.Structured
import Mathlib.Logic.Relation

namespace StackCode

/-! ## The machine -/

inductive State where
  /-- With this text in front, this done, and these values on the stack, the top first: each is zero
  or not. -/
  | runs (rest : List Piece) (trace : Trace) (values : List Bool)
  | left (trace : Trace) (ending : Ending)

def State.trace : State → Trace
  | runs _ trace _ | left trace _ => trace

/-- The text behind a label. -/
def behind? (name : String) : List Piece → Option (List Piece)
  | [] => none
  | .entry (.label l _) :: rest => if l = name then some rest else behind? name rest
  | _ :: rest => behind? name rest

/-- Goes on at a goal. -/
def State.at (text : List Piece) (trace : Trace) (values : List Bool) : Goal → State
  | .label name =>
    match behind? name text with
    | some rest => .runs rest trace values
    | none => .left trace (.goes (.label name))
  | .address a => .left trace (.goes (.address a))

def Instruction.goal? (i : Instruction) : Option Goal :=
  match i.label with
  | some name => some (.label name)
  | none => i.arg.map .address

/-- The value that an action leaves for a jump to look at. -/
def Action.leaves (o : Oracle) (trace : Trace) : Action → List Bool
  | evaluate _ => [o.isZero trace]
  | _ => []

/-- A jump that is taken or not. -/
def jumpIf (text : List Piece) (taken : Bool) (i : Instruction) (rest : List Piece) (trace : Trace)
    (values : List Bool) : Option State :=
  if taken then i.goal?.map (State.at text trace values) else some (.runs rest trace values)

def instruction? (o : Oracle) (text : List Piece) (i : Instruction) (rest : List Piece) (trace : Trace)
    (values : List Bool) : Option State :=
  match i.opcode, values with
  | .nop, values => some (.runs rest trace values)
  | .jump, values => jumpIf text true i rest trace values
  | .branch test, values => jumpIf text (test.holds (o.flag trace)) i rest trace values
  | .jumpZero _, isZero :: values => jumpIf text isZero i rest trace values
  | .jumpNonzero _, isZero :: values => jumpIf text (!isZero) i rest trace values
  | _, _ => none

/-- One step of the machine. -/
def step? (o : Oracle) (text : List Piece) : State → Option State
  | .left .. => none
  | .runs [] trace _ => some (.left trace .falls)
  | .runs (.code a _ :: rest) trace values =>
    some (.runs rest (trace ++ [a]) (a.leaves o (trace ++ [a]) ++ values))
  | .runs (.entry (.label ..) :: rest) trace values => some (.runs rest trace values)
  | .runs (.entry (.instruction i) :: rest) trace values => instruction? o text i rest trace values

/-- The machine comes from one state to the other. -/
abbrev Steps (o : Oracle) (text : List Piece) : State → State → Prop :=
  Relation.ReflTransGen fun s s' => step? o text s = some s'

/-- From the start of the text the machine comes to the end of the trace, if not further. -/
def Performs (o : Oracle) (text : List Piece) (trace : Trace) : Prop :=
  ∃ s, Steps o text (.runs text [] []) s ∧ s.trace = trace

/-- From the start of the text the machine leaves it, with this trace. -/
def Ends (o : Oracle) (text : List Piece) (trace : Trace) (ending : Ending) : Prop :=
  Steps o text (.runs text [] []) (.left trace ending)

/-! ## What one step does -/

variable {o : Oracle} {text : List Piece} {s s' s'' : State}

theorem State.at_trace {trace : Trace} {values : List Bool} {g : Goal} :
    (State.at text trace values g).trace = trace := by
  unfold State.at
  split
  · split <;> rfl
  · rfl

theorem jumpIf_trace {taken : Bool} {i : Instruction} {rest : List Piece} {trace : Trace}
    {values : List Bool} (h : jumpIf text taken i rest trace values = some s) : s.trace = trace := by
  unfold jumpIf at h
  split at h
  · obtain ⟨g, -, rfl⟩ := Option.map_eq_some_iff.1 h
    exact State.at_trace
  · cases h
    rfl

/-- A step does one action at most. -/
theorem step?_trace (h : step? o text s = some s') :
    s'.trace = s.trace ∨ ∃ a, s'.trace = s.trace ++ [a] := by
  unfold step? at h
  split at h
  · cases h
  · cases h
    exact .inl rfl
  · cases h
    exact .inr ⟨_, rfl⟩
  · cases h
    exact .inl rfl
  · unfold instruction? at h
    split at h
    · cases h
      exact .inl rfl
    all_goals first
      | exact .inl (jumpIf_trace h)
      | cases h

/-! ## Runs of the machine -/

namespace Steps

theorem one (h : step? o text s = some s') : Steps o text s s' := .single h

/-- The machine knows what to do: of two runs from one state one goes on where the other ended. -/
theorem total (h : Steps o text s s') (h' : Steps o text s s'') :
    Steps o text s' s'' ∨ Steps o text s'' s' :=
  Relation.ReflTransGen.total_of_right_unique
    (fun _ _ _ hb hc => Option.some.inj (hb.symm.trans hc)) h h'

theorem trace_grows (h : Steps o text s s') : s.trace <+: s'.trace := by
  induction h with
  | refl => exact List.prefix_rfl
  | tail _ hstep ih =>
    rcases step?_trace hstep with heq | ⟨a, heq⟩
    · rwa [heq]
    · exact heq ▸ ih.trans (List.prefix_append _ _)

/-- What has done more comes later. -/
theorem of_longer (h : Steps o text s s') (h' : Steps o text s s'')
    (hlt : s'.trace.length < s''.trace.length) : Steps o text s' s'' :=
  (h.total h').resolve_right fun hback => Nat.not_le.2 hlt hback.trace_grows.length_le

/-- On its way the machine comes by each part of the trace. -/
theorem exists_of_prefix {trace : Trace} (h : Steps o text s s') (hs : s.trace <+: trace)
    (hs' : trace <+: s'.trace) : ∃ mid, Steps o text s mid ∧ mid.trace = trace := by
  induction h with
  | refl => exact ⟨s, .refl, List.IsPrefix.eq_of_length hs (Nat.le_antisymm hs.length_le hs'.length_le)⟩
  | @tail mid last hmid hstep ih =>
    rcases step?_trace hstep with heq | ⟨a, heq⟩
    · exact ih (heq ▸ hs')
    · rw [heq, List.prefix_concat_iff] at hs'
      rcases hs' with rfl | hs'
      · exact ⟨last, hmid.tail hstep, heq⟩
      · exact ih hs'

/-- Behind the text nothing more is done. -/
theorem of_left {trace : Trace} {ending : Ending} (h : Steps o text (.left trace ending) s) :
    s = .left trace ending := by
  rcases h.cases_head with rfl | ⟨mid, hstep, -⟩
  · rfl
  · cases hstep

end Steps

/-! ## Places in the text -/

/-- The pieces stand in the text, with the others behind them. -/
def Stands (text ps rest : List Piece) : Prop := ∃ front, text = front ++ (ps ++ rest)

namespace Stands

variable {ps qs rest : List Piece}

theorem left (h : Stands text (ps ++ qs) rest) : Stands text ps (qs ++ rest) := by
  obtain ⟨front, rfl⟩ := h
  exact ⟨front, by rw [List.append_assoc]⟩

theorem right (h : Stands text (ps ++ qs) rest) : Stands text qs rest := by
  obtain ⟨front, rfl⟩ := h
  exact ⟨front ++ ps, by simp only [List.append_assoc]⟩

/-- A label stands once in the text, so a jump finds it. -/
theorem behind?_eq {name : String} (hn : (labelsOf (entriesOf text)).Nodup)
    (h : Stands text (.label name :: ps) rest) : behind? name text = some (ps ++ rest) := by
  obtain ⟨front, rfl⟩ := h
  induction front with
  | nil => simp [behind?, Piece.label]
  | cons p front ih =>
    rw [List.cons_append, ← List.singleton_append, entriesOf_append, labelsOf_append] at hn
    have hrest := ih hn.of_append_right
    rcases p with ⟨a, c⟩ | i | ⟨l, sub⟩
    · exact hrest
    · exact hrest
    · have hne : l ≠ name := fun heq => by
        have hl : l ∈ labelsOf (entriesOf [.entry (.label l sub)]) := by
          simp [entriesOf, labelsOf, Piece.entries, Entry.label?]
        have hname : name ∈ labelsOf (entriesOf (front ++ (.label name :: ps ++ rest))) := by
          simp [entriesOf, labelsOf, Piece.entries, Piece.label, Entry.label?]
        exact List.disjoint_of_nodup_append hn hl (heq ▸ hname)
      simpa [behind?, hne] using hrest

theorem at_label {name : String} (hn : (labelsOf (entriesOf text)).Nodup)
    (h : Stands text (.label name :: ps) rest) (trace : Trace) (values : List Bool) :
    State.at text trace values (.label name) = .runs (ps ++ rest) trace values := by
  rw [State.at, h.behind?_eq hn]

end Stands

theorem behind?_eq_none {name : String} {ps : List Piece} (h : name ∉ labelsOf (entriesOf ps)) :
    behind? name ps = none := by
  induction ps with
  | nil => rfl
  | cons p ps ih =>
    rw [← List.singleton_append, entriesOf_append, labelsOf_append, List.mem_append, not_or] at h
    rcases p with ⟨a, c⟩ | i | ⟨l, sub⟩
    · exact ih h.2
    · exact ih h.2
    · have hne : l ≠ name := fun heq => h.1 (by
        simp [entriesOf, labelsOf, Piece.entries, Entry.label?, heq])
      simpa [behind?, hne] using ih h.2

/-- A goal that is no label of the text lies outside. -/
theorem State.at_outside {g : Goal} {trace : Trace} {values : List Bool}
    (h : ∀ l ∈ labelsOf (entriesOf text), g ≠ .label l) :
    State.at text trace values g = .left trace (.goes g) := by
  cases g with
  | label name => rw [State.at, behind?_eq_none fun hl => h name hl rfl]
  | address a => rfl

end StackCode
