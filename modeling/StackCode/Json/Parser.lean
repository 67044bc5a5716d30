/-
Reading a JSON text: a machine goes over the tokens once, with a stack of the
lists and objects that are still open.
-/
import StackCode.Json.Token
import StackCode.Json.Written

namespace StackCode.Json

/-- A list or an object that is still open, with its finished parts, the latest first. -/
inductive Frame where
  | list (items : List Written)
  | object (members : List (Option String × Written)) (name : Option String)

/-- What may come next. -/
inductive Expected where
  | value
  /-- A value, or the end of the list that has just been opened. -/
  | valueOrEnd
  /-- The name of a member. -/
  | name (members : List (Option String × Written))
  /-- The name of a member, or the end of the object that has just been opened. -/
  | nameOrEnd
  | colon (members : List (Option String × Written)) (name : Option String)
  /-- What follows a complete value. -/
  | done (w : Written)

/-- The machine: what is open, the innermost first, and what may come next. -/
structure Reader where
  frames : List Frame
  expected : Expected

/-- The machine after a token, or `none` if the token may not stand there. -/
def Reader.step (r : Reader) (t : Token) : Option Reader :=
  match r.expected, t with
  | .value, .scalar j | .valueOrEnd, .scalar j => some { r with expected := .done (.scalar j) }
  | .value, .text s | .valueOrEnd, .text s => some { r with expected := .done (.text s) }
  | .value, .openList | .valueOrEnd, .openList => some ⟨.list [] :: r.frames, .valueOrEnd⟩
  | .value, .openObject | .valueOrEnd, .openObject => some { r with expected := .nameOrEnd }
  | .valueOrEnd, .closeList =>
    match r.frames with
    | _ :: outer => some ⟨outer, .done (.list [])⟩
    | [] => none
  | .nameOrEnd, .closeObject => some { r with expected := .done (.object []) }
  | .nameOrEnd, .text s => some { r with expected := .colon [] s }
  | .name members, .text s => some { r with expected := .colon members s }
  | .colon members s, .colon => some ⟨.object members s :: r.frames, .value⟩
  | .done w, .comma =>
    match r.frames with
    | .list items :: outer => some ⟨.list (w :: items) :: outer, .value⟩
    | .object members s :: outer => some ⟨outer, .name ((s, w) :: members)⟩
    | [] => none
  | .done w, .closeList =>
    match r.frames with
    | .list items :: outer => some ⟨outer, .done (.list (w :: items).reverse)⟩
    | _ => none
  | .done w, .closeObject =>
    match r.frames with
    | .object members s :: outer => some ⟨outer, .done (.object ((s, w) :: members).reverse)⟩
    | _ => none
  | _, _ => none

/-- The value that the machine has read, if nothing is open any more. -/
def Reader.result? (r : Reader) : Option Written :=
  match r.frames, r.expected with
  | [], .done w => some w
  | _, _ => none

/-- The value that a text holds, if it holds nothing else. -/
def Written.parse? (s : String) : Option Written := do
  let tokens ← tokens? s
  let reader ← tokens.foldlM Reader.step ⟨[], .value⟩
  reader.result?

/-- Reads a text that holds one value and nothing else, as far as the outline of the value goes. -/
def parse? (outline : Outline) (maxDepth : Nat) (s : String) : Option Json := do
  (← Written.parse? s).read? outline maxDepth

end StackCode.Json
