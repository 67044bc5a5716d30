/-
The members of JSON objects: required, with a default, or left out.
-/
import StackCode.Json.Basic

namespace StackCode

/-- A member that is left out when there is nothing to write. -/
def optionalMember {α : Type} (name : String) (encode : α → Json) : Option α → List (String × Json)
  | some a => [(name, encode a)]
  | none => []

/-- A member that may be missing or `null`. -/
def Json.optional? {α : Type} (j : Json) (name : String) (decode : Json → Option α) :
    Option (Option α) :=
  match j.member? name with
  | none => some none
  | some value => value.orNull? decode

/-- A member that stands for `default` when it is missing. -/
def Json.defaulted? {α : Type} (j : Json) (name : String) (decode : Json → Option α) (default : α) :
    Option α :=
  match j.member? name with
  | none => some default
  | some value => decode value

/-- A member that must be there. -/
def Json.required? {α : Type} (j : Json) (name : String) (decode : Json → Option α) : Option α :=
  (j.member? name).bind decode

/-- An address, a length, or another number of 16 bits. -/
def Json.word? (j : Json) : Option UInt16 := (j.natUpTo? 65535).map UInt16.ofNat

def Json.ofWord (n : UInt16) : Json := .int n.toNat

/-- What may be missing, written as `null`. -/
def Json.ofOption {α : Type} (encode : α → Json) : Option α → Json
  | some a => encode a
  | none => .null

end StackCode
