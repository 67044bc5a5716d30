/-
JSON values as they are written, and what is read of them.

The grammar admits numbers that are too large for any float and strings with half a
pair of units. They are an error where they are read, but not where they are passed
over: an outline tells the members that are looked at, and the others may hold
anything.
-/
import StackCode.Json.Basic

namespace StackCode.Json

/-- A value as it is written. Parts without a value are `none`. -/
inductive Written where
  | scalar (j : Option Json)
  | text (s : Option String)
  | list (items : List Written)
  | object (members : List (Option String × Written))

/-- How much is looked at of a value. -/
inductive Outline where
  | whole
  /-- Of a list all items, each as far as its outline goes. -/
  | list (item : Outline)
  /-- Of an object the members with these names, each as far as its outline goes. -/
  | record (members : List (String × Outline))

namespace Outline

/-- The outline of an item. -/
def item : Outline → Outline
  | list o => o
  | _ => whole

/-- The outline of a member, if it is looked at. -/
def member? (name : String) : Outline → Option Outline
  | record members => members.lookup name
  | _ => some whole

end Outline

mutual

/-- What is looked at of a value. Lists and objects may be nested `depth` deep; those that are
passed over do not count. -/
def Written.read? (outline : Outline) (depth : Nat) : Written → Option Json
  | scalar j => j
  | text s => s.map str
  | list items =>
    match depth with
    | 0 => none
    | depth + 1 => (Written.readItems? outline.item depth items).map arr
  | object members =>
    match depth with
    | 0 => none
    | depth + 1 => (Written.readMembers? outline depth members).map obj

def Written.readItems? (outline : Outline) (depth : Nat) : List Written → Option (List Json)
  | [] => some []
  | w :: rest => do some ((← w.read? outline depth) :: (← Written.readItems? outline depth rest))

/-- The members of an object with the given outline. -/
def Written.readMembers? (outline : Outline) (depth : Nat) :
    List (Option String × Written) → Option (List (String × Json))
  | [] => some []
  | (none, _) :: _ => none
  | (some name, w) :: rest => do
    match outline.member? name with
    | none => Written.readMembers? outline depth rest
    | some inner =>
      some ((name, ← w.read? inner depth) :: (← Written.readMembers? outline depth rest))

end

end StackCode.Json
