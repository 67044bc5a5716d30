/-
JSON values. Integers and floats are kept apart, and an object keeps its members
in order.
-/
namespace StackCode

/-- A JSON value. -/
inductive Json where
  | null
  | bool (b : Bool)
  | int (n : Int)
  | float (x : Float)
  | str (s : String)
  | arr (items : List Json)
  | obj (members : List (String × Json))
deriving Repr, Inhabited

namespace Json

/-- The member of an object with the given name. -/
def member? (name : String) : Json → Option Json
  | obj members => members.lookup name
  | _ => none

def isObject : Json → Bool
  | obj _ => true
  | _ => false

def str? : Json → Option String
  | str s => some s
  | _ => none

def bool? : Json → Option Bool
  | bool b => some b
  | _ => none

def arr? : Json → Option (List Json)
  | arr items => some items
  | _ => none

/-- An integer between the bounds. A float is no integer, whatever its value. -/
def intBetween? (lo hi : Int) : Json → Option Int
  | int n => if lo ≤ n ∧ n ≤ hi then some n else none
  | _ => none

/-- A natural number of at most `hi`. -/
def natUpTo? (hi : Nat) (j : Json) : Option Nat := (j.intBetween? 0 hi).map Int.toNat

/-- A number, be it an integer or a float. -/
def number? : Json → Option Float
  | int n => some (Float.ofInt n)
  | float x => some x
  | _ => none

/-- The items of a list, each decoded. -/
def listOf? {α : Type} (decode : Json → Option α) : Json → Option (List α)
  | arr items => items.mapM decode
  | _ => none

/-- Where a value stands. -/
inductive Standing where
  | alone
  /-- Among the parts of a node, which is an object that tells its kind. -/
  | inNode
deriving DecidableEq, Repr

/-- The name of an alternative without data: a string, or an object whose only member has that name
and holds `null`. In a node that member may hold an empty object as well. -/
def alternative? (standing : Standing) : Json → Option String
  | str s => some s
  | obj [(name, null)] => some name
  | obj [(name, obj [])] => if standing = .inNode then some name else none
  | _ => none

/-- The choice with the given name. -/
def oneOf? {α : Type} (standing : Standing) (name : α → String) (choices : List α) (j : Json) :
    Option α :=
  (j.alternative? standing).bind fun s => choices.find? (name · == s)

/-- `null`, or a value to decode. -/
def orNull? {α : Type} (decode : Json → Option α) : Json → Option (Option α)
  | null => some none
  | j => (decode j).map some

end Json
end StackCode
