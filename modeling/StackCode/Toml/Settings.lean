/-
The settings of a TOML text: names with truth values, strings and lists of
strings. Of the rest of TOML (numbers, dates, tables, dotted names) nothing is
read.
-/
import StackCode.Toml.Token

namespace StackCode.Toml

inductive Value where
  | bool (b : Bool)
  | text (s : String)
  | list (items : List String)
deriving DecidableEq, Repr

/-- What may come next. -/
inductive Expected where
  /-- The name of a setting, or an empty line. -/
  | name
  | equals (name : String)
  | value (name : String)
  /-- An item of a list, or its end. The items already read are there, the latest first. -/
  | item (name : String) (items : List String)
  /-- A comma behind an item, or the end of the list. -/
  | comma (name : String) (items : List String)
  | lineEnd

/-- The settings read so far, the latest first, and what may come next. -/
structure Reader where
  settings : List (String × Value)
  expected : Expected

/-- The reader after a token, or `none` if the token may not stand there. -/
def Reader.step (r : Reader) (t : Token) : Option Reader :=
  let expect (e : Expected) : Option Reader := some { r with expected := e }
  let set (name : String) (v : Value) : Option Reader := some ⟨(name, v) :: r.settings, .lineEnd⟩
  match r.expected, t with
  | .name, .newline | .lineEnd, .newline => expect .name
  | .name, .word s | .name, .text s false => expect (.equals s)
  | .equals name, .equals => expect (.value name)
  | .value name, .word "true" => set name (.bool true)
  | .value name, .word "false" => set name (.bool false)
  | .value name, .text s _ => set name (.text s)
  | .value name, .openList => expect (.item name [])
  | .item .., .newline | .comma .., .newline => some r
  | .item name items, .text s _ => expect (.comma name (s :: items))
  | .comma name items, .comma => expect (.item name items)
  | .item name items, .closeList | .comma name items, .closeList =>
    set name (.list items.reverse)
  | _, _ => none

/-- The settings, if the text may end here and sets no name twice. -/
def Reader.result? (r : Reader) : Option (List (String × Value)) :=
  match r.expected with
  | .name | .lineEnd => if (r.settings.map (·.1)).Nodup then some r.settings.reverse else none
  | _ => none

/-- Reads a text that holds settings and nothing else. -/
def parse? (s : String) : Option (List (String × Value)) := do
  let tokens ← tokens? s
  let reader ← tokens.foldlM Reader.step ⟨[], .name⟩
  reader.result?

end StackCode.Toml
