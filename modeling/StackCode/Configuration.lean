/-
The configuration: what the code generator writes and where it looks for included
texts.
-/
import StackCode.Json.Printer
import StackCode.Program.Data
import StackCode.Program.Listing
import StackCode.Toml.Settings

namespace StackCode

/-- How an intermediate program is written out. -/
inductive OutputFormat where
  | listing
  | json
deriving DecidableEq, Repr

namespace OutputFormat

def all : List OutputFormat := [listing, json]

def name : OutputFormat → String
  | listing => "listing"
  | json => "json"

def ofName? (s : String) : Option OutputFormat := all.find? (·.name == s)

end OutputFormat

/-- The text of a program. -/
def Program.render (p : Program) : OutputFormat → String
  | .listing => p.listing
  | .json => p.toJson.pretty

structure Configuration where
  /-- Source lines are marked. -/
  markLines : Bool := true
  /-- The directories that library texts are looked for in, in order. -/
  libraryDirs : List String := []
  format : OutputFormat := .listing
deriving DecidableEq, Repr

namespace Configuration

/-- The configuration with one setting changed. -/
def set? (c : Configuration) : String × Toml.Value → Option Configuration
  | ("emit_line_markers", .bool b) => some { c with markLines := b }
  | ("library_dirs", .list dirs) => some { c with libraryDirs := dirs }
  | ("output_format", .text s) => (OutputFormat.ofName? s).map fun f => { c with format := f }
  | _ => none

/-- Reads a configuration file. What it does not set stays as it is by default; a setting that is
not known is refused. -/
def ofToml? (text : String) : Option Configuration := do
  (← Toml.parse? text).foldlM set? {}

end Configuration
end StackCode
