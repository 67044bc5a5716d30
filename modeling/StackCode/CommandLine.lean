/-
The command line: which arguments there are, and what is done for them.

An option stands in front of the input or behind it, and at most once. Two dashes
alone end the options.
-/
import StackCode.Compiler

namespace StackCode.CommandLine

/-! ## Arguments -/

inductive Opt where
  | output
  | configuration
  | format
  | noLines
  | verbose
  | help
deriving DecidableEq, Repr

namespace Opt

def all : List Opt := [output, configuration, format, noLines, verbose, help]

/-- The name behind two dashes. -/
def name : Opt → String
  | output => "output"
  | configuration => "config"
  | format => "format"
  | noLines => "no-lines"
  | verbose => "verbose"
  | help => "help"

/-- The letter behind one dash. -/
def letter? : Opt → Option Char
  | output => some 'o'
  | verbose => some 'v'
  | help => some 'h'
  | _ => none

def takesValue : Opt → Bool
  | output | configuration | format => true
  | noLines | verbose | help => false

end Opt

/-- What is wrong with the arguments. -/
inductive Misuse where
  | noCommand
  | noInput
  | unexpected (arg : String)
  | repeated (o : Opt)
  | noValue (o : Opt)
  | emptyInput
  | strayValue (o : Opt)
  | invalidValue (o : Opt) (value : String)
deriving DecidableEq, Repr

def Misuse.message : Misuse → String
  | noCommand => "a command is required"
  | noInput => "an input is required"
  | unexpected arg => s!"unexpected argument '{arg}'"
  | repeated o => s!"the argument '--{o.name}' cannot be used multiple times"
  | noValue o => s!"a value is required for '--{o.name}'"
  | emptyInput => "the input must not be empty"
  | strayValue o => s!"'--{o.name}' takes no value"
  | invalidValue o value => s!"invalid value '{value}' for '--{o.name}'"

/-- What the arguments ask for. -/
structure Options where
  input : Option String := none
  output : Option String := none
  /-- The path of the configuration file. -/
  configuration : Option String := none
  format : Option OutputFormat := none
  noLines : Bool := false
  verbose : Bool := false
deriving DecidableEq, Repr

/-- What ends the reading of arguments before their end. -/
inductive Interrupt where
  | help
  | misuse (e : Misuse)

/-- The options, with the option that waits for its value. -/
structure Reader where
  options : Options := {}
  pending : Option Opt := none
  /-- All that follows are inputs. -/
  onlyInputs : Bool := false

namespace Reader

/-- A path, which must not be empty. -/
def pathOnce (o : Opt) (current : Option String) (value : String) :
    Except Interrupt (Option String) :=
  if current.isSome then .error (.misuse (.repeated o))
  else if value.isEmpty then .error (.misuse (.noValue o))
  else .ok (some value)

def flagOnce (o : Opt) (current : Bool) : Except Interrupt Bool :=
  if current then .error (.misuse (.repeated o)) else .ok true

/-- The reader with an option set that takes a value. -/
def setValue (r : Reader) (o : Opt) (value : String) : Except Interrupt Reader := do
  let options ←
    match o with
    | .output => do
      pure { r.options with output := ← pathOnce o r.options.output value }
    | .configuration => do
      pure { r.options with configuration := ← pathOnce o r.options.configuration value }
    | .format =>
      match r.options.format, OutputFormat.ofName? value with
      | some _, _ => throw (.misuse (.repeated o))
      | none, none => throw (.misuse (.invalidValue o value))
      | none, some f => pure { r.options with format := some f }
    | _ => throw (.misuse (.strayValue o))
  return { r with options, pending := none }

/-- The reader with an option set that takes no value. -/
def setFlag (r : Reader) (o : Opt) : Except Interrupt Reader := do
  let options ←
    match o with
    | .noLines => do pure { r.options with noLines := ← flagOnce o r.options.noLines }
    | .verbose => do pure { r.options with verbose := ← flagOnce o r.options.verbose }
    | .help => throw .help
    | _ => throw (.misuse (.noValue o))
  return { r with options }

/-- The input, which is there once. -/
def setInput (r : Reader) (value : String) : Except Interrupt Reader :=
  if r.options.input.isSome then .error (.misuse (.unexpected value))
  else if value.isEmpty then .error (.misuse .emptyInput)
  else .ok { r with options := { r.options with input := some value } }

/-- An option by its name, possibly with a value behind an equals sign. -/
def long (r : Reader) (arg : String) (text : List Char) : Except Interrupt Reader :=
  let name := String.ofList (text.takeWhile (· != '='))
  match Opt.all.find? (·.name == name), text.dropWhile (· != '=') with
  | none, _ => .error (.misuse (.unexpected arg))
  | some o, [] => if o.takesValue then .ok { r with pending := some o } else r.setFlag o
  | some o, _ :: value =>
    if o.takesValue then r.setValue o (String.ofList value) else .error (.misuse (.strayValue o))

/-- Options by their letters. The rest behind a letter that takes a value is that value. -/
def short (arg : String) : List Char → Reader → Except Interrupt Reader
  | [], r => .ok r
  | c :: rest, r =>
    match Opt.all.find? (·.letter? == some c) with
    | none => .error (.misuse (.unexpected arg))
    | some o =>
      if o.takesValue then
        match rest with
        | [] => .ok { r with pending := some o }
        | '=' :: value => r.setValue o (String.ofList value)
        | value => r.setValue o (String.ofList value)
      else do short arg rest (← r.setFlag o)

/-- Reads one argument. A dash alone is no option. -/
def step (r : Reader) (arg : String) : Except Interrupt Reader :=
  if r.onlyInputs then r.setInput arg
  else
    match r.pending, arg.toList with
    | some o, '-' :: _ :: _ => .error (.misuse (.noValue o))
    | some o, _ => r.setValue o arg
    | none, ['-', '-'] => .ok { r with onlyInputs := true }
    | none, '-' :: '-' :: text => r.long arg text
    | none, '-' :: c :: rest => short arg (c :: rest) r
    | none, _ => r.setInput arg

end Reader

/-- The options that arguments ask for, with the input. -/
def Options.ofArgs (args : List String) : Except Interrupt (String × Options) := do
  let r ← args.foldlM Reader.step {}
  match r.pending, r.options.input with
  | some o, _ => throw (.misuse (.noValue o))
  | none, none => throw (.misuse .noInput)
  | none, some input => return (input, r.options)

inductive Command where
  | lower (input : String) (o : Options)
  | version
  | help
deriving Repr

/-- What may stand behind the command `help`: nothing, or one command. -/
def helpTopics : List (List String) := [[], ["lower"], ["completions"], ["help"]]

/-- The command that arguments ask for. -/
def Command.ofArgs : List String → Except Misuse Command
  | [] => .error .noCommand
  | "lower" :: args =>
    match Options.ofArgs args with
    | .ok (input, o) => .ok (lower input o)
    | .error .help => .ok help
    | .error (.misuse e) => .error e
  | "--version" :: _ => .ok version
  | "--help" :: _ => .ok help
  | "help" :: topic =>
    if helpTopics.contains topic then .ok help
    else .error (.unexpected (topic.getLastD "help"))
  | arg :: _ =>
    match arg.toList with
    | '-' :: 'V' :: _ => .ok version
    | '-' :: 'h' :: _ => .ok help
    | _ => .error (.unexpected arg)

/-! ## Runs -/

/-- How a run ends. -/
inductive Outcome where
  /-- It has done its work, and this is its output. -/
  | success (output : String)
  | failure (e : CompileError)
  | misuse (e : Misuse)

def Outcome.exitCode : Outcome → UInt32
  | success _ => 0
  | failure _ => 1
  | misuse _ => 2

def versionText : String := "svmc 3.0.3\n"

def helpText : String :=
  "svmc lower [-o OUTPUT] [--config FILE] [--format listing|json] [--no-lines] [-v] INPUT\n" ++
    "svmc --version\n"

section Files

variable {m : Type → Type} [Monad m] (files : FileAccess m)

/-- The configuration that the options ask for: that of a file, changed by the other options. -/
def configuration (o : Options) : ExceptT CompileError m Configuration := do
  let c ←
    match o.configuration with
    | some path => readConfiguration files path
    | none => pure {}
  return { c with
    format := o.format.getD c.format
    markLines := c.markLines && !o.noLines }

/-- Lowers the input. The output goes to a file if there is one, and is the result otherwise. -/
def lower (input : String) (o : Options) : ExceptT CompileError m String := do
  let c ← configuration files o
  match o.output with
  | some output =>
    compileFile files c input output
    return ""
  | none => compileText files c (← readSource files input)

/-- Does what the arguments ask for. -/
def run (args : List String) : m Outcome := do
  match Command.ofArgs args with
  | .error e => return .misuse e
  | .ok .version => return .success versionText
  | .ok .help => return .success helpText
  | .ok (.lower input o) =>
    match ← (lower files input o).run with
    | .ok text => return .success text
    | .error e => return .failure e

end Files

end StackCode.CommandLine
