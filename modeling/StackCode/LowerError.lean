/-
Why a program cannot be lowered. The first error ends the lowering; nothing is
recovered.
-/
import StackCode.Include.Basic
import StackCode.Sink
import StackCode.Tree.Description
import StackCode.Tree.Statement

namespace StackCode

/-- What is wrong with the arguments of a swap. -/
inductive SwapFault where
  | argumentCount
  | constant
  | sameArguments
  | differentTypes
  | notNumeric
  | notAssignable
deriving DecidableEq, Repr

def SwapFault.message : SwapFault → String
  | argumentCount => "swap takes exactly two arguments"
  | constant => "cannot swap a constant"
  | sameArguments => "cannot swap a value with itself"
  | differentTypes => "arguments must have the same type"
  | notNumeric => "arguments must be numeric"
  | notAssignable => "arguments must be assignable"

/-- A program that has a meaning for which there is no code. -/
inductive Unsupported where
  | variableShift (op : BinaryOp)
  /-- A machine subroutine is called with another number of arguments than it has carriers. -/
  | carrierCount (subroutine : String) (args carriers : Nat)
  | variableCarry
  | flagArgument (f : StatusFlag)
  | flagResult (f : StatusFlag)
  | pairArgument (t : DataType) (p : RegisterPair)
  | rangeStep (step : Int)
  | variableRangeStep
deriving DecidableEq, Repr

def Unsupported.message : Unsupported → String
  | variableShift op => s!"shift by a non-constant amount ({op})"
  | carrierCount subroutine args carriers =>
    s!"call to '{subroutine}' with {args} arguments for {carriers} register bindings"
  | variableCarry => "carry flag argument must be a constant"
  | flagArgument f => s!"passing an argument in status flag {f.nodeName}"
  | flagResult f => s!"result in status flag {f.nodeName}"
  | pairArgument t p => s!"{t} argument in register pair {p.name}"
  | rangeStep step => s!"variable range loop with step {step}"
  | variableRangeStep => "variable range loop with a non-constant step"

/-- A program without a meaning. -/
inductive Malformed where
  | untyped (e : Expr)
  | untypedPlace (p : Place)
  | memoryAddress (v : Value)
  | strayRange
  | strayStructLiteral
  | shiftAmount (v : Value)
  | negativeShift (amount : Int)
  | notVariable (name : String)
  | unfoldedConstant (name : String)
  | structWithoutMembers (name : String)
  | structLiteralTarget
  | notStruct (name : String)
  | memberCount (struct : String) (members values : Nat)
  | assignedConstant (name : String)
  | modifiedConstant (name : String)
  | argumentCount (subroutine : String) (parameters args : Nat)
  | builtinArgumentCount (builtin : String) (parameters args : Nat)
  | notArray (e : Expr)
  | arrayWithoutLength (name : String)
  | shiftedValue (builtin : String)
  | returnCount (values declared : Nat)
  | includeScope
  | fileArgument (directive : String) (number : Nat)
  | numberArgument (directive : String) (number : Nat)
  | variableChoice
  | choiceWithoutValues
  | loopWithoutCounter
  | loopOver (e : Expr)
  | emptyRange (first last step : Int)
  | singleValueRange (first : Int)
  | inexactRange (first last step : Int)
  | loopInX
  | loopWithoutElements (name : String)

def Malformed.message : Malformed → String
  | untyped e => "cannot infer the type of " ++ e.description
  | untypedPlace p => "cannot infer the type of " ++ p.description
  | memoryAddress v => s!"invalid memory address {v}"
  | strayRange => "a range expression can only be used as a for loop iterable"
  | strayStructLiteral => "a struct literal must be assigned to a struct variable"
  | shiftAmount v => s!"shift amount must be an integer, not {v}"
  | negativeShift amount => s!"shift amount must not be negative, got {amount}"
  | notVariable name => s!"'{name}' is not a variable"
  | unfoldedConstant name => s!"constant '{name}' should have been folded into a literal"
  | structWithoutMembers name => s!"struct variable '{name}' has no members"
  | structLiteralTarget => "a struct literal can only be assigned to a struct variable"
  | notStruct name => s!"'{name}' is not a struct variable"
  | memberCount struct members values =>
    s!"struct '{struct}' has {members} members but the literal has {values} values"
  | assignedConstant name => s!"cannot assign to constant '{name}'"
  | modifiedConstant name => s!"cannot modify constant '{name}'"
  | argumentCount subroutine parameters args =>
    s!"'{subroutine}' takes {parameters} arguments but {args} were given"
  | builtinArgumentCount builtin parameters args =>
    s!"builtin '{builtin}' takes {parameters} arguments but {args} were given"
  | notArray e => "expected an array variable, got " ++ e.description
  | arrayWithoutLength name => s!"array '{name}' has no length"
  | shiftedValue builtin => s!"'{builtin}' needs a variable, array element or memory location"
  | returnCount values declared => s!"return with {values} values where {declared} are declared"
  | includeScope => "%asminclude scope must be a string"
  | fileArgument directive number => s!"{directive} expects a file name as argument {number}"
  | numberArgument directive number => s!"{directive} expects a number as argument {number}"
  | variableChoice => "when choice values must be constants"
  | choiceWithoutValues => "when choice without values"
  | loopWithoutCounter => "for loop without a loop variable"
  | loopOver e => "cannot loop over " ++ e.description
  | emptyRange first last step => s!"loop over the empty range {first}..{last} step {step}"
  | singleValueRange first => s!"loop over the single value {first}"
  | inexactRange first last step =>
    s!"range {first}..{last} is not an exact multiple of step {step}"
  | loopInX => "the X register is the internal stack pointer and cannot be a loop variable"
  | loopWithoutElements name => s!"cannot loop over '{name}' without elements"

inductive LowerError where
  /-- The operation has no opcode for the type. -/
  | invalidType (operation : String) (t : DataType)
  | nonNumeric (t : DataType)
  | narrowing (source target : DataType)
  | outsideLoop (exit : LoopExit)
  /-- A jump on a status flag goes to labels only. -/
  | branchToAddress (address : UInt16)
  | invalidTarget (name : String)
  | unknownSyscall (function : String)
  | machineBody (subroutine : String)
  | loopRange (first last : Int) (t : DataType)
  | invalidSwap (fault : SwapFault)
  | unsupported (what : Unsupported)
  | malformed (what : Malformed)
  | unavailable (file : String) (fault : IncludeFault)
  | sink (e : SinkError)
  | value (e : ValueError)

namespace LowerError

/-- The name of the sort of error. -/
def kind : LowerError → String
  | invalidType .. => "InvalidType"
  | nonNumeric _ => "NonNumeric"
  | narrowing .. => "Narrowing"
  | outsideLoop _ => "LoopControlOutsideLoop"
  | branchToAddress _ => "BranchToAddress"
  | invalidTarget _ => "InvalidCallTarget"
  | unknownSyscall _ => "UnknownSyscall"
  | machineBody _ => "MachineSubroutineWithBody"
  | loopRange .. => "LoopRange"
  | invalidSwap _ => "InvalidSwap"
  | unsupported _ => "Unsupported"
  | malformed _ => "Structure"
  | unavailable .. => "Include"
  | sink _ => "Internal"
  | value _ => "InvalidValue"

def message : LowerError → String
  | invalidType operation t => s!"invalid type {t} for {operation}"
  | nonNumeric t => s!"non-numeric type {t} where a number is required"
  | narrowing source target => s!"narrowing conversion from {source} to {target}"
  | outsideLoop exit => s!"{exit.name} outside of a loop"
  | branchToAddress address =>
    s!"cannot branch to address {address}, use an absolute jump instead"
  | invalidTarget name => s!"invalid call or jump target '{name}'"
  | unknownSyscall function => s!"no syscall for builtin function '{function}'"
  | machineBody subroutine =>
    s!"machine subroutine '{subroutine}' has a fixed address and cannot have a body"
  | loopRange first last t => s!"loop range {first}..{last} out of bounds for {t}"
  | invalidSwap fault => "invalid swap: " ++ fault.message
  | unsupported what => "unsupported construct: " ++ what.message
  | malformed what => what.message
  | unavailable file fault => s!"cannot include '{file}': {fault.message}"
  | sink e => "internal error: " ++ e.message
  | value e => e.message

end LowerError
end StackCode
