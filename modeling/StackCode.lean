import StackCode.CommandLine
import StackCode.Files.FileTree
import StackCode.Main
import StackCode.Proofs.Arithmetic.Floats
import StackCode.Proofs.Arithmetic.Folding
import StackCode.Proofs.Labels.Bound
import StackCode.Proofs.Names.Kept
import StackCode.Proofs.Stack.Contained
import StackCode.Proofs.Storage.Respected
import StackCode.Proofs.Lowering.Unmarked
import StackCode.Proofs.Widening.Statement
import StackCode.Proofs.Registers.Arguments
import StackCode.Proofs.Storage.Declared
import StackCode.Proofs.Data.Tree
import StackCode.Proofs.Order.Program
import StackCode.Proofs.Counting.ToZero
import StackCode.Proofs.Counting.Variable
import StackCode.Proofs.Choice.Constants
import StackCode.Proofs.Places.Exchange
import StackCode.Proofs.Places.Members
import StackCode.Proofs.Places.Shift
import StackCode.Proofs.Counting.Elements
import StackCode.Proofs.Operands.Program
import StackCode.Proofs.Code.Calls
import StackCode.Proofs.Counting.Accepted
import StackCode.Proofs.Sink.Markers
import StackCode.Proofs.Lowering.Growth
import StackCode.Proofs.Counting.Long
