import TinyScript.Bytecode.Compile
import TinyScript.Bytecode.StackMachine
import TinyScript.CommandLine.Execute
import TinyScript.Main
import TinyScript.Stmt.Display
import TinyScript.Proofs.Binding.Programs
import TinyScript.Proofs.Bytecode.Bounds
import TinyScript.Proofs.Bytecode.Decoding
import TinyScript.Proofs.Bytecode.StackDiscipline
import TinyScript.Proofs.Bytecode.Streams
import TinyScript.Proofs.Equality
import TinyScript.Proofs.Parsing.Clean
import TinyScript.Proofs.Parsing.Declarations
import TinyScript.Proofs.Parsing.Programs
import TinyScript.Proofs.Typing.Builtins
import TinyScript.Proofs.Typing.Events
import TinyScript.Proofs.Parsing.ExpressionProgress
import TinyScript.Proofs.Parsing.ScopeBalance
import TinyScript.Proofs.Parsing.StatementProgress
import TinyScript.Proofs.Parsing.Termination
import TinyScript.Proofs.Text.Escapes
import TinyScript.Proofs.Text.Quoting
import TinyScript.Proofs.Token.Rescanning
import TinyScript.Proofs.Eval.Flow
import TinyScript.Proofs.Eval.Locating
import TinyScript.Proofs.Eval.Scoping
import TinyScript.Proofs.Eval.Stopping
import TinyScript.Proofs.Eval.Lengths
import TinyScript.Proofs.Bytecode.Lengths
import TinyScript.Proofs.Bytecode.Loops
import TinyScript.Proofs.Lengths
import TinyScript.Proofs.Typing.Joining
import TinyScript.Proofs.Typing.Reaching
import TinyScript.Proofs.Typing.Storing
import TinyScript.Proofs.Parsing.Pointing
import TinyScript.Proofs.Parsing.ReportPlaces
import TinyScript.Proofs.Parsing.Transcripts
import TinyScript.Proofs.Typing.Tags
import TinyScript.Proofs.Bytecode.Erasure
import TinyScript.Proofs.Bytecode.Resolution
import TinyScript.Proofs.Layout.ReadPrograms
import TinyScript.Proofs.Pairs.Entries
import TinyScript.Proofs.Access.Elements
import TinyScript.Proofs.Text.Searching
import TinyScript.Proofs.Formatting
import TinyScript.Proofs.Bytecode.Histories
import TinyScript.Proofs.Scribing.Keeping
import TinyScript.Proofs.Simulation.Programs
import TinyScript.Proofs.Eval.Resolving
