import Asm6502.Assembly
import Asm6502.Assembly.Query
import Asm6502.Calendar
import Asm6502.CommandLine.Arguments
import Asm6502.CommandLine.Program
import Asm6502.Conditional
import Asm6502.Define
import Asm6502.Diagnostic
import Asm6502.Expr.Eval
import Asm6502.Expr.Function
import Asm6502.Expr.Literal
import Asm6502.Expr.Operator
import Asm6502.Expr.Token
import Asm6502.Fault
import Asm6502.Files.Disk
import Asm6502.Files.FileTree
import Asm6502.Files.Library
import Asm6502.Files.Path
import Asm6502.History
import Asm6502.Instruction
import Asm6502.Line
import Asm6502.Macro
import Asm6502.Main
import Asm6502.Memory.Block
import Asm6502.Memory.ObjectCode
import Asm6502.Node
import Asm6502.Number.Format
import Asm6502.Number.Parts
import Asm6502.Number.Reading
import Asm6502.Number.Shortest
import Asm6502.Pass
import Asm6502.Proofs.Expr.Evaluation
import Asm6502.Proofs.Expr.Grammar
import Asm6502.Proofs.Expr.Scan
import Asm6502.Proofs.Expr.Stacks
import Asm6502.Proofs.Instruction.Encoding
import Asm6502.Proofs.Instruction.Reservation
import Asm6502.Proofs.Instruction.Reading
import Asm6502.Proofs.Label.Invariant
import Asm6502.Proofs.Label.Soundness
import Asm6502.Proofs.Label.Statement
import Asm6502.Proofs.Label.Walk
import Asm6502.Proofs.Memory.Block
import Asm6502.Proofs.Memory.Consistency
import Asm6502.Proofs.Memory.Write
import Asm6502.Proofs.Scope
import Asm6502.Proofs.Scope.Moment
import Asm6502.Proofs.Source
import Asm6502.Proofs.Statement.Place
import Asm6502.Proofs.Statement.Deed
import Asm6502.Proofs.Statement.Routine
import Asm6502.Proofs.Statement.Acts
import Asm6502.Proofs.Statement.Effect
import Asm6502.Proofs.Statement.Execution
import Asm6502.Proofs.SymbolTable
import Asm6502.Proofs.Text.Cursor
import Asm6502.Proofs.Text.Place
import Asm6502.Random
import Asm6502.Run
import Asm6502.Scope
import Asm6502.Session
import Asm6502.Settings
import Asm6502.Statement.Argument
import Asm6502.Statement.Basic
import Asm6502.Statement.Block
import Asm6502.Statement.Data
import Asm6502.Statement.Definition
import Asm6502.Statement.Directive
import Asm6502.Statement.Expansion
import Asm6502.Statement.External
import Asm6502.Statement.Operand
import Asm6502.Statement.Placement
import Asm6502.SymbolTable
import Asm6502.Text.Cursor
import Asm6502.Text.Lines
import Asm6502.Text.Whitespace
import Asm6502.Toml.Document
import Asm6502.Toml.Quoted
import Asm6502.Toml.Scalar
import Asm6502.Toml.Table
import Asm6502.Value
import Asm6502.Walk
import Asm6502.Proofs.Walk.Stage
import Asm6502.Proofs.Walk.Discipline
import Asm6502.Proofs.Scope.Hygiene
import Asm6502.Proofs.Expr.Agreement
import Asm6502.Proofs.Macro.Arguments
import Asm6502.Proofs.Walk.Loop
import Asm6502.Proofs.Expr.Forward
import Asm6502.Proofs.Memory.Leftover
import Asm6502.Proofs.Memory.Protection
import Asm6502.Proofs.Memory.Image
import Asm6502.Proofs.Statement.Structure
import Asm6502.Proofs.Walk.Branch
import Asm6502.Proofs.Statement.Local
import Asm6502.Proofs.Statement.Composed
import Asm6502.Proofs.Statement.Calls
import Asm6502.Proofs.Statement.Rounds
import Asm6502.Proofs.Walk.Cancellation
import Asm6502.Proofs.Walk.Nesting
import Asm6502.Proofs.Walk.Straight
import Asm6502.Proofs.Walk.Termination
import Asm6502.Proofs.Walk.Expansion
import Asm6502.Proofs.Text.Span
import Asm6502.Proofs.Expr.Span
import Asm6502.Proofs.Statement.Span
import Asm6502.Proofs.Statement.Outline
import Asm6502.Proofs.Walk.Skipping
import Asm6502.Proofs.Session
import Asm6502.Proofs.Statement.Inline
import Asm6502.Proofs.Walk.Capture
import Asm6502.Proofs.Memory.Representation
import Asm6502.Proofs.Tree.Search
import Asm6502.Proofs.Statement.Ending
import Asm6502.Proofs.Expr.Quotation
import Asm6502.Proofs.Statement.Drawing
import Asm6502.Proofs.Macro.Table
import Asm6502.Proofs.Macro.Passing
import Asm6502.Proofs.Macro.Verbatim
import Asm6502.Proofs.Symbol.Spelling
import Asm6502.Proofs.Symbol.Tracing
import Asm6502.Proofs.Symbol.Locations
import Asm6502.Proofs.Calendar
import Asm6502.Proofs.Expr.Radix
import Asm6502.Proofs.Expr.Balance
import Asm6502.Proofs.Memory.Emission
import Asm6502.Proofs.Walk.Trace
import Asm6502.Proofs.Walk.Provenance
import Asm6502.Proofs.SourceChain
