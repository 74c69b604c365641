import MipsCompiler.Assembly.Instruction
import MipsCompiler.Assembly.Label
import MipsCompiler.Assembly.Library
import MipsCompiler.Assembly.Program
import MipsCompiler.Assembly.Stack
import MipsCompiler.Compilation
import MipsCompiler.Diagnostic
import MipsCompiler.Grammar
import MipsCompiler.Lowering.Basic
import MipsCompiler.Lowering.Expression
import MipsCompiler.Lowering.Fault
import MipsCompiler.Lowering.Program
import MipsCompiler.Lowering.Statement
import MipsCompiler.Lowering.Storage
import MipsCompiler.Numeral
import MipsCompiler.Operator
import MipsCompiler.Parser.Basic
import MipsCompiler.Parser.Expression
import MipsCompiler.Parser.Program
import MipsCompiler.Parser.Statement
import MipsCompiler.Position
import MipsCompiler.Scope
import MipsCompiler.Single.Basic
import MipsCompiler.Single.Decimal
import MipsCompiler.Single.Shortest
import MipsCompiler.Symbol
import MipsCompiler.Text.Blank
import MipsCompiler.Text.Hidden
import MipsCompiler.Text.Quoted
import MipsCompiler.Token.Basic
import MipsCompiler.Token.Kind
import MipsCompiler.Token.Scanner
import MipsCompiler.Token.Stream
import MipsCompiler.Tree.Basic
import MipsCompiler.Tree.Nodes
import MipsCompiler.Ty.Algebra
import MipsCompiler.Ty.Basic
import MipsCompiler.Ty.Fault
import MipsCompiler.Ty.Size
import MipsCompiler.Typing.Expression
import MipsCompiler.Typing.Program
import MipsCompiler.Typing.Returns
import MipsCompiler.Typing.Statement
import MipsCompiler.Typing.Table
import MipsCompiler.Proofs.Scanning.Lexeme
import MipsCompiler.Proofs.Scanning.Partition
import MipsCompiler.Proofs.Parsing.Step
import MipsCompiler.Proofs.Parsing.Derivation
import MipsCompiler.Proofs.Parsing.Numbering
import MipsCompiler.Proofs.Parsing.Scoping
import MipsCompiler.Proofs.Parsing.Freshness
import MipsCompiler.Proofs.Grammar.Syntax
import MipsCompiler.Proofs.Grammar.Reading
import MipsCompiler.Proofs.Grammar.Soundness
import MipsCompiler.Proofs.Grammar.Completeness
import MipsCompiler.Proofs.Grammar.Acceptance
import MipsCompiler.Proofs.Typing.Check
import MipsCompiler.Proofs.Typing.NodeOrder
import MipsCompiler.Proofs.Typing.Paths
import MipsCompiler.Proofs.Typing.Declarative
import MipsCompiler.Proofs.LexicalScope
import MipsCompiler.Proofs.Accepted
import MipsCompiler.Proofs.Lowering.Step
import MipsCompiler.Proofs.Lowering.Totality
import MipsCompiler.Proofs.Lowering.Layout
import MipsCompiler.Proofs.Lowering.Emission
import MipsCompiler.Proofs.Labels.Names
import MipsCompiler.Proofs.Flow
import MipsCompiler.Proofs.Labels.Emitted
import MipsCompiler.Proofs.Labels.Program
import MipsCompiler.Proofs.Labels.Printed
import MipsCompiler.Proofs.StackBalance
import MipsCompiler.Proofs.StorageLayout
import MipsCompiler.Proofs.Execution.Machine
import MipsCompiler.Proofs.Execution.Expression
import MipsCompiler.Proofs.Execution.CallingConvention
import MipsCompiler.Proofs.ControlFlow.Machine
import MipsCompiler.Proofs.ControlFlow.Simulation
import MipsCompiler.Proofs.Moved
import MipsCompiler.Proofs.Parsing.Lockstep
import MipsCompiler.Proofs.Parsing.TwoRuns
import MipsCompiler.Proofs.TokenSources
import MipsCompiler.Proofs.Typing.Coincidence
import MipsCompiler.Proofs.Lowering.Coincidence
import MipsCompiler.Proofs.PositionIndependence
import MipsCompiler.Proofs.LaterDeclarations
import MipsCompiler.Proofs.Postorder
import MipsCompiler.Proofs.Printing.Text
import MipsCompiler.Proofs.Printing.ReadBack
import MipsCompiler.Proofs.Scanning.Layout
import MipsCompiler.Proofs.Grammar.Prediction
import MipsCompiler.Proofs.Grammar.Tracking
import MipsCompiler.Proofs.Grammar.Refusal
import MipsCompiler.Proofs.EarliestRefusal
import MipsCompiler.Proofs.Parsing.Accounting
import MipsCompiler.Proofs.Typing.Entries
import MipsCompiler.Proofs.TypeErrorOrigins
import MipsCompiler.Proofs.Parsing.Invariant
import MipsCompiler.Proofs.ErrorSymbols
import MipsCompiler.Proofs.ArraySizes
import MipsCompiler.Proofs.BrokenDeclarations
import MipsCompiler.Proofs.Typing.Wording
import MipsCompiler.Proofs.ScopeFrames
import MipsCompiler.Proofs.Parsing.Numerals
