import SystemVerilog.Grammar.Body
import SystemVerilog.Grammar.Cursor
import SystemVerilog.Grammar.Declaration
import SystemVerilog.Grammar.Directive
import SystemVerilog.Grammar.Expression
import SystemVerilog.Grammar.Fault
import SystemVerilog.Grammar.Grouping
import SystemVerilog.Grammar.Module
import SystemVerilog.Grammar.Pairing
import SystemVerilog.Grammar.Parser
import SystemVerilog.Grammar.Precedence
import SystemVerilog.Grammar.Statement
import SystemVerilog.Grammar.Unit
import SystemVerilog.Interface.Basic
import SystemVerilog.Interface.Fault
import SystemVerilog.Lexical.Characters
import SystemVerilog.Lexical.Delimited
import SystemVerilog.Lexical.Fault
import SystemVerilog.Lexical.Number
import SystemVerilog.Lexical.Scan
import SystemVerilog.Lexical.Tokens
import SystemVerilog.Literal.Basic
import SystemVerilog.Literal.Numeral
import SystemVerilog.Literal.Radix
import SystemVerilog.Report.Console
import SystemVerilog.Report.Diagnostic
import SystemVerilog.Report.Trace
import SystemVerilog.Text.Bytes
import SystemVerilog.Text.LineEnding
import SystemVerilog.Text.Location
import SystemVerilog.Text.Source
import SystemVerilog.Token.Basic
import SystemVerilog.Token.Keyword
import SystemVerilog.Token.Kind
import SystemVerilog.Token.Operator
import SystemVerilog.Tree.Declaration
import SystemVerilog.Tree.Directive
import SystemVerilog.Tree.Expr
import SystemVerilog.Tree.Module
import SystemVerilog.Tree.Operators
import SystemVerilog.Tree.Site
import SystemVerilog.Tree.Statement
import SystemVerilog.Tree.Words
import SystemVerilog.Proofs.Expression.Canonical
import SystemVerilog.Proofs.Expression.Complete
import SystemVerilog.Proofs.Expression.Exact
import SystemVerilog.Proofs.Expression.Sound
import SystemVerilog.Proofs.Expression.Spelling
import SystemVerilog.Proofs.Reading.Brackets
import SystemVerilog.Proofs.Reading.Steps
import SystemVerilog.Proofs.Reading.Units
import SystemVerilog.Proofs.Lexing.Laid
import SystemVerilog.Proofs.Lexing.Lossless
import SystemVerilog.Proofs.Lexing.Recognition
import SystemVerilog.Proofs.Expression.Written
import SystemVerilog.Proofs.Lexing.Respacing
import SystemVerilog.Proofs.Lexing.Spelled
import SystemVerilog.Proofs.Lexing.Written
import SystemVerilog.Proofs.Statement.Canonical
import SystemVerilog.Proofs.Statement.Complete
import SystemVerilog.Proofs.Statement.Heads
import SystemVerilog.Proofs.Statement.Parts
import SystemVerilog.Proofs.Statement.Roundtrip
import SystemVerilog.Proofs.Statement.Scanning
import SystemVerilog.Proofs.Statement.Spelling
import SystemVerilog.Proofs.Statement.Written
import SystemVerilog.Proofs.Tree.Map
import SystemVerilog.Proofs.Tree.Outline
import SystemVerilog.Proofs.Ranges.Combinators
import SystemVerilog.Proofs.Ranges.Judgements
import SystemVerilog.Proofs.Reading.Modules
import SystemVerilog.Proofs.Reading.Readers
import SystemVerilog.Proofs.Ranges.Rows
import SystemVerilog.Proofs.Lexing.Reprinting
import SystemVerilog.Proofs.Ranges.Expressions
import SystemVerilog.Proofs.Ranges.Declarations
import SystemVerilog.Proofs.Reading.Choices
import SystemVerilog.Proofs.Ranges.Statements
import SystemVerilog.Proofs.Ranges.Items
import SystemVerilog.Proofs.Ranges.Tiling
import SystemVerilog.Proofs.Ranges.Texts
import SystemVerilog.Proofs.Concatenation.Items
import SystemVerilog.Proofs.Concatenation.Tokens
import SystemVerilog.Proofs.Correspondence.Basic
import SystemVerilog.Proofs.Correspondence.Combinators
import SystemVerilog.Proofs.Correspondence.Expressions
import SystemVerilog.Proofs.Correspondence.Items
import SystemVerilog.Proofs.Correspondence.Declarations
import SystemVerilog.Proofs.Correspondence.Statements
import SystemVerilog.Proofs.Module.Canonical
import SystemVerilog.Proofs.Module.Declarations
import SystemVerilog.Proofs.Module.Headers
import SystemVerilog.Proofs.Module.Complete
import SystemVerilog.Proofs.Module.Marks
import SystemVerilog.Proofs.Module.Roundtrip
import SystemVerilog.Proofs.Interface.Names
import SystemVerilog.Proofs.Interface.Declared
import SystemVerilog.Proofs.Interface.Reconciliation
import SystemVerilog.Proofs.Findings.Headers
import SystemVerilog.Proofs.Findings.Warnings
import SystemVerilog.Proofs.Reading.Regions
import SystemVerilog.Proofs.Layout.Writing
import SystemVerilog.Proofs.Layout.Independence
import SystemVerilog.Proofs.Faults.Contexts
import SystemVerilog.Proofs.Faults.Confinement
import SystemVerilog.Proofs.Expression.Climbing
import SystemVerilog.Proofs.Narrowing.Judgement
import SystemVerilog.Proofs.Narrowing.Expressions
import SystemVerilog.Proofs.Tree.Expressions
import SystemVerilog.Proofs.Walks.Paths
import SystemVerilog.Proofs.Walks.Segments
import SystemVerilog.Proofs.Walks.Order
import SystemVerilog.Proofs.Walks.Layout
import SystemVerilog.Proofs.Walks.References
import SystemVerilog.Proofs.Roots.Judgement
import SystemVerilog.Proofs.Roots.Openings
import SystemVerilog.Proofs.Roots.Declarations
import SystemVerilog.Proofs.Roots.Items
import SystemVerilog.Proofs.Walks.Trees
import SystemVerilog.Proofs.Rereading.Expressions
import SystemVerilog.Proofs.Rereading.Texts
import SystemVerilog.Proofs.Rereading.Nodes
import SystemVerilog.Proofs.Cursors.Operations
import SystemVerilog.Proofs.Cursors.Sessions
import SystemVerilog.Proofs.Widening.Expressions
import SystemVerilog.Proofs.Selects.Balance
import SystemVerilog.Proofs.Selects.Dimensions
import SystemVerilog.Proofs.Roots.Parts
import SystemVerilog.Proofs.Readings.Assignments
import SystemVerilog.Proofs.Readings.Targets
import SystemVerilog.Proofs.Literal.Values
import SystemVerilog.Proofs.Literal.Written
import SystemVerilog.Proofs.Literal.Decoding
import SystemVerilog.Proofs.Tree.DataTypes
import SystemVerilog.Proofs.Literal.Widths
import SystemVerilog.Proofs.Headers.Inheritance
import SystemVerilog.Proofs.Lexing.Closing
import SystemVerilog.Proofs.Lexing.Scanned
import SystemVerilog.Proofs.Lexing.Classes
import SystemVerilog.Proofs.Lexing.Faults
import SystemVerilog.Proofs.Narrowing.Statements
import SystemVerilog.Proofs.Statement.Delays
import SystemVerilog.Proofs.Text.Lines
import SystemVerilog.Proofs.Cursors.Pairs
import SystemVerilog.Proofs.Headers.Commas
import SystemVerilog.Proofs.Termination.Grammar
import SystemVerilog.Proofs.Statement.Labels
import SystemVerilog.Proofs.Narrowing.Items
import SystemVerilog.Proofs.Narrowing.Stability
import SystemVerilog.Proofs.Expression.Extension
import SystemVerilog.Proofs.Lexing.Appending
import SystemVerilog.Proofs.Roots.Bounds
import SystemVerilog.Proofs.Interface.Widths
import SystemVerilog.Proofs.Tree.Items
import SystemVerilog.Proofs.Roots.Kinds
import SystemVerilog.Proofs.Roots.Instantiations
