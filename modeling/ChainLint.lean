import ChainLint.CommandLine.Arguments
import ChainLint.CommandLine.Help
import ChainLint.CommandLine.Run
import ChainLint.Config
import ChainLint.ConfigFile
import ChainLint.Cst.Basic
import ChainLint.Cst.Convert
import ChainLint.Directive
import ChainLint.Discovery
import ChainLint.Engine.Check
import ChainLint.Engine.Order
import ChainLint.FileTree
import ChainLint.Glob
import ChainLint.Grammar.Combinators
import ChainLint.Grammar.Expression
import ChainLint.Grammar.Lexer
import ChainLint.Grammar.Parse
import ChainLint.Grammar.Statement
import ChainLint.Grammar.Token
import ChainLint.Json.Value
import ChainLint.Log
import ChainLint.Main
import ChainLint.Path
import ChainLint.Proofs.CommandLine.ExitCode
import ChainLint.Proofs.ConfigFile
import ChainLint.Proofs.Cst.Accepted
import ChainLint.Proofs.Cst.Arguments
import ChainLint.Proofs.Cst.Chained
import ChainLint.Proofs.Cst.Comparison
import ChainLint.Proofs.Cst.Converts
import ChainLint.Proofs.Cst.Coverage
import ChainLint.Proofs.Cst.Deficient
import ChainLint.Proofs.Cst.FirstError
import ChainLint.Proofs.Cst.Inside
import ChainLint.Proofs.Cst.Interpolation
import ChainLint.Proofs.Cst.Redundant
import ChainLint.Proofs.Cst.Shape
import ChainLint.Proofs.Cst.SourceOrder
import ChainLint.Proofs.Cst.Span
import ChainLint.Proofs.Cst.Unfold
import ChainLint.Proofs.Cst.Weight
import ChainLint.Proofs.Directive
import ChainLint.Proofs.Engine.Append
import ChainLint.Proofs.Engine.Context
import ChainLint.Proofs.Engine.Firing
import ChainLint.Proofs.Engine.Header
import ChainLint.Proofs.Engine.Isolation
import ChainLint.Proofs.Engine.Machine
import ChainLint.Proofs.Engine.Mask
import ChainLint.Proofs.Engine.Offence
import ChainLint.Proofs.Engine.Operators
import ChainLint.Proofs.Engine.Order
import ChainLint.Proofs.Engine.Rank
import ChainLint.Proofs.Engine.Reference
import ChainLint.Proofs.Engine.Selected
import ChainLint.Proofs.Engine.Simulation
import ChainLint.Proofs.Files.Discovered
import ChainLint.Proofs.Files.Found
import ChainLint.Proofs.Outcome
import ChainLint.Proofs.Report.Colour
import ChainLint.Proofs.Report.Document
import ChainLint.Proofs.Report.Length
import ChainLint.Proofs.Report.Places
import ChainLint.Proofs.Report.Sections
import ChainLint.Proofs.Report.Snippet
import ChainLint.Proofs.Rule.Chain
import ChainLint.Proofs.Rule.Selection
import ChainLint.Proofs.Scan.Composition
import ChainLint.Proofs.Scan.Suppression
import ChainLint.Proofs.Tree.Frame
import ChainLint.Proofs.Tree.Nesting
import ChainLint.Proofs.Tree.Trail
import ChainLint.Proofs.Watch.Drift
import ChainLint.Proofs.Watch.Latest
import ChainLint.Report.Basic
import ChainLint.Report.Document
import ChainLint.Report.Grouped
import ChainLint.Report.Summary
import ChainLint.Rule.Basic
import ChainLint.Rule.Bindings
import ChainLint.Rule.Catalog
import ChainLint.Rule.Selection
import ChainLint.Rule.Shape
import ChainLint.Scan.Check
import ChainLint.Scan.Result
import ChainLint.Snippet
import ChainLint.Sorted
import ChainLint.Source
import ChainLint.Streams
import ChainLint.Table
import ChainLint.Terminal
import ChainLint.Text.Blank
import ChainLint.Text.Decimal
import ChainLint.Text.Distance
import ChainLint.Text.Units
import ChainLint.Text.Utf8
import ChainLint.Tree.Error
import ChainLint.Tree.Node
import ChainLint.Tree.Walk
import ChainLint.Watch
import ChainLint.Yaml.Cursor
import ChainLint.Yaml.Document
import ChainLint.Yaml.Scalar
import ChainLint.Yaml.Value
