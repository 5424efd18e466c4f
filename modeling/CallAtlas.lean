import CallAtlas.Text.Blank
import CallAtlas.Text.Pieces
import CallAtlas.Text.Line
import CallAtlas.Text.Comment
import CallAtlas.Text.Identifier
import CallAtlas.Token
import CallAtlas.Token.Scan
import CallAtlas.Expr
import CallAtlas.Expr.Parser
import CallAtlas.Script
import CallAtlas.Path
import CallAtlas.NameSet
import CallAtlas.Binding
import CallAtlas.CallTarget
import CallAtlas.Definition
import CallAtlas.Registry
import CallAtlas.Dependencies
import CallAtlas.CallGraph
import CallAtlas.Adjacency
import CallAtlas.Layout
import CallAtlas.Layout.Dot
import CallAtlas.FileTree
import CallAtlas.Json
import CallAtlas.Text.Printable
import CallAtlas.Decimal.Shortest
import CallAtlas.Json.Reader
import CallAtlas.Config
import CallAtlas.Analysis
import CallAtlas.Report.Table
import CallAtlas.Report.Summary
import CallAtlas.Cli.Arguments
import CallAtlas.Cli.Run
import CallAtlas.Main
import CallAtlas.Proofs.Adjacency
import CallAtlas.Proofs.CallGraph
import CallAtlas.Proofs.CallGraph.Growth
import CallAtlas.Proofs.CallGraph.Coherence
import CallAtlas.Proofs.CallGraph.OfDependencies
import CallAtlas.Proofs.Dependencies
import CallAtlas.Proofs.Outline
import CallAtlas.Proofs.Layout
import CallAtlas.Proofs.Layout.Cycles
import CallAtlas.Proofs.Layout.Distances
import CallAtlas.Proofs.CallTarget
import CallAtlas.Proofs.Layout.Component
import CallAtlas.Proofs.Layout.BuildOrder
import CallAtlas.Proofs.Layout.Dot
import CallAtlas.Proofs.Path
import CallAtlas.Proofs.FileTree
import CallAtlas.Proofs.Registry
import CallAtlas.Proofs.Analysis
import CallAtlas.Proofs.Analysis.Inputs
import CallAtlas.Proofs.Analysis.Tables
import CallAtlas.Proofs.Analysis.Composition
import CallAtlas.Proofs.Analysis.FileOrder
import CallAtlas.Proofs.Analysis.Failures
import CallAtlas.Proofs.Layout.CycleEdges
import CallAtlas.Proofs.Layout.Center
import CallAtlas.Proofs.Text.Line
import CallAtlas.Proofs.Expr.Parser
import CallAtlas.Proofs.Script
import CallAtlas.Proofs.Definition
import CallAtlas.Proofs.CallTarget.Rearrangement
import CallAtlas.Proofs.Text.Comment
import CallAtlas.Proofs.Documentation
import CallAtlas.Proofs.Token.Comment
import CallAtlas.Proofs.Documentation.Statement
import CallAtlas.Proofs.Analysis.HigherOrder
import CallAtlas.Proofs.Analysis.InputErrors
import CallAtlas.Proofs.FileTree.Scan
import CallAtlas.Proofs.Analysis.Expansion
import CallAtlas.Proofs.Dependencies.Canonical
import CallAtlas.Proofs.Layout.Lookup
import CallAtlas.Proofs.Binding
import CallAtlas.Proofs.Definition.Spelling
import CallAtlas.Proofs.Text.Pattern
import CallAtlas.Proofs.Documentation.Recognition
