import Arbor.Census
import Arbor.ChildRule
import Arbor.Command.Arguments
import Arbor.Command.FileTree
import Arbor.Command.Files
import Arbor.Command.Run
import Arbor.Diagnostic
import Arbor.Dump
import Arbor.Json.Basic
import Arbor.Json.Parser
import Arbor.Json.Token
import Arbor.Location
import Arbor.Log
import Arbor.Main
import Arbor.Node
import Arbor.Number.Binary64
import Arbor.Number.Shortest
import Arbor.Outline
import Arbor.Path
import Arbor.Proofs.Census.Exactness
import Arbor.Proofs.Census.Report
import Arbor.Proofs.Command.Outcome
import Arbor.Proofs.Command.ScopeReport
import Arbor.Proofs.Command.Scopes
import Arbor.Proofs.Diagnostic.Coloring
import Arbor.Proofs.Diagnostic.EscapeSequence
import Arbor.Proofs.Dump.Completeness
import Arbor.Proofs.Dump.Form
import Arbor.Proofs.Dump.Keywords
import Arbor.Proofs.Dump.Reading
import Arbor.Proofs.Number.Spelling
import Arbor.Proofs.Outline.Identity
import Arbor.Proofs.Outline.Order
import Arbor.Proofs.SExpr.Fitting
import Arbor.Proofs.SExpr.Pairing
import Arbor.Proofs.SExpr.Reader
import Arbor.Proofs.SExpr.Recovery
import Arbor.Proofs.Scope.Binding
import Arbor.Proofs.Scope.Classification
import Arbor.Proofs.Scope.Correspondence
import Arbor.Proofs.Scope.Declaration
import Arbor.Proofs.Scope.Gathering
import Arbor.Proofs.Scope.History
import Arbor.Proofs.Scope.Listing
import Arbor.Proofs.Scope.Mirror
import Arbor.Proofs.Scope.OrderIndependence
import Arbor.Proofs.Scope.PatternOrder
import Arbor.Proofs.Scope.Placement
import Arbor.Proofs.Scope.Reordering
import Arbor.Proofs.Scope.Resolution
import Arbor.Proofs.Scope.Reuse
import Arbor.Proofs.Scope.Shape
import Arbor.Proofs.Scope.SharedTable
import Arbor.Proofs.Scope.Table
import Arbor.Proofs.Value.Encoding
import Arbor.Proofs.Value.Parts
import Arbor.Proofs.Value.Reordering
import Arbor.Proofs.Walk.Abort
import Arbor.Proofs.Walk.Brackets
import Arbor.Proofs.Walk.Context
import Arbor.Proofs.Walk.Encoding
import Arbor.Proofs.Walk.Event
import Arbor.Proofs.Walk.Fault
import Arbor.Proofs.Walk.History
import Arbor.Proofs.Walk.Interchange
import Arbor.Proofs.Walk.LifeCycle
import Arbor.Proofs.Walk.Path
import Arbor.Proofs.Walk.PathText
import Arbor.Proofs.Walk.Pruning
import Arbor.Proofs.Walk.Recording
import Arbor.Proofs.Walk.Reuse
import Arbor.Proofs.Walk.SecondSuspension
import Arbor.Proofs.Walk.Transport
import Arbor.Proofs.Walk.TwoPhase
import Arbor.SExpr.Basic
import Arbor.SExpr.Block
import Arbor.SExpr.Compact
import Arbor.SExpr.Layout
import Arbor.SExpr.OfValue
import Arbor.Scope.Analysis
import Arbor.Scope.Binding
import Arbor.Scope.Pattern
import Arbor.Scope.Reference
import Arbor.Scope.Table
import Arbor.Script
import Arbor.Text.Digit
import Arbor.Text.Literal
import Arbor.Text.Printable
import Arbor.Text.Utf8
import Arbor.Value.Basic
import Arbor.Value.Matching
import Arbor.Value.OfJson
import Arbor.Value.Text
import Arbor.Visitor.Basic
import Arbor.Visitor.Session
import Arbor.Visitor.Visit
import Arbor.Walk
