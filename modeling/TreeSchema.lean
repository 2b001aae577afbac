import TreeSchema.Artifact
import TreeSchema.Checked
import TreeSchema.ChildRef
import TreeSchema.Children.Plan
import TreeSchema.Children.Source
import TreeSchema.Code
import TreeSchema.CommandLine
import TreeSchema.Decimal.Layout
import TreeSchema.Decimal.Shortest
import TreeSchema.Document.Json
import TreeSchema.Document.Tree
import TreeSchema.Document.Yaml.Cursor
import TreeSchema.Document.Yaml.Event
import TreeSchema.Document.Yaml.Reading
import TreeSchema.Document.Yaml.Scalar
import TreeSchema.Document.Yaml.Token
import TreeSchema.Document.Yaml.Token.Stream
import TreeSchema.Document.Yaml.Token.Text
import TreeSchema.Draft
import TreeSchema.Error
import TreeSchema.Files.Program
import TreeSchema.Files.Store
import TreeSchema.Gate
import TreeSchema.Job
import TreeSchema.Kind.Plan
import TreeSchema.Kind.Source
import TreeSchema.Name
import TreeSchema.Path
import TreeSchema.Positions
import TreeSchema.Schema.Basic
import TreeSchema.Schema.Check
import TreeSchema.Schema.Load
import TreeSchema.Text.Blank
import TreeSchema.Text.LetterCase
import TreeSchema.Text.Quoted
import TreeSchema.Text.Split
import TreeSchema.Text.Utf8
import TreeSchema.TypeExpr
import TreeSchema.View.Plan
import TreeSchema.View.Source
import TreeSchema.Main
import TreeSchema.Proofs.Accessors
import TreeSchema.Proofs.Checked
import TreeSchema.Proofs.Children.Meaning
import TreeSchema.Proofs.Children.Plan
import TreeSchema.Proofs.Children.Text
import TreeSchema.Proofs.Name
import TreeSchema.Proofs.Positions
import TreeSchema.Proofs.Schema.GateChecks
import TreeSchema.Proofs.Schema.Loaded
import TreeSchema.Proofs.Schema.Lookup
import TreeSchema.Proofs.Schema.References
import TreeSchema.Proofs.Source.Grammar
import TreeSchema.Proofs.Source.Meaning
import TreeSchema.Proofs.Source.Spelling
import TreeSchema.Proofs.Source.Token
import TreeSchema.Proofs.Source.Row
import TreeSchema.Proofs.Source.Piece
import TreeSchema.Proofs.Source.Literal
import TreeSchema.Proofs.Source.Condition
import TreeSchema.Proofs.Pieces
import TreeSchema.Proofs.Children.Ending
import TreeSchema.Proofs.Order
import TreeSchema.Proofs.Planning
import TreeSchema.Proofs.Scope
import TreeSchema.Proofs.Gates
import TreeSchema.Proofs.Files.Path
import TreeSchema.Proofs.Files.Store
import TreeSchema.Proofs.Files.Replacement
import TreeSchema.Proofs.Files.Session
import TreeSchema.Proofs.Source.Table
import TreeSchema.Proofs.Tables
import TreeSchema.Proofs.Configuration
import TreeSchema.Proofs.TypeExpr
import TreeSchema.Proofs.Schema.Expansion
import TreeSchema.Proofs.Children.Skeleton
import TreeSchema.Proofs.Children.Bindings
import TreeSchema.Proofs.Schema.WellFormed
import TreeSchema.Proofs.Arms
import TreeSchema.Proofs.Schema.Origin
import TreeSchema.Proofs.Methods
import TreeSchema.Proofs.Declarations
import TreeSchema.Proofs.Document.Refused
import TreeSchema.Proofs.Draft
import TreeSchema.Proofs.Schema.Rearrangement
import TreeSchema.Proofs.Children.Termination
import TreeSchema.Proofs.Attribute
import TreeSchema.Proofs.Schema.AliasChain
import TreeSchema.Proofs.Source.Balance
import TreeSchema.Proofs.AccessorNames
import TreeSchema.Proofs.Document.Json
import TreeSchema.Proofs.Document.Yaml.Space
import TreeSchema.Proofs.Document.Yaml.Token
import TreeSchema.Proofs.Document.Yaml.Stream
import TreeSchema.Proofs.Document.Yaml.Event
import TreeSchema.Proofs.Loading
