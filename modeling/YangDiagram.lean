import YangDiagram.Json.Value
import YangDiagram.Json.Number
import YangDiagram.Json.Read
import YangDiagram.Json.Write
import YangDiagram.Json.Key
import YangDiagram.Json.Coerce
import YangDiagram.Decimal.Binary
import YangDiagram.Decimal.Shortest
import YangDiagram.Decimal.Nearest
import YangDiagram.Text.Basic
import YangDiagram.Text.Order
import YangDiagram.Document.Grammar
import YangDiagram.Document.Check
import YangDiagram.Report.Basic
import YangDiagram.Schema.Node
import YangDiagram.Schema.Build
import YangDiagram.Schema.Augment
import YangDiagram.Schema.Lookup
import YangDiagram.Schema.Load
import YangDiagram.Schema.Tree
import YangDiagram.Text.Blank
import YangDiagram.Text.Wrap
import YangDiagram.Diagram.Options
import YangDiagram.Diagram.Connectors
import YangDiagram.Diagram.Scopes
import YangDiagram.Diagram.Prefixes
import YangDiagram.Diagram.Row
import YangDiagram.Diagram.Groups
import YangDiagram.Diagram.Walk
import YangDiagram.Diagram.Walker
import YangDiagram.Diagram.Legend
import YangDiagram.Diagram.Render
import YangDiagram.Log.Logger
import YangDiagram.Report.View
import YangDiagram.Cli.Flags
import YangDiagram.Cli.Tree
import YangDiagram.Cli.Args
import YangDiagram.Main
import YangDiagram.Proofs.Walker.Restore
import YangDiagram.Proofs.Diagram.Budget
import YangDiagram.Proofs.Schema.Built
import YangDiagram.Proofs.Schema.Placed
import YangDiagram.Proofs.Diagram.Trails
import YangDiagram.Proofs.Document.Conformance
import YangDiagram.Proofs.Diagram.Layout
import YangDiagram.Proofs.Document.Names
import YangDiagram.Proofs.Schema.Address
import YangDiagram.Proofs.Schema.Keyed
import YangDiagram.Proofs.Schema.RootEntries
import YangDiagram.Proofs.Schema.Recorded
import YangDiagram.Proofs.Diagram.Roots
import YangDiagram.Proofs.Diagram.Clip
import YangDiagram.Proofs.Schema.Targets
import YangDiagram.Proofs.Schema.AugmentEntries
import YangDiagram.Proofs.Diagram.Grouping
import YangDiagram.Proofs.Diagram.Passes
import YangDiagram.Proofs.Diagram.Keys
import YangDiagram.Proofs.Schema.Origin
import YangDiagram.Proofs.Schema.Reorder
import YangDiagram.Proofs.Diagram.TypeColumn
import YangDiagram.Proofs.Schema.Resolution
import YangDiagram.Proofs.Schema.Attachment
import YangDiagram.Proofs.Schema.Statements
import YangDiagram.Proofs.Diagram.TypeNames
import YangDiagram.Proofs.Diagram.Leafref
import YangDiagram.Proofs.Diagram.Unbounded
import YangDiagram.Proofs.Diagram.EntrySources
import YangDiagram.Proofs.Text.Wrap
import YangDiagram.Proofs.Diagram.Handles
import YangDiagram.Proofs.Decimal.NearestWhole
import YangDiagram.Proofs.Cli.CountFlags
import YangDiagram.Proofs.Walker.LineState
import YangDiagram.Proofs.Schema.Identified
import YangDiagram.Proofs.Schema.Mirror
import YangDiagram.Proofs.Walker.Output
