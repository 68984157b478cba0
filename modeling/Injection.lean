import Injection.Binary
import Injection.Blake3
import Injection.Boundary
import Injection.Composition
import Injection.Cycle
import Injection.Cycle.Diagram
import Injection.Cycle.Rotation
import Injection.Cycle.Search
import Injection.Decimal
import Injection.Decimal.Shortest
import Injection.Declaration
import Injection.Declaration.Document
import Injection.Decoding
import Injection.Descriptor
import Injection.Distinct
import Injection.Edit
import Injection.Fault
import Injection.Graph
import Injection.Graph.Component
import Injection.Graph.Fingerprint
import Injection.Import
import Injection.Journal
import Injection.Json.Number
import Injection.Json.Parser
import Injection.Json.Printer
import Injection.KeyMap
import Injection.Name
import Injection.Options
import Injection.Options.File
import Injection.Proofs.Acyclic
import Injection.Proofs.Anchors
import Injection.Proofs.Before
import Injection.Proofs.Boundary
import Injection.Proofs.Build
import Injection.Proofs.Component
import Injection.Proofs.Composition
import Injection.Proofs.Countdown
import Injection.Proofs.Crossing
import Injection.Proofs.CrossingReports
import Injection.Proofs.Cycles
import Injection.Proofs.Decoding
import Injection.Proofs.Diagram
import Injection.Proofs.Discovery
import Injection.Proofs.Emission
import Injection.Proofs.Exploration
import Injection.Proofs.Fingerprint
import Injection.Proofs.Fit
import Injection.Proofs.Framing
import Injection.Proofs.Grouping
import Injection.Proofs.Inventory
import Injection.Proofs.Json
import Injection.Proofs.KeyMap
import Injection.Proofs.Layout
import Injection.Proofs.LeastOrder
import Injection.Proofs.Links
import Injection.Proofs.Lookup
import Injection.Proofs.Name
import Injection.Proofs.NameOrder
import Injection.Proofs.Outcomes
import Injection.Proofs.Placement
import Injection.Proofs.Providers
import Injection.Proofs.Reach
import Injection.Proofs.Readback
import Injection.Proofs.Refusal
import Injection.Proofs.Reordering
import Injection.Proofs.Reporting
import Injection.Proofs.Resolution
import Injection.Proofs.Rotation
import Injection.Proofs.Roundtrip
import Injection.Proofs.Search
import Injection.Proofs.Selection
import Injection.Proofs.Shape
import Injection.Proofs.StandIns
import Injection.Proofs.Trail
import Injection.Proofs.Validation
import Injection.Proofs.Walk
import Injection.Proofs.Wiring
import Injection.Reach
import Injection.Resolution
import Injection.Schedule
import Injection.Text.Blank
import Injection.Text.Quoted
import Injection.Text.Shapeless
import Injection.Toml.Number
import Injection.Toml.Parser
import Injection.Toml.Quoted
import Injection.Toml.Table
import Injection.Validation
import Injection.Value
