import Machining.Collision.Document
import Machining.Collision.Event
import Machining.Collision.Report
import Machining.CommandLine.Arguments
import Machining.CommandLine.Execution
import Machining.Decimal.Layout
import Machining.Decimal.Nearest
import Machining.Decimal.Reading
import Machining.Decimal.Shortest
import Machining.Document.Node
import Machining.Document.Parts
import Machining.Files.Path
import Machining.Files.Tree
import Machining.Geometry.Box
import Machining.Geometry.Document
import Machining.Geometry.Point
import Machining.Geometry.Triangle
import Machining.Json.Number
import Machining.Json.Reading
import Machining.Json.Text
import Machining.Json.Token
import Machining.Json.Writing
import Machining.Machine.Descriptor
import Machining.Machine.Document
import Machining.Machine.Fault
import Machining.Machine.OffsetTable
import Machining.Main
import Machining.Modal.Code
import Machining.Modal.Command
import Machining.Modal.Document
import Machining.Modal.Interpretation
import Machining.Modal.Playback
import Machining.Modal.State
import Machining.Program.Block
import Machining.Program.Comment
import Machining.Program.Document
import Machining.Program.Word
import Machining.Proofs.Collision.Contact
import Machining.Proofs.Collision.Figures
import Machining.Proofs.Collision.Growth
import Machining.Proofs.Collision.Table
import Machining.Proofs.Decimal.Characters
import Machining.Proofs.Decimal.Nearest
import Machining.Proofs.Decimal.Reading
import Machining.Proofs.Decimal.Shortest
import Machining.Proofs.Document.Form
import Machining.Proofs.Document.Legible
import Machining.Proofs.Double.Bits
import Machining.Proofs.Double.Ceiling
import Machining.Proofs.Double.Layout
import Machining.Proofs.Double.Multiple
import Machining.Proofs.Double.Numeral
import Machining.Proofs.Double.Order
import Machining.Proofs.Double.Rounding
import Machining.Proofs.Double.Sum
import Machining.Proofs.Double.Unsigned
import Machining.Proofs.Double.Whole
import Machining.Proofs.Exact
import Machining.Proofs.Files.Tree
import Machining.Proofs.Geometry.Barycentric
import Machining.Proofs.Geometry.Distance
import Machining.Proofs.Geometry.Parallelogram
import Machining.Proofs.Geometry.Plane
import Machining.Proofs.Geometry.Reordering
import Machining.Proofs.Json.Reading
import Machining.Proofs.Json.Text
import Machining.Proofs.Json.Token
import Machining.Proofs.Json.Writing
import Machining.Proofs.Machine.Document
import Machining.Proofs.Machine.Faults
import Machining.Proofs.Modal.Accounting
import Machining.Proofs.Modal.Chain
import Machining.Proofs.Modal.Deletion
import Machining.Proofs.Modal.Document
import Machining.Proofs.Modal.Groups
import Machining.Proofs.Modal.Histories
import Machining.Proofs.Modal.Inches
import Machining.Proofs.Modal.Increments
import Machining.Proofs.Modal.Invariants
import Machining.Proofs.Modal.Prefix
import Machining.Proofs.Modal.Registers
import Machining.Proofs.Modal.Session
import Machining.Proofs.Modal.WordOrder
import Machining.Proofs.Program.Accepted
import Machining.Proofs.Program.Comments
import Machining.Proofs.Program.Compact
import Machining.Proofs.Program.Grammar
import Machining.Proofs.Program.Layout
import Machining.Proofs.Program.Lines
import Machining.Proofs.Program.Pattern
import Machining.Proofs.Program.Scan
import Machining.Proofs.Program.Tokens
import Machining.Proofs.Settings.Document
import Machining.Proofs.Settings.File
import Machining.Proofs.Settings.Override
import Machining.Proofs.Simulation.Deletion
import Machining.Proofs.Simulation.Layout
import Machining.Proofs.Simulation.Sparing
import Machining.Proofs.Simulation.Trace
import Machining.Proofs.Stock.Ball
import Machining.Proofs.Stock.Capsule
import Machining.Proofs.Stock.Construction
import Machining.Proofs.Stock.Corners
import Machining.Proofs.Stock.Covering
import Machining.Proofs.Stock.Faces
import Machining.Proofs.Stock.Fingerprint
import Machining.Proofs.Stock.Footprint
import Machining.Proofs.Stock.Integrity
import Machining.Proofs.Stock.Recovery
import Machining.Proofs.Stock.Span
import Machining.Proofs.Stock.Stl
import Machining.Proofs.Stock.Storage
import Machining.Proofs.Stock.Surface
import Machining.Proofs.Stock.Sweep
import Machining.Proofs.Stock.Volume
import Machining.Proofs.Text.Csv
import Machining.Proofs.Text.Hexadecimal
import Machining.Proofs.Text.Numeral
import Machining.Proofs.Toml.Reading
import Machining.Proofs.Toml.Scalar
import Machining.Proofs.Toml.Text
import Machining.Proofs.Trajectory.Booking
import Machining.Proofs.Trajectory.Clock
import Machining.Proofs.Trajectory.Feed
import Machining.Proofs.Trajectory.Parts
import Machining.Proofs.Trajectory.Sampling
import Machining.Proofs.Trajectory.Velocity
import Machining.Scalar
import Machining.Scalar.Double
import Machining.Settings.Config
import Machining.Settings.Document
import Machining.Settings.File
import Machining.Simulation.Run
import Machining.Simulation.Summary
import Machining.Stock.Carving
import Machining.Stock.Document
import Machining.Stock.Fingerprint
import Machining.Stock.Grid
import Machining.Stock.Mesh
import Machining.Stock.Stl
import Machining.Text.Blank
import Machining.Text.Csv
import Machining.Text.DecimalDigit
import Machining.Text.Hexadecimal
import Machining.Text.Numeral
import Machining.Text.Split
import Machining.Text.Uppercase
import Machining.Toml.Key
import Machining.Toml.Reading
import Machining.Toml.Scalar
import Machining.Toml.Table
import Machining.Toml.Text
import Machining.Toml.Writing
import Machining.Trajectory.Document
import Machining.Trajectory.Kinematics
import Machining.Trajectory.Plan
import Machining.Trajectory.Sample
import Machining.Trajectory.Stats
import Machining.Units
