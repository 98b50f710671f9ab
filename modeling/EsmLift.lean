import EsmLift.Config.Load
import EsmLift.Config.Settings
import EsmLift.Console.Basic
import EsmLift.Console.Markup
import EsmLift.Console.Mistake
import EsmLift.Console.Standard
import EsmLift.Console.Style
import EsmLift.Diagnostics
import EsmLift.Fault
import EsmLift.Json.Reader
import EsmLift.Json.Writer
import EsmLift.Lift.Engine
import EsmLift.Lift.Pass
import EsmLift.Number.Double
import EsmLift.Number.Limit
import EsmLift.Number.Shortest
import EsmLift.Pattern.Basic
import EsmLift.Pattern.Description
import EsmLift.Proofs.Compounds
import EsmLift.Report
import EsmLift.Require.Classify
import EsmLift.Require.Grammar
import EsmLift.Standard
import EsmLift.Statement.Replacement
import EsmLift.Statement.Split
import EsmLift.Syntax.Build
import EsmLift.Syntax.Comments
import EsmLift.Syntax.Line
import EsmLift.Syntax.NodeType
import EsmLift.Syntax.Render
import EsmLift.Text.Balance
import EsmLift.Text.Blank
import EsmLift.Text.CodeRange
import EsmLift.Text.Digit
import EsmLift.Text.Lowercase
import EsmLift.Text.Quoted
import EsmLift.Text.Unprintable
import EsmLift.Toml.Document
import EsmLift.Toml.Scalar
import EsmLift.Toml.Value
import EsmLift.Trace
import EsmLift.Validation.Field
import EsmLift.Validation.Issue
import EsmLift.Validation.Standard
import EsmLift.Validation.WholeText
import EsmLift.Value.Basic
import EsmLift.Value.Equal
import EsmLift.Value.Mark
import EsmLift.Value.Show
import EsmLift.Walk.Run
import EsmLift.Walk.Visitor
import EsmLift.Proofs.Revisions
import EsmLift.Proofs.Recognition
import EsmLift.Proofs.Loads
import EsmLift.Proofs.Erasure
import EsmLift.Proofs.Reach
import EsmLift.Proofs.Parts
import EsmLift.Proofs.Pieces
import EsmLift.Proofs.Expansion
import EsmLift.Proofs.Visits
import EsmLift.Proofs.Traversal
import EsmLift.Proofs.Splicing
import EsmLift.Proofs.Refinement
import EsmLift.Proofs.Idempotence
import EsmLift.Proofs.Bindings
import EsmLift.Proofs.Reserve
import EsmLift.Proofs.Faults
import EsmLift.Proofs.Fuel
import EsmLift.Proofs.Entries
import EsmLift.Proofs.Census
import EsmLift.Proofs.Sharing
import EsmLift.Proofs.Interruption
import EsmLift.Proofs.WellFormed
import EsmLift.Proofs.Totality
import EsmLift.Proofs.Safety
import EsmLift.Proofs.Catalog
import EsmLift.Proofs.Specifiers
import EsmLift.Proofs.Conversion
import EsmLift.Proofs.Commutation
import EsmLift.Proofs.Lockstep
import EsmLift.Proofs.Isolation
import EsmLift.Proofs.Accounts
import EsmLift.Proofs.Recursion
import EsmLift.Proofs.Placement
import EsmLift.Proofs.Simulation
import EsmLift.Proofs.Stripping
import EsmLift.Proofs.Noninterference
import EsmLift.Proofs.Captures
import EsmLift.Proofs.Composition
import EsmLift.Proofs.Comments
import EsmLift.Proofs.Gauge
import EsmLift.Proofs.Steps
import EsmLift.Proofs.Progress
import EsmLift.Proofs.Labels
import EsmLift.Proofs.Ownership
import EsmLift.Proofs.Reordering
import EsmLift.Proofs.Positions
import EsmLift.Proofs.Tiers
import EsmLift.Proofs.Budget
import EsmLift.Proofs.Termination
import EsmLift.Proofs.Echo
import EsmLift.Proofs.Nearest
import EsmLift.Proofs.Nesting
import EsmLift.Proofs.Ledger
import EsmLift.Proofs.Testimony
import EsmLift.Proofs.Agreement
import EsmLift.Proofs.Subsumption
import EsmLift.Proofs.Rendering
import EsmLift.Proofs.Fallback
