import ArrayGraph.Arithmetic
import ArrayGraph.CommandLine.Command
import ArrayGraph.CommandLine.Report
import ArrayGraph.Comparison
import ArrayGraph.Constant
import ArrayGraph.Decimal
import ArrayGraph.Document.Basic
import ArrayGraph.Document.JsonText
import ArrayGraph.Document.Toml.Quoting
import ArrayGraph.Document.Toml.Reader
import ArrayGraph.Document.Toml.Scalar
import ArrayGraph.Document.Toml.Table
import ArrayGraph.Document.Toml.Writer
import ArrayGraph.Engine
import ArrayGraph.Error
import ArrayGraph.Evaluation.Job
import ArrayGraph.Evaluation.Step
import ArrayGraph.FileTree
import ArrayGraph.Graph
import ArrayGraph.InstanceName
import ArrayGraph.Locality
import ArrayGraph.Main
import ArrayGraph.Operator
import ArrayGraph.Pattern
import ArrayGraph.Primitive
import ArrayGraph.Registry
import ArrayGraph.Session
import ArrayGraph.Settings.Basic
import ArrayGraph.Settings.Stored
import ArrayGraph.Statistic.Reducer
import ArrayGraph.Statistic.Reduction
import ArrayGraph.Statistic.Welford
import ArrayGraph.Tensor.Basic
import ArrayGraph.Tensor.Broadcast
import ArrayGraph.Tensor.Lane
import ArrayGraph.Tensor.Layout
import ArrayGraph.Text.Digits
import ArrayGraph.Text.Hidden
import ArrayGraph.Text.Quoted
import ArrayGraph.Text.Terminal
import ArrayGraph.Value
import ArrayGraph.Proofs.Evaluation.First
import ArrayGraph.Proofs.Evaluation.Run
import ArrayGraph.Proofs.Evaluation.Scope
import ArrayGraph.Proofs.Session.Reachable
import ArrayGraph.Proofs.Statistic.Moments
import ArrayGraph.Proofs.Session.Termination
import ArrayGraph.Proofs.Evaluation.Reach
import ArrayGraph.Proofs.Evaluation.Sequence
import ArrayGraph.Proofs.Evaluation.Agreement
import ArrayGraph.Proofs.Evaluation.Sibling
import ArrayGraph.Proofs.Evaluation.Order
import ArrayGraph.Proofs.Evaluation.Pause
import ArrayGraph.Proofs.Evaluation.Crew
import ArrayGraph.Proofs.Evaluation.Schedule
import ArrayGraph.Proofs.Evaluation.Fairness
import ArrayGraph.Proofs.Evaluation.Tracking
import ArrayGraph.Proofs.Evaluation.Footprint
import ArrayGraph.Proofs.Tensor.Index
import ArrayGraph.Proofs.Tensor.Broadcast
import ArrayGraph.Proofs.Tensor.Lane
import ArrayGraph.Proofs.Tensor.Partition
import ArrayGraph.Proofs.Statistic.Reduction
import ArrayGraph.Proofs.Evaluation.Matching
import ArrayGraph.Proofs.Evaluation.Threading
import ArrayGraph.Proofs.Session.Placement
import ArrayGraph.Proofs.Session.Program
import ArrayGraph.Proofs.Session.Substitution
import ArrayGraph.Proofs.Evaluation.Blame
import ArrayGraph.Proofs.Session.Containment
import ArrayGraph.Proofs.Registry.Name
import ArrayGraph.Proofs.Registry.Lookup
import ArrayGraph.Proofs.Evaluation.Bounds
import ArrayGraph.Proofs.Session.Numbering
import ArrayGraph.Proofs.Evaluation.Hosting
import ArrayGraph.Proofs.Evaluation.Simulation
import ArrayGraph.Proofs.Evaluation.Loop
import ArrayGraph.Proofs.Evaluation.Exchange
import ArrayGraph.Proofs.Evaluation.Counting
import ArrayGraph.Proofs.Value.Conversion
import ArrayGraph.Proofs.Value.Comparison
import ArrayGraph.Proofs.Value.FloatOrder
import ArrayGraph.Proofs.Value.Pairing
import ArrayGraph.Proofs.Value.Arithmetic
import ArrayGraph.Proofs.Value.Duality
import ArrayGraph.Proofs.Value.Scalar
import ArrayGraph.Proofs.Statistic.Lanewise
import ArrayGraph.Proofs.Statistic.Extremum
import ArrayGraph.Proofs.Evaluation.Following
import ArrayGraph.Proofs.Evaluation.Arguments
import ArrayGraph.Proofs.Evaluation.Path
import ArrayGraph.Proofs.Evaluation.Dispatch
import ArrayGraph.Proofs.Registry.Grammar
import ArrayGraph.Proofs.Session.Alias
import ArrayGraph.Proofs.Session.Fetching
import ArrayGraph.Proofs.Evaluation.Nesting
import ArrayGraph.Proofs.Statistic.Chunking
import ArrayGraph.Proofs.Value.Truth
import ArrayGraph.Proofs.Evaluation.Condition
import ArrayGraph.Proofs.Document.Numeral
import ArrayGraph.Proofs.Document.Json
import ArrayGraph.Proofs.Document.Quoting
import ArrayGraph.Proofs.Document.Field
import ArrayGraph.Proofs.Document.Toml
import ArrayGraph.Proofs.Settings.Writing
import ArrayGraph.Proofs.Settings.Removal
import ArrayGraph.Proofs.Settings.Restoring
