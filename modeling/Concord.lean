import Concord.Evaluate.RangeCheck
import Concord.Main
import Concord.Output.Memory
import Concord.Proofs.Schedule.Confinement
import Concord.Proofs.Schedule.Session
import Concord.Proofs.Schedule.SessionSteps
import Concord.Proofs.Schedule.Safety
import Concord.Proofs.Grid.Index
import Concord.Proofs.Grid.Place
import Concord.Proofs.Graph.Typed
import Concord.Proofs.Outcome
import Concord.Proofs.Resolve.Resolved
import Concord.Proofs.Graph.Reachable
import Concord.Proofs.Resolve.Compaction
import Concord.Proofs.Graph.Lowering
import Concord.Proofs.Resolve.Axes
import Concord.Proofs.Resolve.Shapes
import Concord.Proofs.Evaluate.Whole
import Concord.Proofs.Evaluate.Aligned
import Concord.Proofs.Evaluate.Window
import Concord.Proofs.Evaluate.Roles
import Concord.Proofs.Evaluate.Traces
import Concord.Proofs.Evaluate.Values
import Concord.Proofs.Evaluate.Serving
import Concord.Proofs.Evaluate.Settling
import Concord.Proofs.Evaluate.Steps
import Concord.Proofs.Evaluate.Passes
import Concord.Proofs.Evaluate.Runs
import Concord.Proofs.Evaluate.Ordering
import Concord.Proofs.Evaluate.Prepared
import Concord.Proofs.Evaluate.NodeParts
import Concord.Proofs.Evaluate.CallParts
import Concord.Proofs.Evaluate.Agreement
import Concord.Proofs.Evaluate.WholeRun
import Concord.Proofs.Schedule.Pieces
import Concord.Proofs.Schedule.Replies
import Concord.Proofs.Schedule.AnyOrder
import Concord.Proofs.Schedule.Dispatched
import Concord.Proofs.Evaluate.Readings
import Concord.Proofs.Evaluate.Coverage
import Concord.Proofs.Evaluate.SafeRun
import Concord.Proofs.Resolve.WellTyped
import Concord.Proofs.Graph.Explained
import Concord.Proofs.Expr.Reparsed
import Concord.Proofs.Schedule.Isolation
import Concord.Proofs.Schedule.Reported
import Concord.Proofs.Schedule.Alone
import Concord.Proofs.Run.Selection
import Concord.Proofs.Run.Isolated
import Concord.Proofs.Run.WrittenOnce
import Concord.Proofs.Measure.RoundTrip
import Concord.Proofs.Resolve.Amounts
import Concord.Proofs.Evaluate.Emission
import Concord.Proofs.Graph.Overloads
import Concord.Proofs.Schedule.Transient
import Concord.Proofs.Schedule.Cancellation
import Concord.Proofs.Expr.Accepted
import Concord.Proofs.Graph.Inlined
import Concord.Proofs.Graph.Local
import Concord.Proofs.Graph.Inputs
import Concord.Proofs.Resolve.Core
import Concord.Proofs.Evaluate.AllInputs
import Concord.Proofs.Schedule.Accounted
import Concord.Proofs.Schedule.Attributed
import Concord.Proofs.Run.Dependencies
import Concord.Proofs.Resolve.Again
import Concord.Graph.Columns
import Concord.Proofs.Graph.Built
import Concord.Proofs.Measure.Coherent
import Concord.Proofs.Resolve.Distinct
import Concord.Proofs.Evaluate.Holding
import Concord.Proofs.Evaluate.WorkingSet
import Concord.Proofs.Evaluate.Streaming
import Concord.Proofs.Evaluate.ReadLog
import Concord.Proofs.Resolve.Unary
import Concord.Proofs.Evaluate.Cutting
import Concord.Proofs.Evaluate.Levels
import Concord.Proofs.Evaluate.Overflow
import Concord.Proofs.Graph.Acyclic
import Concord.Proofs.Graph.Tours
import Concord.Proofs.Definitions.Document
import Concord.Proofs.Expr.Located
import Concord.Proofs.Expr.Heights
import Concord.Proofs.Graph.Keywords
import Concord.Proofs.Output.Reassembled
import Concord.Proofs.Output.LastSession
import Concord.Proofs.Resolve.Broadcast
import Concord.Proofs.Measure.FreeGroup
import Concord.Proofs.Measure.Literals
import Concord.Proofs.Grid.Views
import Concord.Proofs.Expr.Lossless
import Concord.Proofs.Explain
import Concord.Proofs.Evaluate.Bookkeeping
import Concord.Proofs.Evaluate.Borders
import Concord.Proofs.Definitions.Names
