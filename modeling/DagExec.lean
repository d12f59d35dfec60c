import DagExec.Lib.ListFacts
import DagExec.Lib.DepGraph
import DagExec.Lib.GraphEmbedding
import DagExec.Lib.Kahn
import DagExec.Lib.Levels
import DagExec.Lib.LongestPath
import DagExec.Lib.Lifecycle
import DagExec.Lib.Machine
import DagExec.Lib.WhileLoop
import DagExec.Lib.HighWater
import DagExec.Lib.Dataflow
import DagExec.Lib.MerkleTree
import DagExec.Lib.Joined
import DagExec.Model.Outcome
import DagExec.Model.Graph
import DagExec.Model.Builder
import DagExec.Model.Common
import DagExec.Model.Sequential
import DagExec.Model.Parallel
import DagExec.Model.Trace
import DagExec.Spec.Reference
import DagExec.Spec.Small
import DagExec.Spec.Width
import DagExec.Common.Closure
import DagExec.Common.Metadata
import DagExec.Common.Release
import DagExec.Common.Books
import DagExec.Common.Report
import DagExec.Spec.Embedding
import DagExec.Common.Hooks
import DagExec.Common.Told
import DagExec.Common.Network
import DagExec.Build.Calls
import DagExec.Build.Embedding
import DagExec.Seq.Loop
import DagExec.Seq.Runs
import DagExec.Seq.Reach
import DagExec.Seq.Hooks
import DagExec.Seq.Observed
import DagExec.Seq.Safety
import DagExec.Seq.Levels
import DagExec.Seq.Renaming
import DagExec.Par.Places
import DagExec.Par.Moves
import DagExec.Par.Account
import DagExec.Par.Invariant
import DagExec.Par.Start
import DagExec.Par.Steps
import DagExec.Par.Conservation
import DagExec.Par.Progress
import DagExec.Par.Calls
import DagExec.Par.Returns
import DagExec.Par.Unreachable
import DagExec.Par.Panic
import DagExec.Par.Hang
import DagExec.Par.Fifo
import DagExec.Par.FalseCycle
import DagExec.Par.Full
import DagExec.Par.Turns
import DagExec.Par.RoundRobin
import DagExec.Par.Shutdown
import DagExec.Par.Loss
import DagExec.Par.Hooks
import DagExec.Par.Observed
import DagExec.Par.Busy
import DagExec.Par.Started
import DagExec.Par.Captured
import DagExec.Trace.Stamps
import DagExec.Trace.Finalize
import DagExec.Trace.Timeline
import DagExec.Trace.Runs
import DagExec.Trace.Frontier
import DagExec.Exec.Agreement
import DagExec.Exec.Lockstep
import DagExec.Exec.Insertion
import DagExec.Exec.Pruning
import DagExec.Exec.Composition
import DagExec.Exec.Order
import DagExec.Exec.Refinement
import DagExec.Exec.Keyed
import DagExec.Client.Hash
import DagExec.Client.Keys
import DagExec.Client.Proof
import DagExec.Client.Binding
import DagExec.Client.Calls
import DagExec.Client.Rollup
import DagExec.Client.RollupGraph
import DagExec.Client.RollupValues
import DagExec.Client.RollupNeeds
import DagExec.Client.Baseline
import DagExec.Client.RollupRequests
import DagExec.Client.Merkle
