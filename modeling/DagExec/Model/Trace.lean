import DagExec.Model.Sequential
import DagExec.Model.Parallel

/-!
# Execution traces: `trace.rs` and the traced runs

`TraceObserver` stamps the moments the schedulers tell it of. A `Duration` is its number of nanoseconds. The clock is the
sequence of readings of `started.elapsed()`: the `n`-th call of `elapsed` in a run returns `clock n`.
-/

namespace DagExec

open Outcome

variable {K O E ω : Type}

inductive TraceNodeKind
  | source
  | task
  deriving DecidableEq, Repr

def NodeKind.traceKind : NodeKind O E ω → TraceNodeKind
  | source _ => .source
  | task _ => .task

structure NodeTrace (K : Type) where
  nodeId : NodeId
  key : K
  kind : TraceNodeKind
  deps : List NodeId
  readyAt : Nat
  startedAt : Nat
  finishedAt : Nat
  runDuration : Nat
  workerId : Option Nat

structure ExecutionTrace (K : Type) where
  nodes : List (NodeTrace K)
  wallTime : Nat
  criticalPathTime : Nat
  maxFrontierWidth : Nat
  executedNodes : Nat

structure TracedExecution (K O : Type) where
  outputs : HashMap K O
  trace : ExecutionTrace K

/-- `reads` counts the readings of the clock so far. -/
structure TraceObserver where
  clock : Nat → Nat
  reads : Nat
  readyAt : List (Option Nat)
  startedAt : List (Option Nat)
  finishedAt : List (Option Nat)
  workerId : List (Option Nat)
  executionOrder : List NodeId
  maxFrontierWidth : Nat

/-- `slots[id.0].is_none()`. The schedulers pass ids of the graph only, so there is always such a slot. -/
def vacant (slots : List (Option Nat)) (id : NodeId) : Bool := slots[id]? == some none

namespace TraceObserver

def new (clock : Nat → Nat) (nodeCount : Nat) : TraceObserver where
  clock := clock
  reads := 0
  readyAt := List.replicate nodeCount none
  startedAt := List.replicate nodeCount none
  finishedAt := List.replicate nodeCount none
  workerId := List.replicate nodeCount none
  executionOrder := []
  maxFrontierWidth := 0

/-- The next reading of the clock. -/
def elapsed (r : TraceObserver) : Nat := r.clock r.reads

def markReady (id : NodeId) (frontierWidth : Nat) (r : TraceObserver) : TraceObserver :=
  let r := if vacant r.readyAt id then
    { r with readyAt := r.readyAt.set id (some r.elapsed), reads := r.reads + 1 } else r
  { r with maxFrontierWidth := max r.maxFrontierWidth frontierWidth }

def markStart (id : NodeId) (workerId : Option Nat) (r : TraceObserver) : TraceObserver :=
  let r := if vacant r.startedAt id then
    { r with
      startedAt := r.startedAt.set id (some r.elapsed), executionOrder := r.executionOrder ++ [id],
      reads := r.reads + 1 } else r
  if vacant r.workerId id then { r with workerId := r.workerId.set id workerId } else r

def markFinish (id : NodeId) (r : TraceObserver) : TraceObserver :=
  if vacant r.finishedAt id then
    { r with finishedAt := r.finishedAt.set id (some r.elapsed), reads := r.reads + 1 } else r

instance : ExecObserver TraceObserver where
  markReady := markReady
  markStart := markStart
  markFinish := markFinish

/-- One step of `deps.iter().filter(needed).map(longest_path).max()`. -/
def parentBody {ε : Type} (needed : List Bool) (longestPath : List Nat) (best : Option Nat) (dep : NodeId) :
    Outcome ε (Option Nat) := do
  let isNeeded ← index needed dep
  if isNeeded then
    let path ← index longestPath dep
    pure (some (best.elim path (max · path)))
  else pure best

/-- The body of the loop of `finalize`, on the nodes, `longest_path` and `critical_path_time`. -/
def finalizeBody {ε : Type} (r : TraceObserver) (dag : Dag K O E ω) (needed : List Bool)
    (acc : List (NodeTrace K) × List Nat × Nat) (id : NodeId) : Outcome ε (List (NodeTrace K) × List Nat × Nat) := do
  let isNeeded ← index needed id
  if isNeeded then
    let started ← index r.startedAt id
    let startedAt := started.getD 0
    let finished ← index r.finishedAt id
    let finishedAt := finished.getD startedAt
    let runDuration := finishedAt - startedAt
    let nd ← index dag.nodes id
    let parentCp ← nd.deps.foldlM (parentBody needed acc.2.1) none
    let longestPath ← store acc.2.1 id (parentCp.getD 0 + runDuration)
    let path ← index longestPath id
    let ready ← index r.readyAt id
    let workerId ← index r.workerId id
    pure (acc.1 ++ [{
      nodeId := id
      key := nd.key
      kind := nd.kind.traceKind
      deps := nd.deps
      readyAt := ready.getD 0
      startedAt := startedAt
      finishedAt := finishedAt
      runDuration := runDuration
      workerId := workerId }], longestPath, max acc.2.2 path)
  else pure acc

def finalize {ε : Type} (r : TraceObserver) (dag : Dag K O E ω) (needed : List Bool) : Outcome ε (ExecutionTrace K) := do
  let wallTime := r.elapsed
  let acc ← r.executionOrder.foldlM (finalizeBody r dag needed) ([], List.replicate dag.nodes.length 0, 0)
  pure {
    nodes := acc.1
    wallTime := wallTime
    criticalPathTime := acc.2.2
    maxFrontierWidth := r.maxFrontierWidth
    executedNodes := acc.1.length }

end TraceObserver

/-- What both `run_traced` make of the result and the observer of a run. -/
def finishTraced [DecidableEq K] (dag : Dag K O E ω) (outKeys : List K) (observer : TraceObserver)
    (artifacts : List (Option O) × List Bool) : Outcome (ExecError K E) (TracedExecution K O) := do
  let outputs ← collectOutputs dag outKeys artifacts.1
  let trace ← observer.finalize dag artifacts.2
  pure ⟨outputs, trace⟩

/-- `Executor::run_sequential_traced`. -/
def runSequentialTraced [DecidableEq K] (dag : Dag K O E ω) (outKeys : List K) (env : Nat → ω) (clock : Nat → Nat) :
    Outcome (ExecError K E) (TracedExecution K O) :=
  let ex := execute dag outKeys env (TraceObserver.new clock dag.nodes.length)
  ex.result >>= finishTraced dag outKeys ex.observer

/-- A completed run of `Executor::run_parallel_traced`: what it returned, and its events. -/
inductive RunParallelTraced [DecidableEq K] (dag : Dag K O E ω) (cfg : ExecutorConfig) (outKeys : List K)
    (clock : Nat → Nat) : Outcome (ExecError K E) (TracedExecution K O) → List (Event O E) → Prop
  | rejected {e : ExecError K E} (h : parStart dag cfg outKeys (TraceObserver.new clock dag.nodes.length) = .err e) :
      RunParallelTraced dag cfg outKeys clock (.err e) []
  | failed {ctx : Ctx K O E ω} {s : State K O E ω TraceObserver} {e : ExecError K E}
      (h : Runs dag cfg outKeys (TraceObserver.new clock dag.nodes.length) ctx s) (hpc : s.pc = .returned (.error e)) :
      RunParallelTraced dag cfg outKeys clock (.err e) s.log
  | completed {ctx : Ctx K O E ω} {s : State K O E ω TraceObserver} {artifacts : List (Option O) × List Bool}
      (h : Runs dag cfg outKeys (TraceObserver.new clock dag.nodes.length) ctx s)
      (hpc : s.pc = .returned (.ok artifacts)) :
      RunParallelTraced dag cfg outKeys clock (finishTraced dag outKeys s.observer artifacts) s.log

end DagExec
