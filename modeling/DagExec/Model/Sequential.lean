import DagExec.Model.Common

/-!
# The sequential executor: `sequential.rs`

The loop runs over an explicit state. `calls` is not a local of the source: it lists the task functions invoked so
far, with their arguments, in order. `env n` is the environment the closure called at the `n`-th pop reads.
-/

namespace DagExec

open Outcome WhileLoop

variable {K O E ω R : Type} [ExecObserver R]

/-- An invocation of a node's task function. -/
structure Invocation (O : Type) where
  id : NodeId
  args : List O

structure SeqState (O R : Type) where
  vals : List (Option O)
  indeg : List Nat
  q : List NodeId
  processed : Nat
  observer : R
  calls : List (Invocation O)

/-- `f(&args).map_err(|e| TaskFailed { task, error })?`. -/
def Call.toOutcome (task : K) : Call O E → Outcome (ExecError K E) O
  | ok v => .ok v
  | err e => .err (.taskFailed task e)
  | panic => .panic .taskPanicked

/-- The `match` on the node's kind: the node's value, and the state with the invocation recorded. -/
def seqCompute (plan : Plan K O E ω) (env : Nat → ω) (id : NodeId) (s : SeqState O R) :
    Outcome (ExecError K E) O × SeqState O R :=
  match index plan.dag.nodes id with
  | .ok nd =>
    match nd.kind with
    | .source v => (.ok v, s)
    | .task f =>
      match gatherArgs s.vals nd.deps with
      | .ok args => ((f (env s.processed) args).toOutcome nd.key, { s with calls := s.calls ++ [⟨id, args⟩] })
      | .err e => (.err e, s)
      | .panic p => (.panic p, s)
      | .diverge => (.diverge, s)
  | .err e => (.err e, s)
  | .panic p => (.panic p, s)
  | .diverge => (.diverge, s)

/-- Store the value, `mark_finish`, release the dependents. -/
def seqFinish (plan : Plan K O E ω) (id : NodeId) (s : SeqState O R) (v : O) :
    Outcome (ExecError K E) (SeqState O R) := do
  let vals ← store s.vals id (some v)
  let dsts ← index plan.dependents id
  let rel ← dsts.foldlM releaseBody (s.indeg, s.q, ExecObserver.markFinish id s.observer)
  pure { s with vals := vals, indeg := rel.1, q := rel.2.1, observer := rel.2.2 }

/-- The body of the main loop. -/
def seqBody (plan : Plan K O E ω) (env : Nat → ω) (s : SeqState O R) :
    Ctl (SeqState O R) (Outcome (ExecError K E) Unit × SeqState O R) :=
  match s.q with
  | [] => .done (.ok (), s)
  | id :: q =>
    let popped := { s with q := q, processed := s.processed + 1, observer := ExecObserver.markStart id none s.observer }
    let computed := seqCompute plan env id popped
    match computed.1 >>= seqFinish plan id computed.2 with
    | .ok s' => .next s'
    | .err e => .done (.err e, computed.2)
    | .panic p => .done (.panic p, computed.2)
    | .diverge => .done (.diverge, computed.2)

/-- After the loop: everything needed was processed, or a cycle is reported. -/
def seqVerdict (plan : Plan K O E ω) (s : SeqState O R) : Outcome (ExecError K E) (List (Option O) × List Bool) :=
  if s.processed ≠ plan.neededCount then do
    let remaining ← remainingKeys plan.dag plan.needed s.indeg
    .err (.cycle remaining)
  else .ok (s.vals, plan.needed)

/-- What a call of `execute` returns and leaves behind. -/
structure Executed (K O E R : Type) where
  result : Outcome (ExecError K E) (List (Option O) × List Bool)
  observer : R
  calls : List (Invocation O)

/-- Up to the main loop. -/
def seqStart (dag : Dag K O E ω) (outKeys : List K) (observer : R) : Outcome (ExecError K E) (Prepared K O E ω R) :=
  if outKeys.isEmpty then .err (.internalInvariant "outputs must be non-empty") else prepare dag outKeys observer

/-- The state at the top of the main loop for the first time. -/
def Prepared.seqState (p : Prepared K O E ω R) : SeqState O R where
  vals := p.vals
  indeg := p.indeg
  q := p.ready
  processed := 0
  observer := p.observer
  calls := []

/-- `execute`. -/
def execute (dag : Dag K O E ω) (outKeys : List K) (env : Nat → ω) (observer : R) : Executed K O E R :=
  match seqStart dag outKeys observer with
  | .ok p =>
    match loop (seqBody p.plan env) p.seqState with
    | some (o, s) => ⟨o >>= fun _ => seqVerdict p.plan s, s.observer, s.calls⟩
    | none => ⟨.diverge, observer, []⟩
  | .err e => ⟨.err e, observer, []⟩
  | .panic p => ⟨.panic p, observer, []⟩
  | .diverge => ⟨.diverge, observer, []⟩

/-- `run`, which is `Executor::run_sequential`: the result, and the task functions invoked. -/
def runSequential [DecidableEq K] (dag : Dag K O E ω) (outKeys : List K) (env : Nat → ω) :
    Outcome (ExecError K E) (HashMap K O) × List (Invocation O) :=
  let ex := execute dag outKeys env ()
  (ex.result >>= fun artifacts => collectOutputs dag outKeys artifacts.1, ex.calls)

end DagExec
