import DagExec.Model.Common
import DagExec.Lib.Machine
import Mathlib.Algebra.GroupWithZero.Nat

/-!
# The parallel executor: `parallel.rs`

The scheduler thread and the workers are one machine: an action is a step of the scheduler or of a worker. What the
threads share are the task channels (one bounded queue for each worker) and the result channel; a step touches a
channel at most once, so every interleaving of the threads is a list of actions.

A `Worker` is a thread with its task channel. A panic unwinds the thread: it drops the receiver with whatever is queued
in it and its clone of the result sender. `log` is not a local of the source: it records the dispatches, the calls of
task functions and the received results, in the order they happen.
-/

namespace DagExec

open Outcome

variable {K O E ω R : Type}

/-! ## Tasks, channels and workers -/

structure Task (O E ω : Type) where
  id : NodeId
  func : TaskFn O E ω
  args : List O

structure TaskResult (O E : Type) where
  id : NodeId
  out : Except E O

/-- Where a worker's thread is. `panicked` keeps the tasks that went down with it: the one that panicked, then those
queued behind it. -/
inductive WorkerStatus (O E ω : Type)
  | waiting
  | running (task : Task O E ω)
  | exited
  | panicked (lost : List (Task O E ω))

/-- A worker and its task channel; `txOpen` says whether the scheduler still holds the sender. -/
structure Worker (O E ω : Type) where
  queue : List (Task O E ω)
  txOpen : Bool
  status : WorkerStatus O E ω

/-- The thread has ended: its task receiver and its clone of the result sender are dropped. -/
def WorkerStatus.gone : WorkerStatus O E ω → Bool
  | waiting => false
  | running _ => false
  | exited => true
  | panicked _ => true

inductive TrySend (O E ω : Type)
  | sent (worker : Worker O E ω)
  | full
  | disconnected

/-- `SyncSender::try_send` on the worker's channel of the given capacity. -/
def Worker.trySend (cap : Nat) (wk : Worker O E ω) (task : Task O E ω) : TrySend O E ω :=
  if wk.status.gone then .disconnected
  else if wk.queue.length < cap then .sent { wk with queue := wk.queue ++ [task] }
  else .full

/-- A freshly spawned worker. -/
def Worker.spawned : Worker O E ω := ⟨[], true, .waiting⟩

/-- What can be seen of a run: a dispatch, a call of a task function, a received result. -/
inductive Event (O E : Type)
  | dispatched (worker : Nat) (id : NodeId)
  | called (worker : Nat) (id : NodeId) (args : List O)
  | received (res : TaskResult O E)

/-! ## The state -/

/-- What `run_with_observer` returns. -/
abbrev Ret (K O E : Type) := Except (ExecError K E) (List (Option O) × List Bool)

/-- Where the scheduler is. -/
inductive Pc (K O E ω : Type)
  /-- `while processed < needed_count` -/
  | outer
  /-- `while in_flight < effective_cap` -/
  | inner
  /-- in `dispatch_task_try` with that many attempts left -/
  | dispatch (task : Task O E ω) (left : Nat)
  /-- `if in_flight == 0` -/
  | check
  /-- `res_rx.recv()` -/
  | recv
  /-- `WorkerPool::drop` closing the task senders, the `i`-th next -/
  | close (i : Nat) (ret : Ret K O E)
  /-- `WorkerPool::drop` joining the workers, the `i`-th next -/
  | join (i : Nat) (ret : Ret K O E)
  | returned (ret : Ret K O E)
  | panicked (p : Panic)

/-- The locals of `run_with_observer` that stay fixed once the pool is spawned. -/
structure Ctx (K O E ω : Type) where
  plan : Plan K O E ω
  queueCap : Nat
  effectiveCap : Nat

structure State (K O E ω R : Type) where
  vals : List (Option O)
  indeg : List Nat
  ready : List NodeId
  processed : Nat
  inFlight : Nat
  nextWorker : Nat
  pending : Option (Task O E ω)
  observer : R
  workers : List (Worker O E ω)
  results : List (TaskResult O E)
  resRx : Bool
  pc : Pc K O E ω
  log : List (Event O E)

/-! ## The scheduler -/

section Scheduler

variable [ExecObserver R]

/-- `release_dependents`: the loop body of `sequential.rs` behind a debug assertion. -/
def releaseDependents {ε : Type} (dependents : List (List NodeId)) (indeg : List Nat) (ready : List NodeId)
    (src : NodeId) (observer : R) : Outcome ε (List Nat × List NodeId × R) := do
  let dsts ← index dependents src
  dsts.foldlM (fun acc dst => do
    let deg ← index acc.1 dst
    debugAssert (decide (0 < deg)) "indeg[dst.0] > 0"
    releaseBody acc dst) (indeg, ready, observer)

/-- Leave the function with a result: the locals are dropped, the pool first. -/
def State.ret (s : State K O E ω R) (r : Ret K O E) : State K O E ω R := { s with pc := .close 0 r }

/-- `?` in the scheduler: go on, or leave the function. -/
def State.orLeave {α : Type} (s : State K O E ω R) (o : Outcome (ExecError K E) α)
    (go : α → State K O E ω R) : State K O E ω R :=
  match o with
  | .ok a => go a
  | .err e => s.ret (.error e)
  | .panic p => { s with pc := .panicked p }
  | .diverge => s

/-- Enter `dispatch_task_try`. -/
def State.enterDispatch (s : State K O E ω R) (task : Task O E ω) : State K O E ω R :=
  s.orLeave (debugAssert (decide (0 < s.workers.length)) "n > 0") fun _ =>
    { s with pc := .dispatch task s.workers.length }

/-- A source popped from `ready` is processed in place. -/
def State.runSource (plan : Plan K O E ω) (s : State K O E ω R) (id : NodeId) (v : O) : State K O E ω R :=
  s.orLeave (do
    let vals ← store s.vals id (some v)
    let observer := ExecObserver.markFinish id (ExecObserver.markStart id none s.observer)
    let rel ← releaseDependents plan.dependents s.indeg s.ready id observer
    pure (vals, rel)) fun a =>
    { s with
      vals := a.1, processed := s.processed + 1, indeg := a.2.1, ready := a.2.2.1, observer := a.2.2.2, pc := .inner }

/-- A node popped from `ready`. -/
def State.runNode (plan : Plan K O E ω) (s : State K O E ω R) (id : NodeId) : State K O E ω R :=
  s.orLeave (index plan.dag.nodes id) fun nd =>
    match nd.kind with
    | .source v => s.runSource plan id v
    | .task f => s.orLeave (gatherArgs s.vals nd.deps) fun args => s.enterDispatch ⟨id, f, args⟩

/-- The body of the inner loop up to the dispatch: the pending task first, then the ready queue. -/
def State.pickNext (plan : Plan K O E ω) (s : State K O E ω R) : State K O E ω R :=
  match s.pending with
  | some task => { s with pending := none }.enterDispatch task
  | none =>
    match s.ready with
    | [] => { s with pc := .check }
    | id :: ready => { s with ready := ready }.runNode plan id

/-- One attempt of `dispatch_task_try`. -/
def State.attempt (ctx : Ctx K O E ω) (s : State K O E ω R) (task : Task O E ω) (left : Nat) : State K O E ω R :=
  let idx := s.nextWorker % s.workers.length
  let s := { s with nextWorker := idx + 1 }
  s.orLeave (index s.workers idx) fun wk =>
    match wk.trySend ctx.queueCap task with
    | .sent wk' =>
      { s with
        workers := s.workers.set idx wk', inFlight := s.inFlight + 1,
        observer := ExecObserver.markStart task.id (some idx) s.observer,
        log := s.log ++ [.dispatched idx task.id], pc := .inner }
    | .full => { s with pc := .dispatch task left }
    | .disconnected => s.ret (.error (.internalInvariant "worker task channel disconnected"))

/-- After the inner loop: something is in flight, or a cycle is reported. -/
def State.checkCycle (plan : Plan K O E ω) (s : State K O E ω R) : State K O E ω R :=
  if s.inFlight = 0 then
    s.orLeave (remainingKeys plan.dag plan.needed s.indeg) fun remaining => s.ret (.error (.cycle remaining))
  else { s with pc := .recv }

/-- A task's value has arrived: record it and propagate. -/
def State.complete (plan : Plan K O E ω) (s : State K O E ω R) (id : NodeId) (v : O) : State K O E ω R :=
  s.orLeave (do
    let slot ← index s.vals id
    debugAssert slot.isNone "vals[id.0].is_none()"
    let vals ← store s.vals id (some v)
    let rel ← releaseDependents plan.dependents s.indeg s.ready id s.observer
    pure (vals, rel)) fun a =>
    { s with
      vals := a.1, processed := s.processed + 1, indeg := a.2.1, ready := a.2.2.1, observer := a.2.2.2, pc := .outer }

/-- A result taken from the result channel. -/
def State.receive (plan : Plan K O E ω) (s : State K O E ω R) (res : TaskResult O E) : State K O E ω R :=
  s.orLeave (decrement s.inFlight) fun inFlight =>
    let s := { s with
      inFlight := inFlight, observer := ExecObserver.markFinish res.id s.observer, log := s.log ++ [Event.received res] }
    match res.out with
    | .ok v => s.complete plan res.id v
    | .error e => s.orLeave (index plan.dag.nodes res.id) fun nd => s.ret (.error (.taskFailed nd.key e))

/-- `let task_res = res_rx.recv()?`, which blocks while the channel is empty and a sender is left. -/
def State.recv (plan : Plan K O E ω) (s : State K O E ω R) : Option (State K O E ω R) :=
  match s.results with
  | res :: results => some ({ s with results := results }.receive plan res)
  | [] =>
    if s.workers.all fun wk => wk.status.gone then
      some (s.ret (.error (.internalInvariant "result channel disconnected")))
    else none

/-- Drop the `i`-th task sender. -/
def State.closeTx (s : State K O E ω R) (i : Nat) (r : Ret K O E) : State K O E ω R :=
  match s.workers[i]? with
  | some wk => { s with workers := s.workers.set i { wk with txOpen := false }, pc := .close (i + 1) r }
  | none => { s with pc := .join 0 r }

/-- Join the `i`-th worker, which blocks until its thread has ended. Then `res_rx` is dropped, with whatever is left in
the channel. -/
def State.joinWorker (s : State K O E ω R) (i : Nat) (r : Ret K O E) : Option (State K O E ω R) :=
  match s.workers[i]? with
  | some wk => if wk.status.gone then some { s with pc := .join (i + 1) r } else none
  | none => some { s with resRx := false, pc := .returned r }

/-- The scheduler's next step, `none` while it is blocked or done. -/
def State.schedule (ctx : Ctx K O E ω) (s : State K O E ω R) : Option (State K O E ω R) :=
  match s.pc with
  | .outer =>
    if s.processed < ctx.plan.neededCount then some { s with pc := .inner }
    else some (s.ret (.ok (s.vals, ctx.plan.needed)))
  | .inner => if s.inFlight < ctx.effectiveCap then some (s.pickNext ctx.plan) else some { s with pc := .check }
  | .dispatch task (left + 1) => some (s.attempt ctx task left)
  | .dispatch task 0 => some { s with pending := some task, pc := .check }
  | .check => some (s.checkCycle ctx.plan)
  | .recv => s.recv ctx.plan
  | .close i r => some (s.closeTx i r)
  | .join i r => s.joinWorker i r
  | .returned _ => none
  | .panicked _ => none

end Scheduler

/-! ## The workers -/

/-- `res_tx.send(TaskResult { .. })`: a worker whose scheduler went away leaves its loop. -/
def State.send (s : State K O E ω R) (w : Nat) (wk : Worker O E ω) (res : TaskResult O E) : State K O E ω R :=
  if s.resRx then
    { s with workers := s.workers.set w { wk with status := .waiting }, results := s.results ++ [res] }
  else { s with workers := s.workers.set w { wk with queue := [], status := .exited } }

/-- The next step of a worker: take a task and call its function, or end the loop, or return from the call. -/
def State.work (s : State K O E ω R) (w : Nat) (env : ω) : Option (State K O E ω R) :=
  match s.workers[w]? with
  | none => none
  | some wk =>
    match wk.status with
    | .waiting =>
      match wk.queue with
      | task :: queue =>
        some { s with
          workers := s.workers.set w { wk with queue := queue, status := .running task },
          log := s.log ++ [.called w task.id task.args] }
      | [] => if wk.txOpen then none else some { s with workers := s.workers.set w { wk with status := .exited } }
    | .running task =>
      match task.func env task.args with
      | .ok v => some (s.send w wk ⟨task.id, .ok v⟩)
      | .err e => some (s.send w wk ⟨task.id, .error e⟩)
      | .panic =>
        some { s with workers := s.workers.set w { wk with queue := [], status := .panicked (task :: wk.queue) } }
    | .exited => none
    | .panicked _ => none

/-! ## Runs -/

inductive Action (ω : Type)
  | scheduler
  | worker (w : Nat) (env : ω)

def step [ExecObserver R] (ctx : Ctx K O E ω) : Action ω → State K O E ω R → Option (State K O E ω R)
  | .scheduler, s => s.schedule ctx
  | .worker w env, s => s.work w env

/-- The largest `usize`. -/
def usizeMax : Nat := 2 ^ 64 - 1

def saturatingAdd (a b : Nat) : Nat := min usizeMax (a + b)

def saturatingMul (a b : Nat) : Nat := min usizeMax (a * b)

/-- `pool.senders()` right after `WorkerPool::spawn`, while `task_txs` is still `Some`. -/
def senders (taskTxs : Option (List (Worker O E ω))) : Option (List (Worker O E ω)) := taskTxs

/-- Everything up to the outer loop: the checks, the preparation, the pool. Limits of allocation are left out: in the source a
huge `worker_queue_cap` or `max_workers` panics in `WorkerPool::spawn` with "capacity overflow". -/
def parStart [ExecObserver R] (dag : Dag K O E ω) (cfg : ExecutorConfig) (outKeys : List K) (observer : R) :
    Outcome (ExecError K E) (Ctx K O E ω × State K O E ω R) :=
  if outKeys.isEmpty then .err (.internalInvariant "outputs must be non-empty")
  else if cfg.maxWorkers = 0 then .err (.internalInvariant "max_workers must be > 0")
  else if cfg.maxInFlight = 0 then .err (.internalInvariant "max_in_flight must be > 0")
  else if cfg.workerQueueCap = 0 then .err (.internalInvariant "worker_queue_cap must be > 0")
  else do
    let p ← prepare dag outKeys observer
    let workers ← okOr (senders (some (List.replicate cfg.maxWorkers Worker.spawned)))
      (.internalInvariant "worker pool is closed")
    let physicalMax := saturatingMul workers.length (saturatingAdd cfg.workerQueueCap 1)
    pure ({ plan := p.plan, queueCap := cfg.workerQueueCap, effectiveCap := min cfg.maxInFlight physicalMax }, {
      vals := p.vals
      indeg := p.indeg
      ready := p.ready
      processed := 0
      inFlight := 0
      nextWorker := 0
      pending := none
      observer := p.observer
      workers := workers
      results := []
      resRx := true
      pc := .outer
      log := [] })

/-- `s` is a state of a run of `run_with_observer`, under some interleaving. -/
def Runs [ExecObserver R] (dag : Dag K O E ω) (cfg : ExecutorConfig) (outKeys : List K) (observer : R)
    (ctx : Ctx K O E ω) (s : State K O E ω R) : Prop :=
  ∃ s0, parStart dag cfg outKeys observer = .ok (ctx, s0) ∧ Machine.Reach (step ctx) s0 s

/-- `collect_outputs` on what `run_with_observer` returned. -/
def finishRun [DecidableEq K] (dag : Dag K O E ω) (outKeys : List K) : Ret K O E → Outcome (ExecError K E) (HashMap K O)
  | .ok artifacts => collectOutputs dag outKeys artifacts.1
  | .error e => .err e

def WorkerStatus.isPanicked : WorkerStatus O E ω → Bool
  | panicked _ => true
  | _ => false

/-- Some task function has panicked. -/
def State.panics (s : State K O E ω R) : Bool := s.workers.any fun wk => wk.status.isPanicked

/-- A completed run of `Executor::run_parallel`: whether some task function panicked in it, what it returned, and its
events. A run that is rejected before the pool is spawned has no events. -/
inductive RunParallel [DecidableEq K] (dag : Dag K O E ω) (cfg : ExecutorConfig) (outKeys : List K) :
    Bool → Outcome (ExecError K E) (HashMap K O) → List (Event O E) → Prop
  | rejected {e : ExecError K E} (h : parStart dag cfg outKeys () = .err e) :
      RunParallel dag cfg outKeys false (.err e) []
  | completed {ctx : Ctx K O E ω} {s : State K O E ω Unit} {ret : Ret K O E} (h : Runs dag cfg outKeys () ctx s)
      (hpc : s.pc = .returned ret) : RunParallel dag cfg outKeys s.panics (finishRun dag outKeys ret) s.log

end DagExec
