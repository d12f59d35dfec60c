import DagExec.Trace.Timeline
import DagExec.Par.Observed
import DagExec.Par.Hooks
import DagExec.Par.Shutdown

/-!
# Traced runs

Whatever the schedule, the observer of a run that returns `Ok` has been told the whole life of every needed node, so its
trace is `Traced`. From it, for both executors:

- `trace_wellformed`: traces are complete, topological and consistent in time, and name the workers that ran the tasks;
- `frontier_independent`: only independent nodes are ever in progress together, which bounds the frontier width;
- `critical_path_exact`: the critical path time is the length of a longest dependency path;
- `critical_path_in_time`: for a monotone clock it does not exceed the wall time;
- `tracing_changes_nothing`: a traced run returns what an untraced one does, after the same events.
-/

namespace DagExec

open Outcome Lifecycle

variable {K O E ω R : Type} {dag : Dag K O E ω} {outs : List K} {clock : Nat → Nat}

theorem Dag.exists_needed (hne : outs ≠ []) (hk : dag.KeysExist outs) : ∃ i, dag.Needed outs i := by
  obtain ⟨k, hmem⟩ := List.exists_mem_of_ne_nil outs hne
  obtain ⟨i, hi⟩ := hk k hmem
  exact ⟨i, DepGraph.Closure.base ⟨k, hmem, hi⟩⟩

/-- The seeded nodes are the needed nodes without dependencies. -/
theorem Plan.Good.roots {plan : Plan K O E ω} (hg : plan.Good outs) : plan.seeds.length = (plan.dag.Roots outs).ncard := by
  have hnd : plan.seeds.Nodup := (pickIds_sorted _ _).imp fun h => Nat.ne_of_lt h
  have hset : plan.dag.Roots outs = (plan.seeds.toFinset : Set NodeId) := Set.ext fun i => by
    simp only [Finset.mem_coe, List.mem_toFinset, Plan.seeds, mem_pickIds, List.isEmpty_iff]
    exact and_congr_left fun _ => (hg.needed i).symm
  rw [hset, Set.ncard_coe_finset, List.toFinset_card_of_nodup hnd]

/-- When every needed node is processed, the calls are complete. -/
theorem Told.complete {plan : Plan K O E ω} {vals : List (Option O)} {indeg : List Nat} {opn : NodeId → Nat}
    {S F : NodeId → Prop} {hooks : List Hook} (h : Told plan outs indeg S F hooks) (hg : plan.Good outs)
    (hb : Books plan vals indeg opn) (hne : ∃ i, plan.dag.Needed outs i)
    (hall : ∀ i, plan.dag.Needed outs i → isDone vals i = true) (hS : ∀ i, S i ↔ plan.dag.Needed outs i)
    (hF : ∀ i, F i ↔ plan.dag.Needed outs i) : Complete plan.dag outs plan.needed hooks := by
  refine ⟨hg.needed, h.lawful, fun phase i => ?_, hne, ⟨_, h.seeded, hg.roots⟩, h.width⟩
  cases phase with
  | ready =>
    rw [h.ready, hg.needed]
    refine ⟨And.left, fun hi => ⟨hi, ?_⟩⟩
    have hp := hb.ledger.place i
    rw [hall i hi, (hg.needed i).mpr hi, Bool.toNat_true] at hp
    omega
  | start => rw [h.start, hS]
  | finish => rw [h.finish, hF]

/-- When every needed node is processed and the log of calls is complete, the outputs are collected and the trace is
made. -/
theorem Complete.traced [DecidableEq K] {needed : List Bool} {hooks : List Hook} {vals : List (Option O)}
    (h : Complete dag outs needed hooks) (hk : dag.KeysExist outs)
    (hall : ∀ i, dag.Needed outs i → isDone vals i = true) {r : TraceObserver}
    (hr : r = replay hooks (TraceObserver.new clock dag.nodes.length)) :
    ∃ t, (finishTraced dag outs r (vals, needed) : Outcome (ExecError K E) _) = ok t ∧
      Traced dag outs clock needed hooks r t.trace := by
  have hs : Stamps clock dag.nodes.length hooks r := by
    rw [hr]
    apply Stamps.replay h.lawful
    intro x hx
    have hmem : (x.note.1, x.note.2) ∈ hooks.map Hook.note := List.mem_map_of_mem hx
    exact ((h.all _ _).mp hmem).lt
  obtain ⟨m, hm, -⟩ := collect_of_done hk hall
  obtain ⟨tr, htr, hrep⟩ := finalize_ok (ε := ExecError K E) h hs
  refine ⟨⟨m, tr⟩, ?_, h, hs, hrep⟩
  simp only [finishTraced, hm, ok_bind, htr, pure_eq]

/-! ## Sequential runs -/

/-- **A sequential run that returns is traced**: making the trace never fails. -/
theorem execute_traced [DecidableEq K] {env : Nat → ω} {artifacts : List (Option O) × List Bool}
    (h : (execute dag outs env (TraceObserver.new clock dag.nodes.length)).result = ok artifacts) :
    ∃ t hooks, runSequentialTraced dag outs env clock = ok t ∧ Traced dag outs clock artifacts.2 hooks
        (execute dag outs env (TraceObserver.new clock dag.nodes.length)).observer t.trace ∧
      ∀ i worker, .start i worker ∈ hooks → worker = none := by
  obtain ⟨hne, hk⟩ := execute_started h
  obtain ⟨plan, s, hreach, rfl, hobs, -, hall⟩ := execute_ok h
  obtain ⟨rfl, hg, inv⟩ := hreach.inv
  obtain ⟨hooks, hh⟩ := hreach.hooked
  have hdone : ∀ i, isDone s.vals i = true ↔ plan.dag.Needed outs i := fun i =>
    ⟨inv.books.needed_of_done hg, hall i⟩
  have hcomplete := hh.told.complete hg inv.books (Dag.exists_needed hne hk) hall hdone hdone
  obtain ⟨t, ht, htraced⟩ := hcomplete.traced hk hall (hobs.trans hh.observer)
  refine ⟨t, hooks, ?_, htraced, hh.worker⟩
  rw [runSequentialTraced, h]
  exact ht

theorem runSequentialTraced_traced [DecidableEq K] {env : Nat → ω} {t : TracedExecution K O}
    (h : runSequentialTraced dag outs env clock = ok t) : ∃ needed hooks r, Traced dag outs clock needed hooks r t.trace ∧
      ∀ i worker, .start i worker ∈ hooks → worker = none := by
  obtain ⟨artifacts, hres, -⟩ := bind_eq_ok.mp h
  obtain ⟨t', hooks, ht, htraced⟩ := execute_traced hres
  rw [h] at ht
  cases ht
  exact ⟨_, hooks, _, htraced⟩

/-! ## Parallel runs -/

section Parallel

variable [ExecObserver R] {ctx : Ctx K O E ω} {cfg : ExecutorConfig} {s : State K O E ω R} {observer : R}

/-- A run that returns `Ok` has not lost a task. -/
theorem Runs.no_panic_of_ok (h : Runs dag cfg outs observer ctx s) {a : List (Option O) × List Bool}
    (hpc : s.pc = .returned (.ok a)) : s.panics = false := by
  have hout : s.outstanding = [] := h.outstanding_of_ok (by rw [hpc]; rfl)
  refine List.any_eq_false.mpr fun wk hwk hpan => (h.inv.pool.worker wk hwk).lost hpan ?_
  refine List.eq_nil_iff_forall_not_mem.mpr fun t ht => ?_
  have hmem : t.id ∈ s.outstanding := State.mem_outstanding.mpr (.inl ⟨t, State.mem_tasks.mpr ⟨wk, hwk, ht⟩, rfl⟩)
  rw [hout] at hmem
  cases hmem

/-- A run that returns `Ok` has ended every needed node and no other. -/
theorem Runs.ended_iff (h : Runs dag cfg outs observer ctx s) (hall : ∀ i, dag.Needed outs i → isDone s.vals i = true)
    (i : NodeId) : s.Ended i ↔ dag.Needed outs i := by
  have hg := h.good
  constructor
  · rintro (hd | hf)
    · obtain ⟨dropped, hacct, -⟩ := h.inv.account
      exact hg.dag_eq ▸ hacct.books.needed_of_done hg.plan hd
    · exact (h.of_open (State.away_sub_open (List.mem_append_right _ hf))).1
  · exact fun hi => .inl (hall i hi)

/-- What a worker has been sent by the end, it has called, and no other worker has. -/
theorem Runs.dispatched_called (h : Runs dag cfg outs observer ctx s) {ret : Ret K O E} (hpc : s.pc = .returned ret)
    (hno : s.panics = false) {w : Nat} {i : NodeId} (hd : .dispatched w i ∈ s.log) :
    (∃ f, dag.IsTask i f) ∧ ∃ args, .called w i args ∈ s.log ∧
      ∀ w' args', .called w' i args' ∈ s.log → w' = w ∧ args' = args := by
  have hcalled := mem_dispatchedTo.mpr hd
  rw [h.delivered_returned hpc hno w] at hcalled
  have htask := (h.called_needed (calledBy_sub_called hcalled)).2
  obtain ⟨ev, hev, hi⟩ := List.mem_filterMap.mp hcalled
  cases ev with
  | called w₁ id args =>
    simp only [Event.calledBy] at hi
    split at hi <;> cases hi
    rename_i hw
    subst hw
    refine ⟨htask, args, hev, fun w' args' hev' => ?_⟩
    have heq := ListFacts.eq_of_filterMap_nodup h.called_nodup hev' hev rfl rfl
    cases heq
    exact ⟨rfl, rfl⟩
  | _ => cases hi

end Parallel

/-- **A parallel run that returns is traced**: making the trace never fails. -/
theorem Runs.traced [DecidableEq K] {ctx : Ctx K O E ω} {cfg : ExecutorConfig} {s : State K O E ω TraceObserver}
    (hrun : Runs dag cfg outs (TraceObserver.new clock dag.nodes.length) ctx s)
    {artifacts : List (Option O) × List Bool} (hpc : s.pc = .returned (.ok artifacts)) :
    ∃ t hooks, (finishTraced dag outs s.observer artifacts : Outcome (ExecError K E) _) = ok t ∧
      Traced dag outs clock artifacts.2 hooks s.observer t.trace ∧
      ∀ i worker, .start i worker ∈ hooks → (worker = none ∧ dag.IsSource i) ∨
        ((∃ f, dag.IsTask i f) ∧ ∃ w, w < cfg.maxWorkers ∧ worker = some w ∧ ∃ args, .called w i args ∈ s.log ∧
          ∀ w' args', .called w' i args' ∈ s.log → w' = w ∧ args' = args) := by
  have hg := hrun.good
  obtain rfl := hg.dag_eq
  obtain ⟨hooks, hh⟩ := hrun.hooked
  obtain ⟨dropped, hacct, -⟩ := hrun.inv.account
  cases hrun.verdict hpc with
  | ok hcount =>
    have hall := hrun.all_done hcount
    have hended := hrun.ended_iff hall
    have hout : s.outstanding = [] := hrun.outstanding_of_ok (by rw [hpc]; rfl)
    have hbegun : ∀ i, s.Begun i ↔ ctx.plan.dag.Needed outs i := fun i => by
      unfold State.Begun
      rw [hended, hout]
      simp
    have hcomplete := hh.told.complete hg.plan hacct.books (Dag.exists_needed hg.nonempty hg.keys) hall hbegun hended
    obtain ⟨t, ht, htraced⟩ := hcomplete.traced hg.keys hall hh.observer
    refine ⟨t, hooks, ht, htraced, fun i worker hmem => ?_⟩
    apply (hh.worker i worker hmem).imp_right
    rintro ⟨w, hw, he, hd⟩
    obtain ⟨htask, hcalled⟩ := hrun.dispatched_called hpc (hrun.no_panic_of_ok hpc) hd
    exact ⟨htask, w, hw, he, hcalled⟩

theorem runParallelTraced_traced [DecidableEq K] {cfg : ExecutorConfig} {t : TracedExecution K O} {log : List (Event O E)}
    (h : RunParallelTraced dag cfg outs clock (ok t) log) : ∃ needed hooks r, Traced dag outs clock needed hooks r t.trace ∧
      ∀ i worker, .start i worker ∈ hooks → (worker = none ∧ dag.IsSource i) ∨
        ((∃ f, dag.IsTask i f) ∧ ∃ w, w < cfg.maxWorkers ∧ worker = some w ∧ ∃ args, .called w i args ∈ log ∧
          ∀ w' args', .called w' i args' ∈ log → w' = w ∧ args' = args) := by
  generalize hr : (ok t : Outcome (ExecError K E) _) = res at h
  cases h with
  | rejected => cases hr
  | failed => cases hr
  | completed hrun hpc =>
    obtain ⟨t', hooks, ht, htraced⟩ := hrun.traced hpc
    rw [ht] at hr
    cases hr
    exact ⟨_, hooks, _, htraced⟩

/-! ## The results -/

/-- **Traces are complete, topological and consistent in time.** When a traced run returns `Ok`, under any schedule, its
trace has one entry for each needed node and no other, after those of the node's dependencies; for a monotone clock each
node is ready, started and finished in this order, after its dependencies have finished and before the wall time ends. A
sequential trace names no worker. A parallel trace names none for a source, and for a task the one that ran it. -/
theorem trace_wellformed [DecidableEq K] (dag : Dag K O E ω) (outs : List K) (clock : Nat → Nat) :
    (∀ env t, runSequentialTraced dag outs env clock = ok t →
      WellTraced dag outs clock t.trace ∧ ∀ e ∈ t.trace.nodes, e.workerId = none) ∧
    ∀ cfg t log, RunParallelTraced dag cfg outs clock (ok t) log → WellTraced dag outs clock t.trace ∧
      ∀ e ∈ t.trace.nodes, (dag.IsSource e.nodeId → e.workerId = none) ∧
        ∀ f, dag.IsTask e.nodeId f → ∃ w, w < cfg.maxWorkers ∧ e.workerId = some w ∧
          ∃ args, .called w e.nodeId args ∈ log ∧ ∀ w' args', .called w' e.nodeId args' ∈ log → w' = w ∧ args' = args := by
  have hworker : ∀ {needed hooks r} {tr : ExecutionTrace K}, Traced dag outs clock needed hooks r tr → ∀ e ∈ tr.nodes,
      .start e.nodeId e.workerId ∈ hooks := by
    intro needed hooks r tr htraced e he
    have hentry := htraced.entry he
    cases hw : e.workerId with
    | some w => exact (htraced.stamps.worker _ w).mp (hw ▸ hentry.worker)
    | none =>
      -- the node has started, and not on a worker
      obtain ⟨x, hx, hnote⟩ := List.mem_map.mp ((htraced.complete.all .start _).mpr (htraced.needed_of_mem he))
      cases x with
      | start i worker =>
        cases hnote
        cases worker with
        | none => exact hx
        | some w =>
          have hslot := (htraced.stamps.worker _ w).mpr hx
          rw [hentry.worker, hw] at hslot
          cases hslot
      | _ => cases hnote
  refine ⟨fun env t h => ?_, fun cfg t log h => ?_⟩
  · obtain ⟨needed, hooks, r, htraced, hnone⟩ := runSequentialTraced_traced h
    exact ⟨htraced.wellTraced, fun e he => hnone _ _ (hworker htraced e he)⟩
  · obtain ⟨needed, hooks, r, htraced, hwhich⟩ := runParallelTraced_traced h
    refine ⟨htraced.wellTraced, fun e he => ⟨fun hsrc => ?_, fun f hf => ?_⟩⟩
    · rcases hwhich _ _ (hworker htraced e he) with ⟨hnone, -⟩ | ⟨⟨f, hf⟩, -⟩
      · exact hnone
      · exact absurd hsrc hf.not_source
    · rcases hwhich _ _ (hworker htraced e he) with ⟨-, hsrc⟩ | ⟨-, hcalled⟩
      · exact absurd hsrc hf.not_source
      · exact hcalled

/-- The nodes of `P` do not depend on each other, and everything they depend on is processed. -/
structure Apart (dag : Dag K O E ω) (P : NodeId → Prop) (vals : List (Option O)) : Prop where
  processed : ∀ i, P i → ∀ d, DepGraph.DependsOn dag.depsOf i d → isDone vals d = true
  apart : ∀ i j, P i → P j → ¬ DepGraph.DependsOn dag.depsOf i j

theorem Books.apart {plan : Plan K O E ω} {vals : List (Option O)} {indeg : List Nat} {opn : NodeId → Nat}
    (h : Books plan vals indeg opn) {P : NodeId → Prop} (hP : ∀ i, P i → 0 < opn i) : Apart plan.dag P vals where
  processed := fun _ hi _ hd => h.ledger.transitive_done (hP _ hi) hd
  apart := fun _ _ hi hj => h.ledger.independent (hP _ hi) (hP _ hj)

/-- **Only independent nodes are ever in progress together.** In every state at the top of the sequential loop this holds
of the queue, whose front is the node processed next, and in every state of a parallel run of the open nodes: those in
`ready` and `pending`, being dispatched, queued, running, lost or undelivered. So the frontier width of a run that
returns `Ok` is at least the number of needed nodes without dependencies, and at most the size of a largest set of
independent needed nodes. -/
theorem frontier_independent [DecidableEq K] (dag : Dag K O E ω) (outs : List K) :
    (∀ (R : Type) [ExecObserver R] env (observer : R) plan s, SeqReach dag outs env observer plan s →
      Apart dag (· ∈ s.q) s.vals) ∧
    (∀ (R : Type) [ExecObserver R] cfg (observer : R) ctx s, Runs dag cfg outs observer ctx s →
      Apart dag (· ∈ s.openIds) s.vals) ∧
    (∀ env clock t, runSequentialTraced dag outs env clock = ok t → (dag.Roots outs).ncard ≤ t.trace.maxFrontierWidth ∧
      t.trace.maxFrontierWidth ≤ dag.antichainWidth outs) ∧
    ∀ cfg clock t log, RunParallelTraced dag cfg outs clock (ok t) log →
      (dag.Roots outs).ncard ≤ t.trace.maxFrontierWidth ∧ t.trace.maxFrontierWidth ≤ dag.antichainWidth outs := by
  refine ⟨fun R _ env observer plan s h => ?_, fun R _ cfg observer ctx s h => ?_, fun env clock t h => ?_,
    fun cfg clock t log h => ?_⟩
  · obtain ⟨rfl, -, inv⟩ := h.inv
    exact inv.books.apart fun i hi => List.count_pos_iff.mpr hi
  · have hg := h.good
    obtain rfl := hg.dag_eq
    obtain ⟨dropped, hacct, -⟩ := h.inv.account
    exact hacct.books.apart fun i hi => List.count_pos_iff.mpr (List.mem_append_left _ hi)
  · obtain ⟨needed, hooks, r, htraced, -⟩ := runSequentialTraced_traced h
    exact ⟨htraced.roots_le, htraced.width_le⟩
  · obtain ⟨needed, hooks, r, htraced, -⟩ := runParallelTraced_traced h
    exact ⟨htraced.roots_le, htraced.width_le⟩

/-- **The reported critical path is the true one**: under any schedule it is the greatest sum of reported run durations
over the dependency paths of the needed subgraph. -/
theorem critical_path_exact [DecidableEq K] (dag : Dag K O E ω) (outs : List K) (clock : Nat → Nat) :
    (∀ env t, runSequentialTraced dag outs env clock = ok t →
      IsGreatest (dag.PathTimes outs t.trace.runDuration) t.trace.criticalPathTime) ∧
    ∀ cfg t log, RunParallelTraced dag cfg outs clock (ok t) log →
      IsGreatest (dag.PathTimes outs t.trace.runDuration) t.trace.criticalPathTime := by
  refine ⟨fun env t h => ?_, fun cfg t log h => ?_⟩
  · obtain ⟨needed, hooks, r, htraced, -⟩ := runSequentialTraced_traced h
    exact htraced.criticalPath
  · obtain ⟨needed, hooks, r, htraced, -⟩ := runParallelTraced_traced h
    exact htraced.criticalPath

/-- **The critical path never exceeds the wall time.** For a monotone clock, whatever the schedule, the trace of a run
that returns `Ok` is made by the loop of `finalize` from the run's observer, and the table the loop leaves holds for each
needed node a path that is over when the node has finished; so no sum in it exceeds the time elapsed, and neither does
the critical path, even though tasks overlap and waiting in a queue counts as running. -/
theorem critical_path_in_time [DecidableEq K] (dag : Dag K O E ω) (outs : List K) (clock : Nat → Nat)
    (hclock : Monotone clock) :
    (∀ env t, runSequentialTraced dag outs env clock = ok t → ∃ artifacts,
      (execute dag outs env (TraceObserver.new clock dag.nodes.length)).result = ok artifacts ∧ PathsInTime dag outs
        (execute dag outs env (TraceObserver.new clock dag.nodes.length)).observer artifacts.2 t.trace) ∧
    ∀ cfg t log, RunParallelTraced dag cfg outs clock (ok t) log →
      ∃ (ctx : Ctx K O E ω) (s : State K O E ω TraceObserver) (artifacts : List (Option O) × List Bool),
        Runs dag cfg outs (TraceObserver.new clock dag.nodes.length) ctx s ∧ s.pc = .returned (.ok artifacts) ∧
        PathsInTime dag outs s.observer artifacts.2 t.trace := by
  refine ⟨fun env t h => ?_, fun cfg t log h => ?_⟩
  · obtain ⟨artifacts, hres, -⟩ := bind_eq_ok.mp h
    obtain ⟨t', hooks, ht, htraced, -⟩ := execute_traced hres
    rw [h] at ht
    cases ht
    exact ⟨artifacts, hres, htraced.pathsInTime hclock⟩
  · generalize hr : (ok t : Outcome (ExecError K E) _) = res at h
    cases h with
    | rejected => cases hr
    | failed => cases hr
    | @completed ctx s artifacts hrun hpc =>
      obtain ⟨t', hooks, ht, htraced, -⟩ := hrun.traced hpc
      rw [ht] at hr
      cases hr
      exact ⟨ctx, s, artifacts, hrun, hpc, htraced.pathsInTime hclock⟩

theorem critical_path_in_time_diamond : ∃ t,
    runSequentialTraced (Dag.diamond (.ok 6)) [3] (fun _ => ()) id = ok t ∧
      t.trace.criticalPathTime ≤ t.trace.wallTime := by
  have hsame := execute_unobserved (Dag.diamond (.ok 6)) [3] (fun _ => ())
    (TraceObserver.new id (Dag.diamond (.ok 6)).nodes.length)
  have hk : (Dag.diamond (.ok 6)).KeysExist [3] := Dag.diamond_keysExist (by decide)
  obtain ⟨m, hm⟩ := runSequential_ok (by decide) hk (Dag.diamond_acyclic 6 (by decide)) (Dag.diamond_tasksSucceed 6)
    fun _ => ()
  obtain ⟨artifacts, hres, -⟩ := bind_eq_ok.mp hm
  rw [hsame] at hres
  obtain ⟨t, -, ht, -⟩ := execute_traced hres
  obtain ⟨_, -, hpaths⟩ := (critical_path_in_time _ [3] id monotone_id).1 _ t ht
  exact ⟨t, ht, hpaths.critical⟩

/-! ## Tracing changes nothing -/

/-- A traced run that returns `Ok` has collected the outputs. -/
theorem finishTraced_outputs [DecidableEq K] {r : TraceObserver} {artifacts : List (Option O) × List Bool}
    {t : TracedExecution K O} (h : (finishTraced dag outs r artifacts : Outcome (ExecError K E) _) = ok t) :
    collectOutputs dag outs artifacts.1 = (ok t.outputs : Outcome (ExecError K E) _) := by
  obtain ⟨m, hm, h⟩ := bind_eq_ok.mp h
  obtain ⟨tr, -, h⟩ := bind_eq_ok.mp h
  cases h
  exact hm

/-- **Tracing changes nothing.** `run_sequential_traced` fails as `run_sequential` does, and otherwise returns its map.
Whatever the observer, the states of parallel runs are those of runs without one; and under some schedule
`run_parallel_traced` completes with some outcome and events exactly when `run_parallel` completes, under some schedule,
with the same outcome, the trace left out, after the same events. -/
theorem tracing_changes_nothing [DecidableEq K] (dag : Dag K O E ω) (outs : List K) (clock : Nat → Nat) :
    (∀ env, (runSequential dag outs env).1 = TracedExecution.outputs <$> runSequentialTraced dag outs env clock) ∧
    (∀ (R : Type) [ExecObserver R] cfg (observer : R) ctx t, Runs dag cfg outs () ctx t ↔
      ∃ s, Runs dag cfg outs observer ctx s ∧ s.unobserved = t) ∧
    ∀ cfg r log, (∃ panics, RunParallel dag cfg outs panics r log) ↔
      ∃ t, RunParallelTraced dag cfg outs clock t log ∧ TracedExecution.outputs <$> t = r := by
  refine ⟨fun env => ?_, fun R _ cfg observer ctx t => runs_unobserved_iff observer, fun cfg r log => ⟨?_, ?_⟩⟩
  · have hsame := execute_unobserved dag outs env (TraceObserver.new clock dag.nodes.length)
    simp only [runSequential, hsame]
    cases hres : (execute dag outs env (TraceObserver.new clock dag.nodes.length)).result with
    | ok artifacts =>
      obtain ⟨t, hooks, ht, -⟩ := execute_traced hres
      rw [ht]
      rw [runSequentialTraced, hres] at ht
      exact finishTraced_outputs ht
    | _ =>
      rw [runSequentialTraced, hres]
      rfl
  · rintro ⟨panics, h⟩
    cases h with
    | @rejected e he =>
      rw [parStart_unobserved dag cfg outs (TraceObserver.new clock dag.nodes.length)] at he
      cases hs : parStart dag cfg outs (TraceObserver.new clock dag.nodes.length) with
      | err e' =>
        rw [hs] at he
        cases he
        exact ⟨_, .rejected hs, rfl⟩
      | _ => rw [hs] at he; cases he
    | @completed ctx u ret hrun hpc =>
      obtain ⟨s, hs, rfl⟩ := (runs_unobserved_iff (TraceObserver.new clock dag.nodes.length)).mp hrun
      cases ret with
      | error e => exact ⟨_, .failed hs hpc, rfl⟩
      | ok artifacts =>
        obtain ⟨t, hooks, ht, -⟩ := hs.traced hpc
        refine ⟨_, .completed hs hpc, ?_⟩
        rw [ht]
        exact (finishTraced_outputs ht).symm
  · rintro ⟨t, h, rfl⟩
    cases h with
    | @rejected e he =>
      refine ⟨false, .rejected ?_⟩
      rw [parStart_unobserved dag cfg outs (TraceObserver.new clock dag.nodes.length), he]
      rfl
    | @failed ctx s e hs hpc => exact ⟨_, .completed ((runs_unobserved_iff _).mpr ⟨s, hs, rfl⟩) hpc⟩
    | @completed ctx s artifacts hs hpc =>
      refine ⟨s.panics, ?_⟩
      obtain ⟨t, hooks, ht, -⟩ := hs.traced hpc
      have hrun := RunParallel.completed ((runs_unobserved_iff _).mpr ⟨s, hs, rfl⟩) hpc
      rw [finishRun, finishTraced_outputs ht] at hrun
      rw [ht]
      exact hrun

end DagExec
