import DagExec.Par.Start
import DagExec.Spec.Small

/-!
# Conservation of work and backpressure

- `work_conserved`: at the top of the outer and the inner loop every needed node is in exactly one place, and the
  counters say how many are where;
- `backpressure`: what is queued, running or undelivered never exceeds the effective cap, in any state of any run.
-/

namespace DagExec

variable {K O E ω R : Type}

def WorkerStatus.active : WorkerStatus O E ω → List (Task O E ω)
  | .running task => [task]
  | _ => []

namespace State

variable (s : State K O E ω R)

/-- The nodes queued at the workers. -/
def queued : List NodeId := s.workers.flatMap fun wk => wk.queue.map Task.id

/-- The nodes the workers are running. -/
def running : List NodeId := s.workers.flatMap fun wk => wk.status.active.map Task.id

/-- The nodes in the result channel. -/
def undelivered : List NodeId := s.results.map TaskResult.id

/-- In how many places node `i` is: processed, queued, running, in the result channel, parked, ready, blocked. -/
def places (i : NodeId) : Nat :=
  (isDone s.vals i).toNat + s.queued.count i + s.running.count i + s.undelivered.count i +
    (s.pending.toList.map Task.id).count i + s.ready.count i + (if 0 < counter s.indeg i then 1 else 0)

variable {s}

/-- What is queued and running is with the workers, and the rest of what is with them went down with a panic. -/
theorem queued_running_count (s : State K O E ω R) (i : NodeId) :
    s.queued.count i + s.running.count i ≤ (s.tasks.map Task.id).count i ∧
      (s.panics = false → s.queued.count i + s.running.count i = (s.tasks.map Task.id).count i) := by
  have hpan : s.panics = false ↔ ∀ wk ∈ s.workers, wk.status.isPanicked = false := by
    rw [panics, List.any_eq_false]
    simp only [Bool.not_eq_true]
  rw [hpan, queued, running, State.map_tasks]
  generalize s.workers = ws
  induction ws with
  | nil => simp
  | cons wk ws ih =>
    simp only [List.flatMap_cons, List.count_append, List.forall_mem_cons]
    have hwk : (wk.tasks.map Task.id).count i = (wk.status.tasks.map Task.id).count i + (wk.queue.map Task.id).count i := by
      rw [Worker.tasks, List.map_append, List.count_append]
    refine ⟨?_, ?_⟩
    · have : (wk.status.active.map Task.id).count i ≤ (wk.status.tasks.map Task.id).count i := by
        cases wk.status <;> simp [WorkerStatus.active, WorkerStatus.tasks]
      omega
    · rintro ⟨hw, hws⟩
      have : (wk.status.active.map Task.id).count i = (wk.status.tasks.map Task.id).count i := by
        cases hs : wk.status with
        | panicked lost => rw [hs] at hw; cases hw
        | _ => rfl
      have := ih.2 hws
      omega

/-- What is queued, running and undelivered is in flight. -/
theorem in_flight_length_le (s : State K O E ω R) :
    s.queued.length + s.running.length + s.undelivered.length ≤ s.outstanding.length := by
  have hsub : (s.queued ++ s.running).length ≤ (s.tasks.map Task.id).length := by
    refine (List.subperm_ext_iff.mpr fun i _ => ?_).length_le
    rw [List.count_append]
    exact (s.queued_running_count i).1
  rw [List.length_append] at hsub
  rw [outstanding, List.length_append]
  exact Nat.add_le_add_right hsub _

end State

variable [ExecObserver R] {ctx : Ctx K O E ω} {cfg : ExecutorConfig} {dag : Dag K O E ω} {outs : List K}
  {s : State K O E ω R} {observer : R}

/-- **Conservation of work.** At the top of the outer and the inner loop of a run in which no task has panicked, every
needed node is in exactly one place and occurs there once, no other node is in any; the two counters are the sizes of
their places, and a needed node's counter is the number of occurrences of unprocessed nodes among its dependencies. -/
theorem work_conserved (h : Runs dag cfg outs observer ctx s) (hpc : s.pc = .outer ∨ s.pc = .inner)
    (hpanics : s.panics = false) :
    (∀ i, dag.Needed outs i → s.places i = 1) ∧ (∀ i, ¬ dag.Needed outs i → s.places i = 0) ∧
    s.processed = doneCount s.vals ∧ s.inFlight = (s.queued ++ s.running ++ s.undelivered).length ∧
    ∀ i, dag.Needed outs i → counter s.indeg i = (dag.depsOf i).countP fun d => !isDone s.vals d := by
  have hg := h.good
  obtain rfl := hg.dag_eq
  obtain ⟨dropped, hacct, hclean⟩ := h.inv.account
  obtain ⟨rfl, hfailed⟩ := hclean (by rcases hpc with hpc | hpc <;> rw [hpc] <;> rfl)
  have hheld : s.held = s.pending.toList := by rcases hpc with hpc | hpc <;> simp [State.held, hpc, Pc.tasks]
  have hcount := fun i => (s.queued_running_count i).2 hpanics
  have hplaces : ∀ i, s.places i = (flag ctx.plan.needed i).toNat := fun i => by
    have hplace := hacct.books.ledger.place i
    rw [List.append_nil, State.count_open, hheld, hfailed, ← hcount] at hplace
    have hmin : (if 0 < counter s.indeg i then 1 else 0) = min 1 (counter s.indeg i) := by
      split <;> omega
    rw [State.places, hmin, State.undelivered]
    simp only [List.count_nil] at hplace
    omega
  refine ⟨fun i hi => ?_, fun i hi => ?_, hacct.processed, ?_, fun i hi => ?_⟩
  · rw [hplaces, (hg.plan.needed i).mpr hi]; rfl
  · have hflag : flag ctx.plan.needed i = false := by
      by_contra hc
      exact hi ((hg.plan.needed i).mp (by simpa using hc))
    rw [hplaces, hflag]; rfl
  · have hperm : (s.queued ++ s.running).Perm (s.tasks.map Task.id) := List.perm_iff_count.mpr fun i => by
      rw [List.count_append, hcount]
    rw [hacct.inFlight, State.outstanding, List.length_append, List.length_append, hperm.length_eq]
    rfl
  · exact hacct.books.ledger.counter i ((hg.plan.needed i).mpr hi)

omit [ExecObserver R] in
/-- Two workers, the first task received: the source and it are processed, the second is running, the third blocked. -/
theorem work_conserved_diamond : ∃ (ctx : Ctx Nat Nat Nat Unit) (s : State Nat Nat Nat Unit Unit),
    Runs (Dag.diamond (.ok 6)) ⟨2, 8, 2⟩ [3] () ctx s ∧ s.running = [2] ∧
      s.vals = [some 5, some 6, none, none, none] ∧
      (∀ i < 4, s.places i = 1) ∧ s.places 4 = 0 ∧ s.processed = doneCount s.vals ∧
      s.inFlight = (s.queued ++ s.running ++ s.undelivered).length ∧ counter s.indeg 3 = 1 := by
  have hv : (⟨2, 8, 2⟩ : ExecutorConfig).Valid := ⟨by decide, by decide, by decide⟩
  obtain ⟨s, hrun, hs⟩ : ∃ s,
      Runs (Dag.diamond (.ok 6)) ⟨2, 8, 2⟩ [3] () ((Dag.diamondPrepared (.ok 6) ()).ctx ⟨2, 8, 2⟩) s ∧
      (s.pc, s.panics, s.running, s.vals) = (.outer, false, [2], [some 5, some 6, none, none, none]) :=
    exists_played hv (List.cons_ne_nil 3 []) (Dag.prepare_diamond (.ok 6) ())
      (List.replicate 8 .scheduler ++ [.worker 0 (), .worker 1 (), .worker 0 (), .scheduler]) _ rfl
  simp only [Prod.mk.injEq] at hs
  obtain ⟨hpc, hpanics, hrunning, hvals⟩ := hs
  obtain ⟨hneeded, hothers, hprocessed, hflight, hcounter⟩ := work_conserved hrun (.inl hpc) hpanics
  refine ⟨_, s, hrun, hrunning, hvals, fun i hi => hneeded i (Dag.diamond_needed hi), hothers 4 fun h4 => ?_, hprocessed,
    hflight, ?_⟩
  · exact absurd (Dag.diamond_needed_lt (by decide) h4) (by decide)
  · rw [hcounter 3 (Dag.diamond_needed (by decide)), hvals]
    rfl

/-! ## Backpressure -/

/-- The scheduler's counter stays within the cap. -/
theorem Runs.inFlight_le (h : Runs dag cfg outs observer ctx s) : s.inFlight ≤ ctx.effectiveCap := by
  refine h.induct (P := fun s => s.inFlight ≤ ctx.effectiveCap) (fun s0 hi => ?_) fun s s' hs hle hm => ?_
  · rw [hi.inFlight]
    exact Nat.zero_le _
  cases hm with
  | work hwk hm => exact hle
  | sched hm =>
    cases hm with
    | sent hpc => exact (hs.inv.dispatching hpc).2.1
    | complete => exact Nat.le_trans (Nat.sub_le _ _) hle
    | fail => exact Nat.le_trans (Nat.sub_le _ _) hle
    | _ => exact hle

omit [ExecObserver R] in
/-- Every worker runs one task at most. -/
theorem State.running_le (s : State K O E ω R) : s.running.length ≤ s.workers.length := by
  rw [State.running]
  induction s.workers with
  | nil => exact Nat.le_refl _
  | cons wk ws ih =>
    have : wk.status.active.length ≤ 1 := by cases wk.status <;> simp [WorkerStatus.active]
    rw [List.flatMap_cons, List.length_append, List.length_map, List.length_cons]
    omega

/-- **Backpressure.** In every state of every run, the tasks queued or running and the results not yet received are at
most `min(max_in_flight, max_workers * (worker_queue_cap + 1))`, computed with saturation; no worker has more than
`worker_queue_cap` tasks queued or more than one running, and no more than `min(max_workers, max_in_flight)` task
functions run at the same time. -/
theorem backpressure (h : Runs dag cfg outs observer ctx s) :
    s.queued.length + s.running.length + s.undelivered.length ≤
      min cfg.maxInFlight (saturatingMul cfg.maxWorkers (saturatingAdd cfg.workerQueueCap 1)) ∧
    (∀ wk ∈ s.workers, wk.queue.length ≤ cfg.workerQueueCap ∧ wk.status.active.length ≤ 1) ∧
    s.running.length ≤ min cfg.maxWorkers cfg.maxInFlight := by
  have hg := h.good
  have hinv := h.inv
  obtain ⟨dropped, hacct, -⟩ := hinv.account
  have htotal : s.queued.length + s.running.length + s.undelivered.length ≤ ctx.effectiveCap := by
    have hle := h.inFlight_le
    rw [hacct.inFlight] at hle
    exact Nat.le_trans s.in_flight_length_le hle
  rw [← hg.effectiveCap]
  refine ⟨htotal, fun wk hwk => ⟨hg.queueCap ▸ (hinv.pool.worker wk hwk).queue, ?_⟩, Nat.le_min.mpr ⟨?_, ?_⟩⟩
  · cases wk.status <;> simp [WorkerStatus.active]
  · exact hinv.pool.size ▸ s.running_le
  · have := hg.effectiveCap
    omega

omit [ExecObserver R] in
/-- One worker, the first task received, the second still queued. -/
theorem backpressure_diamond : ∃ (ctx : Ctx Nat Nat Nat Unit) (s : State Nat Nat Nat Unit Unit),
    Runs (Dag.diamond (.ok 6)) ⟨1, 4, 2⟩ [3] () ctx s ∧ s.queued = [2] ∧
      s.vals = [some 5, some 6, none, none, none] ∧
      s.queued.length + s.running.length + s.undelivered.length ≤ min 4 (saturatingMul 1 (saturatingAdd 2 1)) ∧
      (∀ wk ∈ s.workers, wk.queue.length ≤ 2 ∧ wk.status.active.length ≤ 1) ∧ s.running.length ≤ min 1 4 := by
  have hv : (⟨1, 4, 2⟩ : ExecutorConfig).Valid := ⟨by decide, by decide, by decide⟩
  obtain ⟨s, hrun, hs⟩ : ∃ s,
      Runs (Dag.diamond (.ok 6)) ⟨1, 4, 2⟩ [3] () ((Dag.diamondPrepared (.ok 6) ()).ctx ⟨1, 4, 2⟩) s ∧
      (s.queued, s.vals) = ([2], [some 5, some 6, none, none, none]) :=
    exists_played hv (List.cons_ne_nil 3 []) (Dag.prepare_diamond (.ok 6) ())
      (List.replicate 8 .scheduler ++ [.worker 0 (), .worker 0 (), .scheduler]) _ rfl
  obtain ⟨hqueued, hvals⟩ := Prod.mk.inj hs
  exact ⟨_, s, hrun, hqueued, hvals, backpressure hrun⟩

end DagExec
