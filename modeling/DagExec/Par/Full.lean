import DagExec.Par.Steps
import DagExec.Par.Returns
import DagExec.Par.Conservation

/-!
# Full queues are no cycle

`dispatch_task_try` finds the queues full one after the other, while the workers drain them. What a worker takes out of
a queue that was found full is still in flight, since only the scheduler receives results. So in the middle of a
dispatch the queues found full and the tasks of the workers not asked yet fit into `in_flight` (`Round`), and when every
worker has been asked, at least `max_workers * worker_queue_cap` are in flight. The scheduler then waits; it reports a
cycle only when nothing is left anywhere.
-/

namespace DagExec

open ListFacts

variable {K O E ω R : Type} {ctx : Ctx K O E ω} {cfg : ExecutorConfig} {dag : Dag K O E ω} {outs : List K}
  {s s' : State K O E ω R}

/-- What is with the workers that have not been asked in this round. -/
def State.unasked (s : State K O E ω R) (left : Nat) : List (Task O E ω) :=
  ((s.workers.rotate s.nextWorker).take left).flatMap Worker.tasks

/-- In the middle of a dispatch: a full queue for each worker asked, and the tasks of the others, are in flight. -/
def Round (ctx : Ctx K O E ω) (s : State K O E ω R) : Prop :=
  ∀ task left, s.pc = .dispatch task left →
    (s.workers.length - left) * ctx.queueCap + (s.unasked left).length ≤ s.inFlight

/-- Before the first worker is asked. -/
theorem Inv.round_start (h : Inv ctx cfg s) : (s.unasked s.workers.length).length ≤ s.inFlight := by
  obtain ⟨dropped, hacct, -⟩ := h.account
  have hall : (s.workers.rotate s.nextWorker).take s.workers.length = s.workers.rotate s.nextWorker :=
    List.take_of_length_le (Nat.le_of_eq (List.length_rotate _ _))
  have hperm : (s.unasked s.workers.length).Perm s.tasks := by
    rw [State.unasked, hall]
    exact (List.rotate_perm _ _).flatMap_right _
  rw [hperm.length_eq, hacct.inFlight, State.outstanding_length]
  exact Nat.le_add_right _ _

theorem WorkerMove.tasks_le {w : Nat} {wk wk' : Worker O E ω} {new : List (TaskResult O E)} {seen : List (Event O E)}
    (h : WorkerMove w wk wk' new seen) : wk'.tasks.length ≤ wk.tasks.length := by
  have hids := congrArg List.length h.ids
  rw [List.length_append, List.length_map, List.length_map, List.length_map] at hids
  omega

theorem Round.work (h : Round ctx s) {w : Nat} {wk wk' : Worker O E ω} {new : List (TaskResult O E)}
    {seen : List (Event O E)} (hwk : s.workers[w]? = some wk) (hm : WorkerMove w wk wk' new seen) :
    Round ctx { s with workers := s.workers.set w wk', results := s.results ++ new, log := s.log ++ seen } := by
  intro task left hpc
  have hle := h task left hpc
  have hset : List.Forall₂ (fun x y : Worker O E ω => x.tasks.length ≤ y.tasks.length) (s.workers.set w wk') s.workers :=
    forall₂_set (S := fun x y : Worker O E ω => x.tasks.length ≤ y.tasks.length) (fun _ => Nat.le_refl _) hwk hm.tasks_le
  have hless := flatMap_length_le (List.forall₂_take left (forall₂_rotate hset s.nextWorker))
  simp only [State.unasked, List.length_set] at hle ⊢
  omega

section

variable [ExecObserver R] {observer : R}

/-- A full queue is left behind. -/
theorem Round.full (h : Round ctx s) (hinv : Inv ctx cfg s) (hW : 0 < s.workers.length) {task : Task O E ω} {left : Nat}
    (hpc : s.pc = .dispatch task (left + 1)) (hs : s.schedule ctx = some s') (hpc' : s'.pc = .dispatch task left) :
    Round ctx s' := by
  obtain ⟨wk, hwk, hatt⟩ := schedule_attempt hW hpc hs
  have hle := h task (left + 1) hpc
  have hlt : left + 1 ≤ s.workers.length := (hinv.dispatching hpc).2.2.1
  cases hatt with
  | gone => cases hpc'
  | sent => cases hpc'
  | full hlive hfull =>
    intro task' left' hpc''
    cases hpc''
    have hround := rotate_take_succ hwk (Nat.lt_of_succ_le hlt)
    have htasks : wk.queue.length ≤ wk.tasks.length := by
      rw [Worker.tasks, List.length_append]
      exact Nat.le_add_left _ _
    have hsplit : (s.workers.length - left) * ctx.queueCap =
        (s.workers.length - (left + 1)) * ctx.queueCap + ctx.queueCap := by
      rw [← Nat.succ_mul]
      congr 1
      omega
    rw [State.unasked, hround, List.flatMap_cons, List.length_append] at hle
    simp only [State.unasked]
    omega

theorem Runs.round (h : Runs dag cfg outs observer ctx s) : Round ctx s := by
  have hg := h.good
  refine h.induct_sched (P := Round ctx) (fun s0 hs task left hpc => ?_) (fun s s' hrun hr hs hm => ?_)
    fun s w wk wk' new seen hrun hr hwk hm => hr.work hwk hm
  · rw [(parStart_start hs).2.pc] at hpc
    cases hpc
  have hW : 0 < s.workers.length := hrun.inv.pool.size.symm ▸ hg.valid.workers
  have hstart := hrun.inv.round_start
  cases hm with
  | goto n hgoto =>
    cases hgoto with
    | bounced hpc => exact hr.full hrun.inv hW hpc hs rfl
    | _ => exact nofun
  | retry hpc =>
    intro task' left' hpc'
    cases hpc'
    simpa [State.unasked] using hstart
  | pick hpc =>
    intro task' left' hpc'
    cases hpc'
    simpa [State.unasked] using hstart
  | _ => exact nofun

end

/-! ## Reporting a cycle -/

/-- Nothing is left to dispatch and nothing is in flight. -/
structure State.Drained (s : State K O E ω R) : Prop where
  pending : s.pending = none
  ready : s.ready = []
  outstanding : s.outstanding = []

/-- Moving on, the scheduler leaves with a cycle only when nothing is left. -/
theorem Goto.left_drained {pc : Pc K O E ω} (n : Nat) (hm : Goto ctx s pc) (hinv : Inv ctx cfg s)
    (h : ∀ rem, s.pc.ret = some (.error (.cycle rem)) → s.Drained) {rem : List K}
    (hret : pc.ret = some (.error (.cycle rem))) : State.Drained { s with nextWorker := n, pc := pc } := by
  have hstay : s.Drained → State.Drained { s with nextWorker := n, pc := pc } := fun ⟨hp, hr, ho⟩ => ⟨hp, hr, ho⟩
  cases hm with
  | cycle hpc h0 =>
    have hok := hinv.pc
    rw [hpc, PcOk, h0] at hok
    obtain ⟨hready, hpending⟩ := hok.resolve_left (Nat.lt_irrefl 0)
    obtain ⟨dropped, hacct, -⟩ := hinv.account
    exact hstay ⟨hpending, hready, List.length_eq_zero_iff.mp (hacct.inFlight.symm.trans h0)⟩
  | closed hpc => exact hstay (h rem (by rw [hpc]; exact hret))
  | joined hpc => exact hstay (h rem (by rw [hpc]; exact hret))
  | _ => cases hret

theorem SchedMove.left_drained (hm : SchedMove ctx s s') (hinv : Inv ctx cfg s)
    (h : ∀ rem, s.pc.ret = some (.error (.cycle rem)) → s.Drained) {rem : List K}
    (hret : s'.pc.ret = some (.error (.cycle rem))) : s'.Drained := by
  cases hm with
  | goto n hgoto => exact hgoto.left_drained n hinv h hret
  | closeTx hpc hwk =>
    obtain ⟨hp, hr, ho⟩ := h rem (by rw [hpc]; exact hret)
    refine ⟨hp, hr, ?_⟩
    rw [← ho, State.outstanding, State.outstanding, State.tasks, State.tasks_closed hwk]
  | leave hpc =>
    obtain ⟨hp, hr, ho⟩ := h rem (by rw [hpc]; exact hret)
    exact ⟨hp, hr, ho⟩
  | _ => cases hret

variable [ExecObserver R] {observer : R}

/-- From the moment a cycle is reported, nothing is left anywhere. -/
theorem Runs.drained_of_cycle (h : Runs dag cfg outs observer ctx s) :
    ∀ rem, s.pc.ret = some (.error (.cycle rem)) → s.Drained := by
  refine h.induct (P := fun s => ∀ rem, s.pc.ret = some (.error (.cycle rem)) → s.Drained) (fun s0 hi rem hret => ?_)
    fun s s' hrun hd hm rem hret => ?_
  · rw [hi.pc] at hret
    cases hret
  cases hm with
  | sched hm => exact hm.left_drained hrun.inv hd hret
  | work hwk hm =>
    obtain ⟨hp, hr, ho⟩ := hd rem hret
    exact ⟨hp, hr, (ho ▸ outstanding_work hwk hm).eq_nil⟩

/-- **Full queues are never taken for a cycle.** When `dispatch_task_try` has found every queue full, at least
`max_workers * worker_queue_cap ≥ 1` are in flight. And when the scheduler is leaving with `Cycle`, or has returned it,
nothing is parked, ready, queued, running or undelivered, and every needed node that is not processed has a dependency
that is not. -/
theorem full_never_cycle (h : Runs dag cfg outs observer ctx s) :
    (∀ task, s.pc = .dispatch task 0 →
      cfg.maxWorkers * cfg.workerQueueCap ≤ s.inFlight ∧ 1 ≤ cfg.maxWorkers * cfg.workerQueueCap) ∧
    ∀ rem, s.pc.ret = some (.error (.cycle rem)) →
      s.pending = none ∧ s.ready = [] ∧ s.queued = [] ∧ s.running = [] ∧ s.undelivered = [] ∧
      ∀ i, dag.Needed outs i → isDone s.vals i = false → ∃ d ∈ dag.depsOf i, isDone s.vals d = false := by
  have hg := h.good
  refine ⟨fun task hpc => ⟨?_, Nat.mul_pos hg.valid.workers hg.valid.queue⟩, fun rem hret => ?_⟩
  · have hround := h.round task 0 hpc
    rw [h.inv.pool.size, hg.queueCap, Nat.sub_zero] at hround
    exact Nat.le_trans (Nat.le_add_right _ _) hround
  · obtain ⟨hp, hr, ho⟩ := h.drained_of_cycle rem hret
    have hflight := s.in_flight_length_le
    rw [ho, List.length_nil] at hflight
    refine ⟨hp, hr, List.length_eq_zero_iff.mp ?_, List.length_eq_zero_iff.mp ?_, List.length_eq_zero_iff.mp ?_,
      fun i hi hd => ?_⟩
    · omega
    · omega
    · omega
    · cases h.ret_verdict hret with
      | cycle hb =>
        obtain rfl := hg.dag_eq
        exact hb.ledger.stuck (fun _ => rfl) ((hg.plan.needed i).mpr hi) hd

omit [ExecObserver R] in
/-- One worker with room for one task: the second task finds its queue full and is parked. The run goes on to process
everything below the knot, and reports the knot. -/
theorem full_never_cycle_knot : ∃ (ctx : Ctx Nat Nat Nat Unit) (s t : State Nat Nat Nat Unit Unit)
    (task : Task Nat Nat Unit),
    Runs (Dag.diamond (.ok 6)) ⟨1, 4, 1⟩ [4] () ctx s ∧ s.pc = .dispatch task 0 ∧ 1 ≤ s.inFlight ∧
      Machine.Reach (step ctx) s t ∧ t.pc = .returned (.error (.cycle [4])) ∧ t.ready = [] ∧ t.running = [] ∧
      ∃ d ∈ (Dag.diamond (.ok 6)).depsOf 4, isDone t.vals d = false := by
  have hv : (⟨1, 4, 1⟩ : ExecutorConfig).Valid := ⟨by decide, by decide, by decide⟩
  obtain ⟨s, hrun, hs⟩ : ∃ s,
      Runs (Dag.diamond (.ok 6)) ⟨1, 4, 1⟩ [4] () ((Dag.knotPrepared (.ok 6) ()).ctx ⟨1, 4, 1⟩) s ∧
      (s.pc, (Machine.play (step ((Dag.knotPrepared (.ok 6) ()).ctx ⟨1, 4, 1⟩))
        (List.replicate 2 .scheduler ++ List.replicate 2 (.worker 0 ()) ++ List.replicate 6 .scheduler ++
          List.replicate 2 (.worker 0 ()) ++ List.replicate 6 .scheduler ++ List.replicate 2 (.worker 0 ()) ++
          List.replicate 6 .scheduler ++ [.worker 0 (), .scheduler, .scheduler]) s).map fun t => (t.pc, t.vals)) =
        (.dispatch ⟨2, fun _ args => .ok (args.sum + 2), [5]⟩ 0,
          some (.returned (.error (.cycle [4])), [some 5, some 6, some 7, some 13, none])) :=
    exists_played hv (List.cons_ne_nil 4 []) (Dag.prepare_knot (.ok 6) ()) (List.replicate 6 .scheduler) _ rfl
  obtain ⟨hpc, hplay⟩ := Prod.mk.inj hs
  obtain ⟨t, ht, hret⟩ := Machine.Reach.of_play hplay
  obtain ⟨hret, hvals⟩ := Prod.mk.inj hret
  obtain ⟨hflight, hpos⟩ := (full_never_cycle hrun).1 _ hpc
  obtain ⟨-, hready, -, hrunning, -, hstuck⟩ := (full_never_cycle (hrun.trans ht)).2 [4] (by rw [hret]; rfl)
  refine ⟨_, s, t, _, hrun, hpc, Nat.le_trans hpos hflight, ht, hret, hready, hrunning,
    hstuck 4 ?_ (by rw [hvals]; rfl)⟩
  exact .base ⟨4, List.mem_singleton_self 4, rfl⟩

end DagExec
