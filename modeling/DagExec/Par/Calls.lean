import DagExec.Par.Start

/-!
# The calls of a parallel run

A node's task function has been called exactly when the node is `started` (running, answered, failed, or the one that
took its worker down) or processed. With the books it follows that no node is called twice (`Runs.called_nodup`).
-/

namespace DagExec

open ListFacts

variable {K O E ω R : Type}

def Event.callId : Event O E → Option NodeId
  | .called _ id _ => some id
  | _ => none

def WorkerStatus.started : WorkerStatus O E ω → List (Task O E ω)
  | .waiting => []
  | .running task => [task]
  | .exited => []
  | .panicked lost => lost.take 1

namespace State

variable (s : State K O E ω R)

/-- The nodes whose function has been called, in order. -/
def called : List NodeId := s.log.filterMap Event.callId

def started : List NodeId :=
  s.workers.flatMap (fun wk => wk.status.started.map Task.id) ++ s.results.map TaskResult.id ++ s.failed

theorem started_count_le (i : NodeId) : s.started.count i ≤ s.openIds.count i := by
  have : (s.workers.flatMap fun wk => wk.status.started.map Task.id).count i ≤ (s.tasks.map Task.id).count i := by
    rw [State.map_tasks]
    induction s.workers with
    | nil => exact Nat.le_refl _
    | cons wk ws ih =>
      have hwk : wk.status.started.Sublist wk.tasks := by
        rw [Worker.tasks]
        refine List.Sublist.trans ?_ (List.sublist_append_left _ _)
        cases wk.status with
        | panicked lost => exact List.take_sublist 1 lost
        | _ => exact List.Sublist.refl _
      have := (hwk.map Task.id).count_le i
      simp only [List.flatMap_cons, List.count_append]
      omega
  rw [State.count_open]
  simp only [started, List.count_append]
  omega

end State

/-- The calls made so far: for a task node, what is processed or started; for any other, none. -/
def CallsOk (dag : Dag K O E ω) (s : State K O E ω R) : Prop :=
  ∀ i, ((∃ f, dag.IsTask i f) → s.called.count i = (isDone s.vals i).toNat + s.started.count i) ∧
    ((¬ ∃ f, dag.IsTask i f) → s.called.count i = 0)

theorem WorkerMove.started {w : Nat} {wk wk' : Worker O E ω} {new : List (TaskResult O E)} {seen : List (Event O E)}
    (h : WorkerMove w wk wk' new seen) : seen.filterMap Event.callId ++ wk.status.started.map Task.id =
      new.map TaskResult.id ++ wk'.status.started.map Task.id := by
  cases h with
  | take hs hq => simp [hs, WorkerStatus.started, Event.callId]
  | leave hs hq htx => simp [hs, WorkerStatus.started]
  | finish hs hid hf => simp [hs, hid, WorkerStatus.started]
  | panic hs hf => simp [hs, WorkerStatus.started]

theorem WorkerMove.called_ok {dag : Dag K O E ω} {w : Nat} {wk wk' : Worker O E ω} {new : List (TaskResult O E)}
    {seen : List (Event O E)} (h : WorkerMove w wk wk' new seen) (hok : ∀ t ∈ wk.tasks, t.Ok dag) :
    ∀ i ∈ seen.filterMap Event.callId, ∃ f, dag.IsTask i f := by
  intro i hi
  cases h with
  | @take task queue hs hq =>
    have hid : i = task.id := List.mem_singleton.mp hi
    exact ⟨task.func, hid ▸ (hok task (by simp [Worker.tasks, hs, hq])).1⟩
  | _ => cases hi

variable {ctx : Ctx K O E ω} {cfg : ExecutorConfig} {dag : Dag K O E ω} {outs : List K} {s s' : State K O E ω R}

theorem CallsOk.work (h : CallsOk ctx.plan.dag s) (hacct : Account ctx s) {w : Nat} {wk wk' : Worker O E ω}
    {new : List (TaskResult O E)} {seen : List (Event O E)} (hwk : s.workers[w]? = some wk)
    (hm : WorkerMove w wk wk' new seen) : CallsOk ctx.plan.dag
      { s with workers := s.workers.set w wk', results := s.results ++ new, log := s.log ++ seen } := by
  obtain ⟨dropped, hacct, -⟩ := hacct
  have hnew := hm.called_ok fun t ht => hacct.tasks_ok t (State.mem_tasks.mpr ⟨wk, List.mem_of_getElem? hwk, ht⟩)
  have hset := fun i => (flatMap_set_perm hwk wk' fun wk => wk.status.started.map Task.id).count_eq i
  have hstarted := hm.started
  intro i
  have hcount := congrArg (List.count i) hstarted
  have hset := hset i
  simp only [List.count_append] at hcount hset
  refine ⟨fun hi => ?_, fun hi => ?_⟩
  · have := (h i).1 hi
    simp only [State.called, State.started, State.failed, List.filterMap_append, List.map_append, List.count_append,
      hm.seen_failed, List.count_nil] at this ⊢
    omega
  · have hno : (seen.filterMap Event.callId).count i = 0 := List.count_eq_zero.mpr fun hmem => hi (hnew i hmem)
    have := (h i).2 hi
    simp only [State.called, List.filterMap_append, List.count_append] at this ⊢
    omega

theorem CallsOk.frame (h : CallsOk dag s) (hd : ∀ i, (∃ f, dag.IsTask i f) → isDone s'.vals i = isDone s.vals i)
    (hc : s'.called = s.called) (hs : ∀ i, s'.started.count i = s.started.count i) : CallsOk dag s' := fun i =>
  ⟨fun hi => by rw [hc, hd i hi, hs]; exact (h i).1 hi, fun hi => by rw [hc]; exact (h i).2 hi⟩

/-- What the scheduler records is no call. -/
theorem called_append {log : List (Event O E)} {ev : Event O E} (h : ev.callId = none) :
    (log ++ [ev]).filterMap Event.callId = log.filterMap Event.callId := by
  rw [List.filterMap_append, List.filterMap_cons_none h, List.filterMap_nil, List.append_nil]

theorem CallsOk.sched (h : CallsOk ctx.plan.dag s) (hacct : Account ctx s) (hm : SchedMove ctx s s') :
    CallsOk ctx.plan.dag s' := by
  cases hm with
  | @source id v ready rel indeg observer hpc hcap hp hr hsrc hfin =>
    refine h.frame (fun i hi => ?_) rfl (fun i => rfl)
    have hne : i ≠ id := fun he => by
      obtain ⟨f, hf⟩ := hi
      exact hf.not_source (he ▸ hsrc)
    exact isDone_set_ne hfin.lt hne
  | @sent task left idx n wk observer hpc hwk hlive hroom =>
    refine h.frame (fun i hi => rfl) (called_append rfl) fun i => ?_
    have hworkers := flatMap_set_eq (y := { wk with queue := wk.queue ++ [task] }) hwk
      (fun wk => wk.status.started.map Task.id) rfl
    simp only [State.started, State.failed, hworkers, failed_dispatched]
  | @complete res results v rel indeg observer hpc hr hout hfin =>
    obtain ⟨dropped, hacct, -⟩ := hacct
    obtain ⟨f, -, -, hf, -⟩ := hacct.results_ok res (by rw [hr]; exact List.mem_cons_self)
    have hlog : (s.log ++ [Event.received res]).filterMap Event.callId = s.log.filterMap Event.callId := called_append rfl
    refine fun i => ⟨fun hi => ?_, fun hi => ?_⟩
    · have := (h i).1 hi
      simp only [State.called, State.started, State.failed, hlog, failed_received_ok s.log hout, hr,
        isDone_set hfin.lt, List.count_append, List.map_cons, count_cons_eq] at this ⊢
      by_cases hid : i = res.id
      · rw [hid, Function.update_self]
        rw [hid, hfin.fresh, if_pos rfl] at this
        simp only [Bool.toNat_true, Bool.toNat_false] at this ⊢
        omega
      · rw [Function.update_of_ne hid]
        rw [if_neg hid] at this
        omega
    · exact (congrArg (List.count i) hlog).trans ((h i).2 hi)
  | @fail res results e nd observer hpc hr hout hnd =>
    refine h.frame (fun i hi => rfl) (called_append rfl) fun i => ?_
    simp only [State.started, State.failed, failed_received_error s.log hout, hr, List.count_append, List.map_cons,
      count_cons_eq, List.count_nil]
    omega
  | @closeTx i r wk hpc hwk =>
    refine h.frame (fun i hi => rfl) rfl fun j => ?_
    have hworkers := flatMap_set_eq (y := { wk with txOpen := false }) hwk
      (fun wk => wk.status.started.map Task.id) rfl
    simp only [State.started, State.failed, hworkers]
  | _ => exact h.frame (fun i hi => rfl) rfl fun i => rfl

variable [ExecObserver R] {observer : R}

theorem Runs.calls (h : Runs dag cfg outs observer ctx s) : CallsOk dag s := by
  obtain rfl := h.good.dag_eq
  refine h.induct (P := CallsOk ctx.plan.dag) (fun s0 hi i => ?_) fun s s' hs hc hm => ?_
  · have hcalled : s0.called = [] := by simp [State.called, hi.log]
    have hstarted : s0.started = [] := by
      simp only [State.started, State.failed, hi.log, hi.results, hi.workers, List.filterMap_nil, List.map_nil,
        List.append_nil, List.flatMap_eq_nil_iff]
      exact fun wk hwk => by rw [List.eq_of_mem_replicate hwk]; rfl
    rw [hcalled, hstarted, not_done_of_doneCount_zero hi.nothing_done i]
    exact ⟨fun _ => rfl, fun _ => rfl⟩
  · cases hm with
    | sched hm => exact hc.sched hs.inv.account hm
    | work hwk hm => exact hc.work hs.inv.account hwk hm

/-- A task function is called at most once. -/
theorem Runs.called_nodup (h : Runs dag cfg outs observer ctx s) : s.called.Nodup := by
  obtain ⟨dropped, hacct, -⟩ := h.inv.account
  refine List.nodup_iff_count_le_one.mpr fun i => ?_
  by_cases hi : ∃ f, dag.IsTask i f
  · have hplace := hacct.books.ledger.place i
    have hle := s.started_count_le i
    have hneed := Bool.toNat_le (flag ctx.plan.needed i)
    rw [List.count_append] at hplace
    rw [(h.calls i).1 hi]
    omega
  · rw [(h.calls i).2 hi]
    exact Nat.zero_le 1

/-- Only needed tasks are called. -/
theorem Runs.called_needed (h : Runs dag cfg outs observer ctx s) {i : NodeId} (hi : i ∈ s.called) :
    dag.Needed outs i ∧ ∃ f, dag.IsTask i f := by
  have hg := h.good
  have hcalls := h.calls i
  have hpos := List.count_pos_iff.mpr hi
  have htask : ∃ f, dag.IsTask i f := by
    by_contra hno
    have := hcalls.2 hno
    omega
  refine ⟨?_, htask⟩
  obtain ⟨dropped, hacct, -⟩ := h.inv.account
  obtain rfl := hg.dag_eq
  refine (hg.plan.needed i).mp ?_
  have hplace := hacct.books.ledger.place i
  have hle := s.started_count_le i
  rw [hcalls.1 htask] at hpos
  rw [List.count_append] at hplace
  cases hf : flag ctx.plan.needed i with
  | true => rfl
  | false =>
    simp only [hf, Bool.toNat_false] at hplace
    omega

/-- A processed task has been called. -/
theorem Runs.called_of_done (h : Runs dag cfg outs observer ctx s) {i : NodeId} {f : TaskFn O E ω}
    (hf : dag.IsTask i f) (hd : isDone s.vals i = true) : i ∈ s.called := by
  refine List.count_pos_iff.mp ?_
  rw [(h.calls i).1 ⟨f, hf⟩, hd]
  exact Nat.lt_of_lt_of_le Nat.one_pos (Nat.le_add_right 1 _)

end DagExec
