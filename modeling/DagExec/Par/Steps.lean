import DagExec.Par.Start

/-!
# What the scheduler's steps compute

`SchedMove` leaves open what most invariants do not need: which worker an attempt of `dispatch_task_try` asks, in which
order nodes are released, what the observer is told. Here it is read off the step itself.
-/

namespace DagExec

open Outcome

variable {K O E ω R : Type} [ExecObserver R] {ctx : Ctx K O E ω} {s s' : State K O E ω R}

/-! ## Dispatching -/

theorem schedule_attempt (hW : 0 < s.workers.length) {task : Task O E ω} {left : Nat}
    (hpc : s.pc = .dispatch task (left + 1)) (hs : s.schedule ctx = some s') :
    ∃ wk, s.workers[s.nextWorker % s.workers.length]? = some wk ∧
      Attempt ctx s task left (s.nextWorker % s.workers.length) wk s' := by
  obtain ⟨wk, hwk, hatt⟩ := attempt_cases ctx hW task left
  simp only [State.schedule, hpc, Option.some.injEq] at hs
  exact ⟨wk, hwk, hs ▸ hatt⟩

/-- The observer is told of the worker a task was sent to. -/
theorem sent_observer (hW : 0 < s.workers.length) {task : Task O E ω} {left idx : Nat}
    (hpc : s.pc = .dispatch task (left + 1)) (hs : s.schedule ctx = some s')
    (hlog : s'.log = s.log ++ [.dispatched idx task.id]) :
    s'.observer = ExecObserver.markStart task.id (some idx) s.observer := by
  obtain ⟨wk, hwk, hattempt⟩ := schedule_attempt hW hpc hs
  cases hattempt with
  | gone => exact absurd hlog (by simp)
  | sent =>
    have hidx : s.nextWorker % s.workers.length = idx := by simpa using hlog
    rw [hidx]
  | full => exact absurd hlog (by simp)

/-! ## Releasing -/

variable {cfg : ExecutorConfig} {dag : Dag K O E ω} {outs : List K}

omit [ExecObserver R] in
/-- While the scheduler loops, nothing has been dropped. -/
theorem Inv.acct (h : Inv ctx cfg s) (hl : s.pc.looping = true) : Acct ctx.plan [] s := by
  obtain ⟨dropped, hacct, hclean⟩ := h.account
  rwa [(hclean hl).1] at hacct

/-- What is released when a source is processed. -/
theorem Inv.source_release (h : Inv ctx cfg s) (hg : ctx.Good dag cfg outs) (hpc : s.pc = .inner)
    (hcap : s.inFlight < ctx.effectiveCap) (hp : s.pending = none) {id : NodeId} {ready : List NodeId}
    (hr : s.ready = id :: ready) (hsrc : ctx.plan.dag.IsSource id) (hs : s.schedule ctx = some s') :
    releaseDependents ctx.plan.dependents s.indeg ready id
      (ExecObserver.markFinish id (ExecObserver.markStart id none s.observer)) =
        (ok (s'.indeg, s'.ready, s'.observer) : Outcome (ExecError K E) _) := by
  obtain ⟨nd, v, hnd, hk⟩ := hsrc
  have hmem : id ∈ s.openIds := State.ready_sub_open (by rw [hr]; exact List.mem_cons_self)
  obtain ⟨indeg, rel, observer, hrel, hfin⟩ := (h.acct (by rw [hpc]; rfl)).finishes hg.plan hmem (.source hnd hk) ready
    (ExecObserver.markFinish id (ExecObserver.markStart id none s.observer))
  simp only [State.schedule, hpc, if_pos hcap, pickNext_node hp hr, State.runNode, State.orLeave, index_of_get hnd, hk,
    State.runSource, store_of_lt _ hfin.lt, ok_bind, hrel, pure_eq, Option.some.injEq] at hs
  subst hs
  exact hrel

theorem schedule_recv (hpc : s.pc = .recv) {res : TaskResult O E} {results : List (TaskResult O E)}
    (hr : s.results = res :: results) (hs : s.schedule ctx = some s') :
    s' = State.receive ctx.plan { s with results := results } res := by
  have hrecv : s.schedule ctx = s.recv ctx.plan := by unfold State.schedule; rw [hpc]
  rw [hrecv, State.recv, hr, Option.some.injEq] at hs
  exact hs.symm

/-- What is released when a result is processed. -/
theorem Inv.complete_release (h : Inv ctx cfg s) (hg : ctx.Good dag cfg outs) (hpc : s.pc = .recv)
    {res : TaskResult O E} {results : List (TaskResult O E)} (hr : s.results = res :: results) {v : O}
    (hout : res.out = .ok v) (hs : s.schedule ctx = some s') :
    releaseDependents ctx.plan.dependents s.indeg s.ready res.id (ExecObserver.markFinish res.id s.observer) =
      (ok (s'.indeg, s'.ready, s'.observer) : Outcome (ExecError K E) _) := by
  obtain ⟨indeg, rel, observer, hrel, -, heq⟩ := (h.acct (by rw [hpc]; rfl)).receive_ok hg.plan hr hout
  rw [schedule_recv hpc hr hs, heq]
  exact hrel

/-- A failed task has finished too. -/
theorem Inv.fail_observer (h : Inv ctx cfg s) (hpc : s.pc = .recv) {res : TaskResult O E}
    {results : List (TaskResult O E)} (hr : s.results = res :: results) {e : E} (hout : res.out = .error e)
    (hs : s.schedule ctx = some s') : s'.observer = ExecObserver.markFinish res.id s.observer := by
  rw [schedule_recv hpc hr hs, (h.acct (by rw [hpc]; rfl)).receive_eq hr rfl, hout]
  simp only [State.orLeave]
  cases index (ε := ExecError K E) ctx.plan.dag.nodes res.id <;> rfl

end DagExec
