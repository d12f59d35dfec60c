import DagExec.Par.Calls
import DagExec.Par.Returns
import DagExec.Par.Conservation

/-!
# Shutdown

Each task channel is first in, first out: what was dispatched to a worker is what the worker has called, followed by
what is still queued at it (`Delivered`). When the call returns, every worker has been joined, so without panics it has
left its loop with an empty queue, and the two lists are the same: nothing is lost on any exit path. After the failing
result is received nothing more is dispatched, so what is called from then on was queued at that moment
(`AfterFailure`).
-/

namespace DagExec

variable {K O E ω R : Type}

def Event.dispatchedTo (w : Nat) : Event O E → Option NodeId
  | .dispatched w' id => if w' = w then some id else none
  | _ => none

def Event.calledBy (w : Nat) : Event O E → Option NodeId
  | .called w' id _ => if w' = w then some id else none
  | _ => none

def Event.dispatchId : Event O E → Option NodeId
  | .dispatched _ id => some id
  | _ => none

/-- The tasks sent to a worker whose functions it has not called: those queued, or lost behind the one that panicked. -/
def Worker.uncalled (wk : Worker O E ω) : List (Task O E ω) :=
  match wk.status with
  | .panicked lost => lost.drop 1
  | _ => wk.queue

namespace State

variable (s : State K O E ω R)

/-- What was sent to worker `w`, in order. -/
def dispatchedTo (w : Nat) : List NodeId := s.log.filterMap (Event.dispatchedTo w)

/-- The functions worker `w` has called, in order. -/
def calledBy (w : Nat) : List NodeId := s.log.filterMap (Event.calledBy w)

/-- What worker `w` has been sent and has not called. -/
def uncalled (w : Nat) : List NodeId := (s.workers[w]?.elim [] Worker.uncalled).map Task.id

end State

/-- The task channels deliver in order, and lose nothing. -/
def Delivered (s : State K O E ω R) : Prop := ∀ w, s.dispatchedTo w = s.calledBy w ++ s.uncalled w

variable {ctx : Ctx K O E ω} {cfg : ExecutorConfig} {dag : Dag K O E ω} {outs : List K} {s s' : State K O E ω R}

theorem WorkerMove.delivered {w : Nat} {wk wk' : Worker O E ω} {new : List (TaskResult O E)} {seen : List (Event O E)}
    (h : WorkerMove w wk wk' new seen) (v : Nat) : seen.filterMap (Event.dispatchedTo v) = [] ∧
      (v = w → wk.uncalled.map Task.id = seen.filterMap (Event.calledBy v) ++ wk'.uncalled.map Task.id) ∧
      (v ≠ w → seen.filterMap (Event.calledBy v) = []) := by
  cases h with
  | take hs hq =>
    refine ⟨rfl, ?_, fun hv => ?_⟩
    · rintro rfl
      simp [Worker.uncalled, hs, hq, Event.calledBy]
    · simp [Event.calledBy, Ne.symm hv]
  | leave hs hq htx => exact ⟨rfl, fun _ => by simp [Worker.uncalled, hs], fun _ => rfl⟩
  | finish hs hid hf => exact ⟨rfl, fun _ => by simp [Worker.uncalled, hs], fun _ => rfl⟩
  | panic hs hf => exact ⟨rfl, fun _ => by simp [Worker.uncalled, hs], fun _ => rfl⟩

theorem Delivered.work (h : Delivered s) {w : Nat} {wk wk' : Worker O E ω} {new : List (TaskResult O E)}
    {seen : List (Event O E)} (hwk : s.workers[w]? = some wk) (hm : WorkerMove w wk wk' new seen) :
    Delivered { s with workers := s.workers.set w wk', results := s.results ++ new, log := s.log ++ seen } := by
  intro v
  obtain ⟨hd, hsame, hother⟩ := hm.delivered v
  have hv := h v
  have hlt := (List.getElem?_eq_some_iff.mp hwk).1
  simp only [State.dispatchedTo, State.calledBy, State.uncalled, List.filterMap_append, hd, List.append_nil] at hv ⊢
  rw [hv, List.append_assoc]
  congr 1
  by_cases hvw : v = w
  · subst hvw
    rw [hwk, List.getElem?_set_self hlt]
    exact hsame rfl
  · rw [hother hvw, List.getElem?_set_ne (Ne.symm hvw)]
    rfl

/-- A step that sends nothing leaves the task channels as they are. -/
theorem Delivered.frame (h : Delivered s) (hd : ∀ w, s'.dispatchedTo w = s.dispatchedTo w)
    (hc : ∀ w, s'.calledBy w = s.calledBy w) (hu : ∀ w, s'.uncalled w = s.uncalled w) : Delivered s' := fun w => by
  rw [hd, hc, hu]
  exact h w

theorem Delivered.sched (h : Delivered s) (hm : SchedMove ctx s s') : Delivered s' := by
  cases hm with
  | @sent task left idx n wk observer hpc hwk hlive hroom =>
    intro w
    have hw := h w
    have hlt := (List.getElem?_eq_some_iff.mp hwk).1
    have hcalled : (s.log ++ [Event.dispatched idx task.id]).filterMap (Event.calledBy w) = s.calledBy w := by
      simp [State.calledBy, Event.calledBy]
    have huncalled : Worker.uncalled { wk with queue := wk.queue ++ [task] } = wk.uncalled ++ [task] := by
      cases hs : wk.status with
      | panicked lost => rw [hs] at hlive; cases hlive
      | _ => simp [Worker.uncalled, hs]
    simp only [State.dispatchedTo, State.uncalled] at hw ⊢
    rw [State.calledBy, hcalled, List.filterMap_append, hw, List.append_assoc]
    congr 1
    by_cases hi : idx = w
    · subst hi
      rw [hwk, List.getElem?_set_self hlt]
      simp [Event.dispatchedTo, huncalled]
    · rw [List.getElem?_set_ne hi]
      simp [Event.dispatchedTo, hi]
  | @closeTx i r wk hpc hwk =>
    refine h.frame (fun w => rfl) (fun w => rfl) fun w => ?_
    have hlt := (List.getElem?_eq_some_iff.mp hwk).1
    simp only [State.uncalled]
    by_cases hi : i = w
    · subst hi
      rw [hwk, List.getElem?_set_self hlt]
      rfl
    · rw [List.getElem?_set_ne hi]
  | complete =>
    exact h.frame (fun w => by simp [State.dispatchedTo, Event.dispatchedTo])
      (fun w => by simp [State.calledBy, Event.calledBy]) fun w => rfl
  | fail =>
    exact h.frame (fun w => by simp [State.dispatchedTo, Event.dispatchedTo])
      (fun w => by simp [State.calledBy, Event.calledBy]) fun w => rfl
  | _ => exact h.frame (fun w => rfl) (fun w => rfl) fun w => rfl

section

variable [ExecObserver R] {observer : R}

theorem Runs.delivered (h : Runs dag cfg outs observer ctx s) : Delivered s := by
  refine h.induct (P := Delivered) (fun s0 hi w => ?_) fun s s' hrun hd hm => ?_
  · have hidle : s0.uncalled w = [] := by
      rw [State.uncalled, hi.workers, List.getElem?_replicate]
      split <;> rfl
    rw [State.dispatchedTo, State.calledBy, hi.log, hidle]
    rfl
  · cases hm with
    | sched hm => exact hd.sched hm
    | work hwk hm => exact hd.work hwk hm

/-- A joined worker that has not panicked has left its loop, with an empty queue. -/
theorem Runs.joined (h : Runs dag cfg outs observer ctx s) {ret : Ret K O E} (hpc : s.pc = .returned ret)
    (hno : s.panics = false) : ∀ wk ∈ s.workers, wk.status = .exited ∧ wk.queue = [] := by
  intro wk hwk
  have hshut := h.inv.pool.shut
  rw [hpc] at hshut
  have hgone := hshut wk hwk
  have hpan := List.any_eq_false.mp hno wk hwk
  refine ⟨?_, (h.inv.pool.worker wk hwk).idle hgone⟩
  cases hs : wk.status with
  | exited => rfl
  | panicked lost => rw [hs] at hpan; exact absurd rfl hpan
  | waiting => rw [hs] at hgone; cases hgone
  | running task => rw [hs] at hgone; cases hgone

/-- When the call returns, what was dispatched to a worker is what it has called. -/
theorem Runs.delivered_returned (h : Runs dag cfg outs observer ctx s) {ret : Ret K O E} (hpc : s.pc = .returned ret)
    (hno : s.panics = false) (w : Nat) : s.dispatchedTo w = s.calledBy w := by
  rw [h.delivered w]
  have hempty : s.uncalled w = [] := by
    rw [State.uncalled]
    cases hw : s.workers[w]? with
    | none => rfl
    | some wk =>
      obtain ⟨hs, hq⟩ := h.joined hpc hno wk (List.mem_of_getElem? hw)
      simp [Worker.uncalled, hs, hq]
  rw [hempty, List.append_nil]

end

theorem mem_dispatchedTo {w : Nat} {i : NodeId} : i ∈ s.dispatchedTo w ↔ Event.dispatched w i ∈ s.log := by
  simp only [State.dispatchedTo, List.mem_filterMap]
  constructor
  · rintro ⟨ev, hev, hi⟩
    cases ev with
    | dispatched w' id =>
      simp only [Event.dispatchedTo] at hi
      split at hi <;> cases hi
      rename_i hw
      exact hw ▸ hev
    | _ => cases hi
  · exact fun hmem => ⟨_, hmem, if_pos rfl⟩

theorem calledBy_sub_called {w : Nat} {i : NodeId} (h : i ∈ s.calledBy w) : i ∈ s.called := by
  obtain ⟨ev, hev, hi⟩ := List.mem_filterMap.mp h
  refine List.mem_filterMap.mpr ⟨ev, hev, ?_⟩
  cases ev with
  | called w' id args =>
    simp only [Event.calledBy] at hi
    split at hi <;> cases hi
    rfl
  | _ => cases hi

/-! ## After a failure -/

/-- A queued task has been dispatched. -/
theorem Inv.queued_dispatched (h : Inv ctx cfg s) (hd : Delivered s) {i : NodeId} (hi : i ∈ s.queued) :
    i ∈ s.log.filterMap Event.dispatchId := by
  obtain ⟨wk, hwk, hq⟩ := List.mem_flatMap.mp hi
  obtain ⟨w, hw⟩ := List.getElem?_of_mem hwk
  have huncalled : i ∈ s.uncalled w := by
    rw [State.uncalled, hw]
    cases hs : wk.status with
    | panicked lost =>
      rw [(h.pool.worker wk hwk).idle (by rw [hs]; rfl)] at hq
      cases hq
    | _ => simpa [Worker.uncalled, hs] using hq
  have hmem : i ∈ s.dispatchedTo w := by
    rw [hd w]
    exact List.mem_append_right _ huncalled
  exact List.mem_filterMap.mpr ⟨_, mem_dispatchedTo.mp hmem, rfl⟩

theorem WorkerMove.queue_sublist {w : Nat} {wk wk' : Worker O E ω} {new : List (TaskResult O E)}
    {seen : List (Event O E)} (h : WorkerMove w wk wk' new seen) :
    (seen.filterMap Event.callId ++ wk'.queue.map Task.id).Sublist (wk.queue.map Task.id) := by
  cases h with
  | take hs hq => simp [hq, Event.callId]
  | leave => exact List.Sublist.refl _
  | finish => exact List.Sublist.refl _
  | panic => exact List.nil_sublist _

/-- What a worker calls is taken from its queue. -/
theorem State.queued_work {w : Nat} {wk wk' : Worker O E ω} {new : List (TaskResult O E)} {seen : List (Event O E)}
    (hwk : s.workers[w]? = some wk) (hm : WorkerMove w wk wk' new seen) :
    (seen.filterMap Event.callId ++ (s.workers.set w wk').flatMap fun wk => wk.queue.map Task.id).Subperm s.queued := by
  refine List.subperm_ext_iff.mpr fun i _ => ?_
  have hset := (ListFacts.flatMap_set_perm hwk wk' fun wk => wk.queue.map Task.id).count_eq i
  have hsub := hm.queue_sublist.count_le i
  rw [List.count_append] at hsub hset ⊢
  rw [List.count_append] at hset
  rw [State.queued]
  omega

/-- The failing result has been received: `pre` is the log before it and `post` the log after it. -/
structure AfterFailure (dag : Dag K O E ω) (cap : Nat) (s : State K O E ω R) (k : K) (e : E) (pre : List (Event O E))
    (res : TaskResult O E) (post : List (Event O E)) : Prop where
  log : s.log = pre ++ .received res :: post
  out : res.out = .error e
  key : dag.nodes[res.id]?.map Node.key = some k
  silent : ∀ ev ∈ post, ∃ w i args, ev = .called w i args
  dispatched : ∀ i ∈ post.filterMap Event.callId ++ s.queued, i ∈ pre.filterMap Event.dispatchId
  count : (post.filterMap Event.callId ++ s.queued).length + 1 ≤ cap

/-- Leaving, the scheduler touches neither the log nor the queues. -/
theorem AfterFailure.frame {cap : Nat} {k : K} {e : E} {pre post : List (Event O E)} {res : TaskResult O E}
    (h : AfterFailure dag cap s k e pre res post) (hlog : s'.log = s.log) (hqueued : s'.queued = s.queued) :
    AfterFailure dag cap s' k e pre res post where
  log := hlog.trans h.log
  out := h.out
  key := h.key
  silent := h.silent
  dispatched := by rw [hqueued]; exact h.dispatched
  count := by rw [hqueued]; exact h.count

theorem AfterFailure.work {cap : Nat} {k : K} {e : E} {pre post : List (Event O E)} {res : TaskResult O E}
    (h : AfterFailure dag cap s k e pre res post) {w : Nat} {wk wk' : Worker O E ω} {new : List (TaskResult O E)}
    {seen : List (Event O E)} (hwk : s.workers[w]? = some wk) (hm : WorkerMove w wk wk' new seen) :
    AfterFailure dag cap { s with workers := s.workers.set w wk', results := s.results ++ new, log := s.log ++ seen }
      k e pre res (post ++ seen) := by
  have hqueued := s.queued_work hwk hm
  refine ⟨?_, h.out, h.key, fun ev hev => ?_, fun i hi => ?_, ?_⟩
  · simp [h.log]
  · rcases List.mem_append.mp hev with hold | hnew
    · exact h.silent ev hold
    · cases hm with
      | take => exact ⟨_, _, _, List.mem_singleton.mp hnew⟩
      | _ => cases hnew
  · rw [List.filterMap_append, List.append_assoc] at hi
    refine h.dispatched i ?_
    rcases List.mem_append.mp hi with hold | hnew
    · exact List.mem_append_left _ hold
    · exact List.mem_append_right _ (hqueued.subset hnew)
  · have hle := hqueued.length_le
    have hcount := h.count
    simp only [List.filterMap_append, List.length_append, State.queued] at hle hcount ⊢
    omega

section

variable [ExecObserver R] {observer : R}

/-- From the moment a task's failure is received. -/
theorem Runs.afterFailure (h : Runs dag cfg outs observer ctx s) : ∀ k e,
    s.pc.ret = some (.error (.taskFailed k e)) →
      ∃ pre res post, AfterFailure dag ctx.effectiveCap s k e pre res post := by
  have hg := h.good
  refine h.induct (P := fun s => ∀ k e, s.pc.ret = some (.error (.taskFailed k e)) →
    ∃ pre res post, AfterFailure dag ctx.effectiveCap s k e pre res post) (fun s0 hi k e hret => ?_)
    fun s s' hrun hf hm k e hret => ?_
  · rw [hi.pc] at hret
    cases hret
  cases hm with
  | work hwk hm =>
    obtain ⟨pre, res, post, hafter⟩ := hf k e hret
    exact ⟨pre, res, _, hafter.work hwk hm⟩
  | sched hm =>
    have hstay : ∀ {t : State K O E ω R}, t.log = s.log → t.queued = s.queued →
        s.pc.ret = some (.error (.taskFailed k e)) →
        ∃ pre res post, AfterFailure dag ctx.effectiveCap t k e pre res post := by
      intro t hlog hqueued hret'
      obtain ⟨pre, res, post, hafter⟩ := hf k e hret'
      exact ⟨pre, res, post, hafter.frame hlog hqueued⟩
    cases hm with
    | goto n hgoto =>
      cases hgoto with
      | closed hpc => exact hstay rfl rfl (by rw [hpc]; exact hret)
      | joined hpc => exact hstay rfl rfl (by rw [hpc]; exact hret)
      | _ => cases hret
    | @fail res results e' nd observer hpc hr hout hnd =>
      cases hret
      refine ⟨s.log, res, [], rfl, hout, ?_, (fun ev hev => by cases hev), fun i hi => ?_, ?_⟩
      · rw [← hg.dag_eq, hnd]
        rfl
      · exact hrun.inv.queued_dispatched hrun.delivered hi
      · have hle := hrun.inFlight_le
        obtain ⟨dropped, hacct, -⟩ := hrun.inv.account
        have hflight := s.in_flight_length_le
        rw [State.undelivered, hr, List.map_cons, List.length_cons] at hflight
        rw [hacct.inFlight] at hle
        show s.queued.length + 1 ≤ _
        omega
    | @closeTx i r wk hpc hwk =>
      exact hstay rfl (ListFacts.flatMap_set_eq hwk (fun wk => wk.queue.map Task.id) rfl) (by rw [hpc]; exact hret)
    | leave hpc => exact hstay rfl rfl (by rw [hpc]; exact hret)
    | _ => cases hret

/-- When the scheduler leaves with `Ok`, nothing is open any more. -/
theorem Runs.outstanding_of_ok (h : Runs dag cfg outs observer ctx s) {a : List (Option O) × List Bool}
    (hret : s.pc.ret = some (.ok a)) : s.outstanding = [] := by
  refine List.eq_nil_iff_forall_not_mem.mpr fun i hi => ?_
  obtain ⟨hn, hd⟩ := h.of_open (State.away_sub_open (State.outstanding_sub_away hi))
  cases h.ret_verdict hret with
  | ok hall =>
    rw [h.all_done hall i hn] at hd
    cases hd

omit [ExecObserver R] in
theorem Ctx.Good.effectiveCap_le (h : ctx.Good dag cfg outs) :
    ctx.effectiveCap ≤ min cfg.maxInFlight (cfg.maxWorkers * (cfg.workerQueueCap + 1)) := by
  rw [h.effectiveCap]
  refine Nat.le_min.mpr ⟨Nat.min_le_left _ _, Nat.le_trans (Nat.min_le_right _ _) ?_⟩
  exact Nat.le_trans (Nat.min_le_right _ _) (Nat.mul_le_mul_left _ (Nat.min_le_right _ _))

/-- **Shutdown loses nothing and leaves nothing behind.**

- When the call returns, whatever it returns, and no task has panicked, every worker has left its loop and its queue is
  empty, each worker has called what was dispatched to it, in that order, and each dispatched task was called once.
- When the scheduler is leaving with a failure, nothing was dispatched after the failing result was received; the
  functions called since were dispatched before, and they are at most
  `min(max_in_flight, max_workers * (worker_queue_cap + 1)) - 1`.
- When it is leaving with `Ok`, nothing is queued, running or undelivered. -/
theorem shutdown_clean (h : Runs dag cfg outs observer ctx s) :
    (∀ ret, s.pc = .returned ret → s.panics = false → (∀ wk ∈ s.workers, wk.status = .exited ∧ wk.queue = []) ∧
      (∀ w, s.dispatchedTo w = s.calledBy w) ∧ ∀ w i, Event.dispatched w i ∈ s.log → s.called.count i = 1) ∧
    (∀ k e, s.pc.ret = some (.error (.taskFailed k e)) → ∃ pre res post, s.log = pre ++ .received res :: post ∧
      res.out = .error e ∧ dag.nodes[res.id]?.map Node.key = some k ∧ (∀ ev ∈ post, ∃ w i args, ev = .called w i args) ∧
      (∀ i ∈ post.filterMap Event.callId, i ∈ pre.filterMap Event.dispatchId) ∧
      (post.filterMap Event.callId).length ≤ min cfg.maxInFlight (cfg.maxWorkers * (cfg.workerQueueCap + 1)) - 1) ∧
    ∀ a, s.pc.ret = some (.ok a) → s.queued = [] ∧ s.running = [] ∧ s.undelivered = [] := by
  refine ⟨fun ret hpc hno => ⟨h.joined hpc hno, h.delivered_returned hpc hno, fun w i hi => ?_⟩, fun k e hret => ?_,
    fun a hret => ?_⟩
  · refine List.count_eq_one_of_mem h.called_nodup (calledBy_sub_called (w := w) ?_)
    rw [← h.delivered_returned hpc hno, mem_dispatchedTo]
    exact hi
  · obtain ⟨pre, res, post, hafter⟩ := h.afterFailure k e hret
    refine ⟨pre, res, post, hafter.log, hafter.out, hafter.key, hafter.silent,
      fun i hi => hafter.dispatched i (List.mem_append_left _ hi), ?_⟩
    have hcap := h.good.effectiveCap_le
    have hcount := hafter.count
    rw [List.length_append] at hcount
    omega
  · have hflight := s.in_flight_length_le
    rw [h.outstanding_of_ok hret, List.length_nil] at hflight
    refine ⟨List.length_eq_zero_iff.mp ?_, List.length_eq_zero_iff.mp ?_, List.length_eq_zero_iff.mp ?_⟩
    · omega
    · omega
    · omega

omit [ExecObserver R] in
/-- One worker: the first task fails while the second is queued behind it, and the second is called after that. -/
theorem shutdown_clean_diamond : ∃ (ctx : Ctx Nat Nat Nat Unit) (s : State Nat Nat Nat Unit Unit),
    Runs (Dag.diamond (.err 7)) ⟨1, 4, 2⟩ [3] () ctx s ∧ s.pc = .returned (.error (.taskFailed 1 7)) ∧ s.called = [1, 2] ∧
      (∀ wk ∈ s.workers, wk.status = .exited ∧ wk.queue = []) ∧ s.dispatchedTo 0 = s.calledBy 0 ∧
      ∃ pre res post, s.log = pre ++ .received res :: post ∧ res.out = .error 7 ∧
        (post.filterMap Event.callId).length ≤ min 4 (1 * (2 + 1)) - 1 := by
  have hv : (⟨1, 4, 2⟩ : ExecutorConfig).Valid := ⟨by decide, by decide, by decide⟩
  have hs : TasksReturn (Dag.diamond (.err 7)) [3] := Dag.diamond_tasksReturn nofun
  obtain ⟨s, hrun, hpc⟩ : ∃ s,
      Runs (Dag.diamond (.err 7)) ⟨1, 4, 2⟩ [3] () ((Dag.diamondPrepared (.err 7) ()).ctx ⟨1, 4, 2⟩) s ∧
      (s.pc, s.called) = (.returned (.error (.taskFailed 1 7)), [1, 2]) :=
    exists_played hv (List.cons_ne_nil 3 []) (Dag.prepare_diamond (.err 7) ())
      (List.replicate 8 .scheduler ++ List.replicate 2 (.worker 0 ()) ++ List.replicate 3 .scheduler ++
        List.replicate 3 (.worker 0 ()) ++ List.replicate 2 .scheduler) _ rfl
  obtain ⟨hpc, hcalled⟩ := Prod.mk.inj hpc
  obtain ⟨hreturned, hfailed, -⟩ := shutdown_clean hrun
  obtain ⟨hexited, hserved, -⟩ := hreturned _ hpc (hrun.no_panic hs)
  obtain ⟨pre, res, post, hlog, hout, -, -, -, hcount⟩ := hfailed 1 7 (by rw [hpc]; rfl)
  exact ⟨_, s, hrun, hpc, hcalled, hexited, hserved 0, pre, res, post, hlog, hout, hcount⟩

end

end DagExec
