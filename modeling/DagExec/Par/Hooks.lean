import DagExec.Common.Told
import DagExec.Par.Steps
import DagExec.Par.Calls

/-!
# What the observer of a parallel run is told

In every state of a run the observer has been told the life of each node so far, wherever the calls come from: the
seeding, a source processed in place, the first or a repeated dispatch, the receipt of a result (`Runs.hooked`). A node
has started when it has been handed to a worker or processed, and it has finished when its result has been received.
-/

namespace DagExec

open Outcome

variable {K O E ω R : Type} [ExecObserver R] {ctx : Ctx K O E ω} {cfg : ExecutorConfig} {dag : Dag K O E ω}
  {outs : List K} {s s' : State K O E ω R} {observer : R}

/-- Node `i` has finished: it is processed, or its failure has been received. -/
def State.Ended (s : State K O E ω R) (i : NodeId) : Prop := isDone s.vals i = true ∨ i ∈ s.failed

/-- Node `i` has started: it has finished, or it is in flight. -/
def State.Begun (s : State K O E ω R) (i : NodeId) : Prop := s.Ended i ∨ i ∈ s.outstanding

/-- The calls the observer has had by a state. -/
structure Hooked (ctx : Ctx K O E ω) (cfg : ExecutorConfig) (outs : List K) (observer : R) (s : State K O E ω R)
    (hooks : List Hook) : Prop where
  observer : s.observer = replay hooks observer
  told : Told ctx.plan outs s.indeg s.Begun s.Ended hooks
  worker : ∀ i worker, .start i worker ∈ hooks → (worker = none ∧ ctx.plan.dag.IsSource i) ∨
    ∃ w, w < cfg.maxWorkers ∧ worker = some w ∧ .dispatched w i ∈ s.log

omit [ExecObserver R] in
/-- Processing a node ends it. -/
theorem State.ended_set {x : NodeId} {v : O} (hx : x < s.vals.length) (hv : s'.vals = s.vals.set x (some v))
    (hfailed : s'.failed = s.failed) (i : NodeId) : s'.Ended i ↔ s.Ended i ∨ i = x := by
  unfold State.Ended
  rw [hv, hfailed, isDone_set_iff hx]
  exact or_right_comm

omit [ExecObserver R] in
/-- A node that ends when its result is received had begun. -/
theorem State.begun_received {x : NodeId} (hended : ∀ i, s'.Ended i ↔ s.Ended i ∨ i = x)
    (hout : ∀ i, i ∈ s.outstanding ↔ i ∈ s'.outstanding ∨ i = x) (i : NodeId) : s.Begun i ↔ s'.Begun i := by
  unfold State.Begun
  rw [hended, hout, or_assoc, or_comm (a := i = x)]

namespace Hooked

variable {hooks : List Hook}

theorem worker_mono (h : Hooked ctx cfg outs observer s hooks) {log : List (Event O E)} (hlog : ∀ ev ∈ s.log, ev ∈ log)
    {i : NodeId} {worker : Option Nat} (hmem : .start i worker ∈ hooks) : (worker = none ∧ ctx.plan.dag.IsSource i) ∨
      ∃ w, w < cfg.maxWorkers ∧ worker = some w ∧ .dispatched w i ∈ log := by
  rcases h.worker i worker hmem with hsrc | ⟨w, hw, he, hd⟩
  · exact .inl hsrc
  · exact .inr ⟨w, hw, he, hlog _ hd⟩

/-- Steps the observer is not told of. -/
theorem frame (h : Hooked ctx cfg outs observer s hooks) (ho : s'.observer = s.observer) (hi : s'.indeg = s.indeg)
    (hv : s'.vals = s.vals) (hout : ∀ i, i ∈ s'.outstanding ↔ i ∈ s.outstanding) (hfailed : s'.failed = s.failed)
    (hlog : ∀ ev ∈ s.log, ev ∈ s'.log) : Hooked ctx cfg outs observer s' hooks where
  observer := ho.trans h.observer
  told := by
    rw [hi]
    refine h.told.congr (fun i => ?_) fun i => ?_
    · unfold State.Begun State.Ended
      rw [hv, hfailed, hout]
    · unfold State.Ended
      rw [hv, hfailed]
  worker := fun _ _ hmem => h.worker_mono hlog hmem

/-- Calls that start no node tell nothing new of the workers. -/
theorem worker_append (h : Hooked ctx cfg outs observer s hooks) {new : List Hook} {log : List (Event O E)}
    (hlog : ∀ ev ∈ s.log, ev ∈ log) (hnew : ∀ i worker, .start i worker ∈ new → worker = none ∧ ctx.plan.dag.IsSource i) :
    ∀ i worker, .start i worker ∈ hooks ++ new → (worker = none ∧ ctx.plan.dag.IsSource i) ∨
      ∃ w, w < cfg.maxWorkers ∧ worker = some w ∧ .dispatched w i ∈ log := by
  intro i worker hmem
  rcases List.mem_append.mp hmem with hold | hmem
  · exact h.worker_mono hlog hold
  · exact .inl (hnew i worker hmem)

end Hooked

omit [ExecObserver R] in
/-- A node is in one place at most. -/
theorem Acct.one_place {plan : Plan K O E ω} (h : Acct plan [] s) (i : NodeId) :
    (isDone s.vals i).toNat + s.ready.count i + (s.held.map Task.id).count i + s.outstanding.count i + s.failed.count i ≤ 1 := by
  have hplace := h.loop_books.ledger.place i
  have hcount := s.count_open i
  have := Bool.toNat_le (flag plan.needed i)
  rw [State.outstanding, List.count_append]
  omega

omit [ExecObserver R] in
theorem Acct.not_ended {plan : Plan K O E ω} (h : Acct plan [] s) {i : NodeId}
    (hi : 0 < s.ready.count i + (s.held.map Task.id).count i + s.outstanding.count i) : ¬ s.Ended i := by
  have hone := h.one_place i
  rintro (hd | hf)
  · rw [hd, Bool.toNat_true] at hone
    omega
  · have := List.count_pos_iff.mpr hf
    omega

omit [ExecObserver R] in
theorem Acct.not_begun {plan : Plan K O E ω} (h : Acct plan [] s) {i : NodeId}
    (hi : 0 < s.ready.count i + (s.held.map Task.id).count i) : ¬ s.Begun i := by
  have hone := h.one_place i
  rintro (he | ho)
  · exact h.not_ended (by omega) he
  · have := List.count_pos_iff.mpr ho
    omega

omit [ExecObserver R] in
/-- An open node is needed and its counter is zero. -/
theorem Acct.open_ready {plan : Plan K O E ω} (h : Acct plan [] s) {i : NodeId} (hi : i ∈ s.openIds) :
    flag plan.needed i = true ∧ counter s.indeg i = 0 := by
  have hopen := h.loop_books.ledger.of_open (List.count_pos_iff.mpr hi)
  exact ⟨hopen.1, hopen.2.2.2⟩

namespace Hooked

variable {hooks : List Hook}

/-- A dispatch. -/
theorem sent (h : Hooked ctx cfg outs observer s hooks) (hacct : Acct ctx.plan [] s) {task : Task O E ω} {idx : Nat}
    (hidx : idx < cfg.maxWorkers) (htask : task ∈ s.held)
    (ho : s'.observer = ExecObserver.markStart task.id (some idx) s.observer) (hi : s'.indeg = s.indeg)
    (hv : s'.vals = s.vals) (hout : ∀ i, i ∈ s'.outstanding ↔ i ∈ s.outstanding ∨ i = task.id)
    (hfailed : s'.failed = s.failed) (hlog : s'.log = s.log ++ [.dispatched idx task.id]) :
    Hooked ctx cfg outs observer s' (hooks ++ [.start task.id (some idx)]) := by
  obtain ⟨hn, h0⟩ := hacct.open_ready (State.away_sub_open (State.held_sub_away htask))
  have hheld := List.count_pos_iff.mpr (List.mem_map_of_mem (f := Task.id) htask)
  have hended : ∀ i, s'.Ended i ↔ s.Ended i := fun i => by
    unfold State.Ended
    rw [hv, hfailed]
  refine ⟨?_, ?_, fun i worker hmem => ?_⟩
  · rw [ho, h.observer, replay_append]
    rfl
  · rw [hi]
    refine (h.told.started hn h0 (hacct.not_begun (by omega)) (fun i => ?_) (some idx)).congr (fun i => Iff.rfl) hended
    show s'.Begun i ↔ s.Begun i ∨ i = task.id
    unfold State.Begun
    rw [hended, hout, or_assoc]
  · rcases List.mem_append.mp hmem with hold | hnew
    · exact h.worker_mono (fun ev hev => by rw [hlog]; exact List.mem_append_left _ hev) hold
    · cases List.mem_singleton.mp hnew
      exact .inr ⟨idx, hidx, rfl, by rw [hlog]; exact List.mem_append_right _ List.mem_cons_self⟩

/-- A source is processed in place. -/
theorem source (h : Hooked ctx cfg outs observer s hooks) (hg : ctx.plan.Good outs) (hacct : Acct ctx.plan [] s)
    {id : NodeId} {v : O} {ready rel : List NodeId} {indeg : List Nat} (hr : s.ready = id :: ready)
    (hsrc : ctx.plan.dag.IsSource id) (hfin : Finishes ctx.plan s id v indeg rel)
    (ho : s'.observer = replay (readyHooks ready.length rel)
      (ExecObserver.markFinish id (ExecObserver.markStart id none s.observer)))
    (hi : s'.indeg = indeg) (hv : s'.vals = s.vals.set id (some v)) (hout : s'.outstanding = s.outstanding)
    (hlog : s'.log = s.log) :
    Hooked ctx cfg outs observer s' (hooks ++ .start id none :: .finish id :: readyHooks ready.length rel) := by
  have hmem : id ∈ s.ready := by rw [hr]; exact List.mem_cons_self
  have hready := List.count_pos_iff.mpr hmem
  obtain ⟨hn, h0⟩ := hacct.open_ready (State.ready_sub_open hmem)
  have hfailed : s'.failed = s.failed := by rw [State.failed, State.failed, hlog]
  have hended := State.ended_set hfin.lt hv hfailed
  refine ⟨?_, ?_, h.worker_append (fun ev hev => by rw [hlog]; exact hev) fun i worker hmem => ?_⟩
  · rw [ho, h.observer, replay_append]
    rfl
  · have hstart : Told ctx.plan outs s.indeg (fun i => s.Begun i ∨ i = id) s.Ended (hooks ++ [.start id none]) :=
      h.told.started hn h0 (hacct.not_begun (by omega)) (fun i => Iff.rfl) none
    rw [List.append_cons, hi]
    refine (hstart.processed hg hacct.loop_books ready hfin.lt hfin.books (fun i => ?_) (.inr rfl)
      (hacct.not_ended (by omega)) (fun i hd => .inl hd) hended).congr (fun i => ?_) fun i => Iff.rfl
    · have := s.count_open i
      rw [hr, ListFacts.count_cons_eq] at this
      omega
    · show s'.Begun i ↔ s.Begun i ∨ i = id
      unfold State.Begun
      rw [hended, hout]
      exact or_right_comm
  · rcases List.mem_cons.mp hmem with hhead | hmem
    · cases hhead
      exact ⟨rfl, hsrc⟩
    · rcases List.mem_cons.mp hmem with hhead | hmem
      · cases hhead
      · obtain ⟨_, _, hc⟩ := ready_of_mem hmem
        cases hc

/-- A result is received and processed. -/
theorem complete (h : Hooked ctx cfg outs observer s hooks) (hg : ctx.plan.Good outs) (hacct : Acct ctx.plan [] s)
    {res : TaskResult O E} {results : List (TaskResult O E)} {v : O} {rel : List NodeId} {indeg : List Nat}
    (hr : s.results = res :: results) (hfin : Finishes ctx.plan s res.id v indeg rel)
    (ho : s'.observer = replay (readyHooks s.ready.length rel) (ExecObserver.markFinish res.id s.observer))
    (hi : s'.indeg = indeg) (hv : s'.vals = s.vals.set res.id (some v))
    (hout : ∀ i, i ∈ s.outstanding ↔ i ∈ s'.outstanding ∨ i = res.id) (hfailed : s'.failed = s.failed)
    (hlog : ∀ ev ∈ s.log, ev ∈ s'.log) :
    Hooked ctx cfg outs observer s' (hooks ++ .finish res.id :: readyHooks s.ready.length rel) := by
  have hmem : res.id ∈ s.outstanding := (hout res.id).mpr (.inr rfl)
  have hpos := List.count_pos_iff.mpr hmem
  have hended := State.ended_set hfin.lt hv hfailed
  refine ⟨?_, ?_, h.worker_append hlog fun i worker hmem => ?_⟩
  · rw [ho, h.observer, replay_append]
    rfl
  · rw [hi]
    refine (h.told.processed hg hacct.loop_books s.ready hfin.lt hfin.books (fun i => ?_) (.inr hmem)
      (hacct.not_ended (by omega)) (fun i hd => .inl hd) hended).congr (fun i => (State.begun_received hended hout i).symm)
      fun i => Iff.rfl
    have := s.count_open i
    rw [hr, List.map_cons, ListFacts.count_cons_eq] at this
    omega
  · rcases List.mem_cons.mp hmem with hhead | hmem
    · cases hhead
    · obtain ⟨_, _, hc⟩ := ready_of_mem hmem
      cases hc

/-- A failure is received. -/
theorem fail (h : Hooked ctx cfg outs observer s hooks) (hacct : Acct ctx.plan [] s) {res : TaskResult O E}
    (ho : s'.observer = ExecObserver.markFinish res.id s.observer) (hi : s'.indeg = s.indeg) (hv : s'.vals = s.vals)
    (hout : ∀ i, i ∈ s.outstanding ↔ i ∈ s'.outstanding ∨ i = res.id) (hfailed : s'.failed = s.failed ++ [res.id])
    (hlog : ∀ ev ∈ s.log, ev ∈ s'.log) : Hooked ctx cfg outs observer s' (hooks ++ [.finish res.id]) := by
  have hmem : res.id ∈ s.outstanding := (hout res.id).mpr (.inr rfl)
  have hpos := List.count_pos_iff.mpr hmem
  have hended : ∀ i, s'.Ended i ↔ s.Ended i ∨ i = res.id := fun i => by
    unfold State.Ended
    rw [hv, hfailed, List.mem_append, List.mem_singleton, or_assoc]
  refine ⟨?_, ?_, h.worker_append hlog fun i worker hmem => ?_⟩
  · rw [ho, h.observer, replay_append]
    rfl
  · rw [hi]
    exact (h.told.finished (.inr hmem) (hacct.not_ended (by omega)) hended).congr
      (fun i => (State.begun_received hended hout i).symm) fun i => Iff.rfl
  · cases List.mem_singleton.mp hmem

end Hooked

/-- The nodes released by a step that succeeds. -/
theorem released_of_ok {dependents : List (List NodeId)} {indeg indeg' : List Nat} {ready rel : List NodeId} {src : NodeId}
    {r r' : R} (h : (releaseDependents dependents indeg ready src r : Outcome (ExecError K E) _) =
      ok (indeg', ready ++ rel, r')) : r' = replay (readyHooks ready.length rel) r := by
  obtain ⟨rel', hq, ho⟩ := releaseDependents_hooks h
  rw [← List.append_cancel_left hq] at ho
  exact ho

/-- At the start the observer has been told of the seeded nodes. -/
theorem Initial.hooked {s0 : State K O E ω R} (hs : parStart dag cfg outs observer = ok (ctx, s0)) :
    Hooked ctx cfg outs observer s0 (readyHooks 0 ctx.plan.seeds) := by
  obtain ⟨hg, hi⟩ := parStart_start hs
  obtain ⟨p, hp, -, -, -, hr, ho, -⟩ := parStart_prepared hs
  have hidle : ∀ i, ¬ s0.Ended i := fun i => by
    unfold State.Ended State.failed
    rw [not_done_of_doneCount_zero hi.nothing_done, hi.log]
    simp
  refine ⟨?_, Told.seeds hg.plan (hi.ready ▸ hi.books) hi.nothing_done (fun i => ?_) hidle, fun i worker hmem => ?_⟩
  · rw [← ho, prepare_hooks hp, hr, hi.ready]
  · unfold State.Begun State.outstanding
    rw [hi.tasks, hi.results]
    simp [hidle i]
  · obtain ⟨_, _, hc⟩ := ready_of_mem hmem
    cases hc

omit [ExecObserver R] in
/-- The nodes in flight when a result has been taken from the channel. -/
theorem State.mem_outstanding_cons {res : TaskResult O E} {results : List (TaskResult O E)} (hr : s.results = res :: results)
    (htasks : s'.tasks = s.tasks) (hres : s'.results = results) (i : NodeId) :
    i ∈ s.outstanding ↔ i ∈ s'.outstanding ∨ i = res.id := by
  simp only [State.outstanding, htasks, hres, hr, List.map_cons, List.mem_append, List.mem_cons]
  tauto

/-- **What a parallel run's observer is told.** -/
theorem Runs.hooked (h : Runs dag cfg outs observer ctx s) : ∃ hooks, Hooked ctx cfg outs observer s hooks := by
  have hg := h.good
  refine h.induct_sched (P := fun s => ∃ hooks, Hooked ctx cfg outs observer s hooks)
    (fun s0 hs => ⟨_, Initial.hooked hs⟩) (fun s s' hrun hh hs hm => ?_) fun s w wk wk' new seen hrun hh hwk hm => ?_
  · obtain ⟨hooks, hh⟩ := hh
    have hinv := hrun.inv
    cases hm with
    | @source id v ready rel indeg observer hpc hcap hp hr hsrc hfin =>
      have hrel := hinv.source_release hg hpc hcap hp hr hsrc hs
      exact ⟨_, hh.source hg.plan (hinv.acct (by rw [hpc]; rfl)) hr hsrc hfin (released_of_ok hrel) rfl rfl rfl rfl⟩
    | @complete res results v rel indeg observer hpc hr hout hfin =>
      have hrel := hinv.complete_release hg hpc hr hout hs
      exact ⟨_, hh.complete hg.plan (hinv.acct (by rw [hpc]; rfl)) hr hfin (released_of_ok hrel) rfl rfl
        (State.mem_outstanding_cons hr rfl rfl) (failed_received_ok s.log hout) fun ev hev => List.mem_append_left _ hev⟩
    | @fail res results e nd observer hpc hr hout hnd =>
      exact ⟨_, hh.fail (hinv.acct (by rw [hpc]; rfl)) (hinv.fail_observer hpc hr hout hs) rfl rfl
        (State.mem_outstanding_cons hr rfl rfl) (failed_received_error s.log hout) fun ev hev =>
          List.mem_append_left _ hev⟩
    | @sent task left idx n wk observer hpc hwk hlive hroom =>
      have hW : 0 < s.workers.length := hinv.pool.size.symm ▸ hg.valid.workers
      have hlt := (List.getElem?_eq_some_iff.mp hwk).1
      rw [hinv.pool.size] at hlt
      refine ⟨_, hh.sent (hinv.acct (by rw [hpc]; rfl)) hlt (by simp [State.held, hpc, Pc.tasks])
        (sent_observer hW hpc hs rfl) rfl rfl (fun i => ?_) (failed_dispatched s.log idx task.id) rfl⟩
      have htasks := ((State.tasks_sent hwk task).map Task.id).mem_iff (a := i)
      simp only [State.outstanding, List.mem_append, List.map_append, List.map_cons, List.map_nil,
        List.mem_singleton] at htasks ⊢
      rw [State.tasks, htasks, State.tasks]
      tauto
    | goto n hgoto => exact ⟨hooks, hh.frame rfl rfl rfl (fun i => Iff.rfl) rfl fun ev hev => hev⟩
    | closeTx hpc hwk =>
      refine ⟨hooks, hh.frame rfl rfl rfl (fun i => ?_) rfl fun ev hev => hev⟩
      unfold State.outstanding State.tasks
      rw [State.tasks_closed hwk, State.tasks]
    | _ => exact ⟨hooks, hh.frame rfl rfl rfl (fun i => Iff.rfl) rfl fun ev hev => hev⟩
  · obtain ⟨hooks, hh⟩ := hh
    have hfailed : (s.log ++ seen).filterMap Event.failed = s.failed := by
      rw [List.filterMap_append, hm.seen_failed, List.append_nil, State.failed]
    exact ⟨hooks, hh.frame rfl rfl rfl (fun i => (outstanding_work hwk hm).mem_iff) hfailed fun ev hev =>
      List.mem_append_left _ hev⟩

end DagExec
