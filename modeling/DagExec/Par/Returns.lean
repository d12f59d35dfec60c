import DagExec.Par.Progress
import DagExec.Par.Calls
import DagExec.Common.Report

/-!
# What a parallel run returns

A run that is not rejected returns the verdict of its last state: it makes a `Report`, or a task has panicked
(`RunParallel.report`). When no needed task panics on its reference arguments, no task of any run panics
(`Runs.no_panic`), so every completed run makes a report, and there is one (`exists_returned`).
-/

namespace DagExec

open Outcome

variable {K O E ω R : Type} {ctx : Ctx K O E ω} {cfg : ExecutorConfig} {dag : Dag K O E ω} {outs : List K}

section

variable [ExecObserver R] {s : State K O E ω R} {observer : R}

/-- The verdict the scheduler is leaving with. -/
theorem Runs.ret_verdict (h : Runs dag cfg outs observer ctx s) {ret : Ret K O E} (hret : s.pc.ret = some ret) :
    Verdict ctx.plan s ret := by
  have hok := h.inv.pc
  cases hpc : s.pc <;> rw [hpc] at hok hret <;> cases hret <;> exact hok

/-- The verdict of a state that has returned. -/
theorem Runs.verdict (h : Runs dag cfg outs observer ctx s) {ret : Ret K O E} (hpc : s.pc = .returned ret) :
    Verdict ctx.plan s ret := h.ret_verdict (by rw [hpc]; rfl)

/-- Without panics and failing tasks, the scheduler leaves with `Ok` or with a cycle. -/
theorem Runs.ok_or_cycle (h : Runs dag cfg outs observer ctx s) (hfail : ∀ i e, dag.Needed outs i → ¬ FailsWith dag i e)
    (hp : s.panics = false) {ret : Ret K O E} (hret : s.pc.ret = some ret) :
    (∃ a, ret = .ok a) ∨ ∃ rem, ret = .error (.cycle rem) := by
  have hg := h.good
  cases h.ret_verdict hret with
  | ok hall => exact .inl ⟨_, rfl⟩
  | cycle hb => exact .inr ⟨_, rfl⟩
  | @failed res nd e hok hn hnd he =>
    obtain ⟨f, args, w, hf, ha, hc⟩ := hok
    rw [TaskResult.call, he] at hc
    rw [hg.dag_eq] at hf ha
    exact absurd ⟨evaluable_iff.mpr ⟨args, ha⟩, f, args, w, hf, ha, hc⟩
      (hfail res.id e (hg.dag_eq ▸ (hg.plan.needed res.id).mp hn))
  | died msg hpan =>
    rw [hp] at hpan
    cases hpan

/-- When as many nodes are processed as are needed, every needed node is. -/
theorem Runs.all_done (h : Runs dag cfg outs observer ctx s) (hall : s.processed = ctx.plan.neededCount) :
    ∀ i, dag.Needed outs i → isDone s.vals i = true := by
  have hg := h.good
  obtain ⟨dropped, hacct, -⟩ := h.inv.account
  rwa [hacct.processed, hacct.books.doneCount_eq_iff hg.plan, hg.dag_eq] at hall

/-- Before that, some needed node is not. -/
theorem Runs.exists_undone (h : Runs dag cfg outs observer ctx s) (hlt : s.processed < ctx.plan.neededCount) :
    ∃ i, dag.Needed outs i ∧ isDone s.vals i = false := by
  have hg := h.good
  obtain ⟨dropped, hacct, -⟩ := h.inv.account
  by_contra hno
  refine Nat.ne_of_lt hlt ?_
  rw [hacct.processed, hacct.books.doneCount_eq_iff hg.plan, hg.dag_eq]
  refine fun i hi => ?_
  by_contra hd
  exact hno ⟨i, hi, by simpa using hd⟩

variable [DecidableEq K]

/-- What a returned state reports. -/
theorem Runs.report (h : Runs dag cfg outs observer ctx s) {ret : Ret K O E} (hpc : s.pc = .returned ret) :
    (s.panics = true ∧ ∃ msg, finishRun dag outs ret = .err (.internalInvariant msg)) ∨
      Report dag outs s.vals (finishRun dag outs ret) := by
  have hg := h.good
  have hdag := hg.dag_eq
  obtain ⟨dropped, hacct, -⟩ := h.inv.account
  cases h.verdict hpc with
  | ok hall =>
    have hdone := h.all_done hall
    obtain ⟨m, hm, -⟩ := collect_of_done hg.keys hdone
    simp only [finishRun, hm]
    exact .inr (.ok hdag hacct.books hg.keys hdone hm)
  | cycle hb => exact .inr (.cycle hdag hg.plan hb)
  | failed hok hn hnd he =>
    subst hdag
    obtain ⟨f, args, w, ⟨nd, hi, hk⟩, ha, hf⟩ := hok
    rw [hi] at hnd
    cases hnd
    exact .inr (.failed ((hg.plan.needed _).mp hn) hi hk ha (by rw [hf, TaskResult.call, he]))
  | died msg hp => exact .inl ⟨hp, msg, rfl⟩

end

section

variable [DecidableEq K]

/-- A completed run is rejected, or a task has panicked in it, or it makes a report. -/
theorem RunParallel.report {panics : Bool} {r : Outcome (ExecError K E) (HashMap K O)} {log : List (Event O E)}
    (h : RunParallel dag cfg outs panics r log) :
    (¬ (cfg.Valid ∧ outs ≠ [] ∧ dag.KeysExist outs) ∧ (∃ e, r = .err e ∧ ∀ k e', e ≠ .taskFailed k e') ∧ log = []) ∨
      (panics = true ∧ ∃ msg, r = .err (.internalInvariant msg)) ∨ outs ≠ [] ∧ ∃ vals, Report dag outs vals r := by
  cases h with
  | @rejected e he =>
    have hv : ¬ (cfg.Valid ∧ outs ≠ [] ∧ dag.KeysExist outs) := fun hv => by
      obtain ⟨ctx, s0, hs, -⟩ := parStart_ok hv.1 hv.2.1 hv.2.2 ()
      rw [he] at hs
      cases hs
    refine .inl ⟨hv, ⟨e, rfl, ?_⟩, rfl⟩
    rcases parStart_err hv () with ⟨msg, herr⟩ | ⟨k, -, -, herr⟩ <;> rw [he] at herr <;> cases herr <;> nofun
  | completed hrun hpc =>
    rcases hrun.report hpc with hdied | hrep
    · exact .inr (.inl hdied)
    · exact .inr (.inr ⟨hrun.good.nonempty, _, hrep⟩)

end

/-- A run that reports a cycle has called only nodes that it has processed. -/
theorem Runs.called_done [ExecObserver R] {s : State K O E ω R} {observer : R} (h : Runs dag cfg outs observer ctx s)
    (hb : Books ctx.plan s.vals s.indeg fun _ => 0) {i : NodeId} (hi : i ∈ s.called) : ∃ v, Evaluates dag i v := by
  have htask := (h.called_needed hi).2
  have hpos := List.count_pos_iff.mpr hi
  rw [(h.calls i).1 htask] at hpos
  obtain ⟨dropped, hacct, -⟩ := h.inv.account
  have hplace := hacct.books.ledger.place i
  have hplace' := hb.ledger.place i
  have hle := s.started_count_le i
  rw [List.count_append] at hplace
  obtain rfl := h.good.dag_eq
  cases hd : isDone s.vals i with
  | true => exact (isDone_iff.mp hd).imp fun v hv => hb.value i v hv
  | false =>
    rw [hd, Bool.toNat_false] at hpos
    omega

/-! ## Runs without panics -/

section

variable {s s' : State K O E ω R}

/-- What a worker runs is a needed task on reference values of its dependencies. -/
theorem Account.running_ok (h : Account ctx s) (hg : ctx.plan.Good outs) {wk : Worker O E ω} (hwk : wk ∈ s.workers)
    {task : Task O E ω} (hst : wk.status = .running task) :
    ctx.plan.dag.Needed outs task.id ∧ task.Ok ctx.plan.dag := by
  obtain ⟨dropped, hacct, -⟩ := h
  have hmem : task ∈ s.tasks := State.mem_tasks.mpr ⟨wk, hwk, by simp [Worker.tasks, hst, WorkerStatus.tasks]⟩
  exact ⟨(hacct.of_open hg (State.away_sub_open (State.task_away hmem))).1, hacct.tasks_ok task hmem⟩

/-- When no needed task panics, no step is a panic. -/
theorem WorkerMove.not_panic (hs : TasksReturn ctx.plan.dag outs) (hacct : Account ctx s) (hg : ctx.plan.Good outs)
    {w : Nat} {wk wk' : Worker O E ω} {new : List (TaskResult O E)} {seen : List (Event O E)}
    (hwk : s.workers[w]? = some wk) (hm : WorkerMove w wk wk' new seen) : wk'.status.isPanicked = false := by
  cases hm with
  | @panic task env hst hf =>
    obtain ⟨hn, ht, ha⟩ := hacct.running_ok hg (List.mem_of_getElem? hwk) hst
    exact absurd hf (hs task.id task.func task.args hn ht ha env)
  | _ => rfl

theorem State.panics_set_false (h : s.panics = false) {w : Nat} {wk' : Worker O E ω}
    (hwk' : wk'.status.isPanicked = false) : (s.workers.set w wk').any (fun wk => wk.status.isPanicked) = false :=
  List.any_eq_false.mpr (ListFacts.forall_mem_set (List.any_eq_false.mp h) (by rw [hwk']; nofun))

/-- A step of the scheduler is no panic. -/
theorem SchedMove.no_panic (hm : SchedMove ctx s s') (h : s.panics = false) : s'.panics = false := by
  have hall : ∀ wk ∈ s.workers, wk.status.isPanicked = false := by simpa using List.any_eq_false.mp h
  cases hm with
  | @sent _ _ _ _ wk _ hpc hwk => exact State.panics_set_false h (hall wk (List.mem_of_getElem? hwk))
  | @closeTx _ _ wk hpc hwk => exact State.panics_set_false h (hall wk (List.mem_of_getElem? hwk))
  | _ => exact h

variable [ExecObserver R] {observer : R}

theorem Runs.no_panic (h : Runs dag cfg outs observer ctx s) (hs : TasksReturn dag outs) : s.panics = false := by
  have hg := h.good
  obtain rfl := hg.dag_eq
  refine h.induct (P := fun s => s.panics = false) (fun s0 hi => hi.panics) fun s s' hrun hno hm => ?_
  cases hm with
  | work hwk hm => exact State.panics_set_false hno (hm.not_panic hs hrun.inv.account hg.plan hwk)
  | sched hm => exact hm.no_panic hno

/-- From every state, some interleaving leads to a state in which nothing can step. -/
theorem Runs.exists_final (h : Runs dag cfg outs observer ctx s) :
    ∃ t : State K O E ω R, Runs dag cfg outs observer ctx t ∧ Machine.Reach (step ctx) s t ∧
      Machine.Final (step ctx) t := by
  obtain ⟨t, ht, hfinal⟩ := Machine.exists_final Rank.lt_wf (I := Runs dag cfg outs observer ctx) (State.rank ctx.plan)
    (fun a t u ht (hs : step ctx a t = some u) => ht.tail hs) (fun a t u ht hs => rank_decreases ht hs) s h
  obtain ⟨s0, h0, hr⟩ := h
  exact ⟨t, ⟨s0, h0, hr.trans ht⟩, ht, hfinal⟩

/-- Without panics, some run is completed. -/
theorem exists_returned [Inhabited ω] (hv : cfg.Valid) (hne : outs ≠ []) (hk : dag.KeysExist outs)
    (hs : TasksReturn dag outs) (observer : R) :
    ∃ (ctx : Ctx K O E ω) (s : State K O E ω R) (ret : Ret K O E), Runs dag cfg outs observer ctx s ∧
      s.pc = .returned ret := by
  obtain ⟨ctx, s0, h0, -⟩ := exists_initial hv hne hk observer
  obtain ⟨t, ht, -, hfinal⟩ := h0.exists_final
  by_contra hno
  obtain ⟨a, u, hu⟩ := ht.inv.enabled (ht.no_panic hs) fun ret hret => hno ⟨ctx, t, ret, ht, hret⟩
  rw [hfinal a] at hu
  cases hu

end

/-! ## Completed runs -/

namespace RunParallel

variable [DecidableEq K] {panics : Bool} {r : Outcome (ExecError K E) (HashMap K O)} {log : List (Event O E)}

/-- What `collect_outputs` makes of the last state: it keeps `Ok` and it keeps the error. -/
theorem returned (h : RunParallel dag cfg outs panics r log) (hv : cfg.Valid) (hne : outs ≠ [])
    (hk : dag.KeysExist outs) :
    ∃ (ctx : Ctx K O E ω) (s : State K O E ω Unit), Runs dag cfg outs () ctx s ∧
      ((∃ a m, s.pc = .returned (.ok a) ∧ r = .ok m) ∨ ∃ e, s.pc = .returned (.error e) ∧ r = .err e) := by
  cases h with
  | rejected he =>
    obtain ⟨ctx, s0, hs, -⟩ := parStart_ok hv hne hk ()
    rw [he] at hs
    cases hs
  | @completed ctx s ret hrun hpc =>
    refine ⟨ctx, s, hrun, ?_⟩
    cases hrun.verdict hpc with
    | ok hall =>
      obtain ⟨m, hm, -⟩ := collect_of_done hk (hrun.all_done hall)
      exact .inl ⟨_, m, hpc, hm⟩
    | _ => exact .inr ⟨_, hpc, rfl⟩

theorem no_panic (h : RunParallel dag cfg outs panics r log) (hs : TasksReturn dag outs) : panics = false := by
  cases h with
  | rejected => rfl
  | completed hrun => exact hrun.no_panic hs

/-- No function is called twice. -/
theorem called_nodup (h : RunParallel dag cfg outs panics r log) : (log.filterMap Event.callId).Nodup := by
  cases h with
  | rejected => exact List.nodup_nil
  | completed hrun => exact hrun.called_nodup

/-- Only needed tasks are called. -/
theorem called_needed (h : RunParallel dag cfg outs panics r log) :
    ∀ i ∈ log.filterMap Event.callId, dag.Needed outs i ∧ ∃ f, dag.IsTask i f := by
  intro i hi
  cases h with
  | rejected => cases hi
  | completed hrun => exact hrun.called_needed hi

/-- A rejected run calls nothing. -/
theorem not_called (h : RunParallel dag cfg outs panics r log)
    (hrej : ¬ (cfg.Valid ∧ outs ≠ [] ∧ dag.KeysExist outs)) : log.filterMap Event.callId = [] := by
  cases h with
  | rejected => rfl
  | completed hrun => exact absurd ⟨hrun.good.valid, hrun.good.nonempty, hrun.good.keys⟩ hrej

/-- A run that reports a cycle has called only nodes with a value. -/
theorem called_value (h : RunParallel dag cfg outs panics r log) {rem : List K} (hr : r = .err (.cycle rem)) :
    ∀ i ∈ log.filterMap Event.callId, ∃ v, Evaluates dag i v := by
  intro i hi
  cases h with
  | rejected => cases hi
  | completed hrun hpc =>
    cases hrun.verdict hpc with
    | cycle hb => exact hrun.called_done hb hi
    | ok hall =>
      obtain ⟨m, hm, -⟩ := collect_of_done hrun.good.keys (hrun.all_done hall)
      rw [finishRun, hm] at hr
      cases hr
    | _ => cases hr

/-- A run that returns `Ok` has called every needed task. -/
theorem called_of_ok (h : RunParallel dag cfg outs panics r log) {m : HashMap K O} (hm : r = .ok m) {i : NodeId}
    {f : TaskFn O E ω} (hn : dag.Needed outs i) (hf : dag.IsTask i f) : i ∈ log.filterMap Event.callId := by
  cases h with
  | rejected => cases hm
  | completed hrun hpc =>
    cases hrun.verdict hpc with
    | ok hall => exact hrun.called_of_done hf (hrun.all_done hall i hn)
    | _ => cases hm

end RunParallel

end DagExec
