import DagExec.Par.Steps
import DagExec.Par.Shutdown
import DagExec.Seq.Reach
import DagExec.Seq.Runs

/-!
# One task in flight

With `max_in_flight = 1` a parallel run follows the sequential one: in every state of the parallel run there is a state
of the sequential run with the same tables (`Lockstep`). They differ in the node at the front of the sequential queue
alone: the scheduler still has it in `ready`, or has picked it, or a worker has called it.

- `Lockstep.head`: a node in the hands of the scheduler or of a worker is the front of the sequential queue;
- `Lockstep.sched`, `Lockstep.work`: what a step of each thread does to the sequential state;
- `Runs.lockstep`: the run lemma;
- `lockstep_exact`: the calls are the same, in the same order, and so is the failure.
-/

namespace DagExec

open Outcome

variable {K O E ω : Type}

def Event.invocation : Event O E → Option (Invocation O)
  | .called _ id args => some ⟨id, args⟩
  | _ => none

/-- The calls made so far, with their arguments, in order. -/
def State.invoked (s : State K O E ω Unit) : List (Invocation O) := s.log.filterMap Event.invocation

theorem State.called_eq (s : State K O E ω Unit) : s.called = s.invoked.map Invocation.id := by
  rw [State.called, State.invoked, List.map_filterMap]
  congr 1
  funext ev
  cases ev <;> rfl

/-- The node at the front of the sequential queue: still in `ready`, picked, or called. -/
inductive Front (plan : Plan K O E ω) (s : State K O E ω Unit) (t : SeqState O Unit) : Prop
  | ready (hq : t.q = s.ready) (hc : s.invoked = t.calls)
  | picked {id : NodeId} (hq : t.q = id :: s.ready) (hc : s.invoked = t.calls)
  | called {id : NodeId} {args : List O} (hq : t.q = id :: s.ready) (ha : RefArgs plan.dag id args)
      (hc : s.invoked = t.calls ++ [⟨id, args⟩])

/-- A state of the parallel run and the state of the sequential run that it goes with. -/
structure Lockstep (plan : Plan K O E ω) (s : State K O E ω Unit) (t : SeqState O Unit) : Prop where
  vals : s.vals = t.vals
  indeg : s.indeg = t.indeg
  front : Front plan s t

variable {ctx : Ctx K O E ω} {cfg : ExecutorConfig} {dag : Dag K O E ω} {outs : List K} {env : Nat → ω}
  {plan : Plan K O E ω} {s s' : State K O E ω Unit} {t : SeqState O Unit}

namespace Lockstep

/-- A step that leaves the tables, the queue and the calls as they are. -/
theorem frame (h : Lockstep plan s t) (hv : s'.vals = s.vals) (hi : s'.indeg = s.indeg) (hr : s'.ready = s.ready)
    (hc : s'.invoked = s.invoked) : Lockstep plan s' t := by
  refine ⟨hv.trans h.vals, hi.trans h.indeg, ?_⟩
  cases h.front with
  | ready hq hcalls => exact .ready (hq.trans hr.symm) (hc.trans hcalls)
  | picked hq hcalls => exact .picked (by rw [hr, hq]) (hc.trans hcalls)
  | called hq ha hcalls => exact .called (by rw [hr, hq]) ha (hc.trans hcalls)

/-- Both executors have the same nodes open: they keep the books of the same tables. -/
theorem count_open (h : Lockstep plan s t) (inv : SeqInv plan t) {dropped : List NodeId} (hacct : Acct plan dropped s)
    (i : NodeId) : t.q.count i = s.ready.count i + s.away.count i + dropped.count i := by
  have hseq := inv.books.ledger.place i
  have hpar := hacct.books.ledger.place i
  rw [h.vals, h.indeg] at hpar
  simp only [State.openIds, List.count_append] at hpar
  omega

/-- What is in the hands of the scheduler or of a worker is at the front of the sequential queue. -/
theorem head (h : Lockstep plan s t) (inv : SeqInv plan t) {dropped : List NodeId} (hacct : Acct plan dropped s)
    {i : NodeId} (hi : i ∈ s.away) : t.q = i :: s.ready := by
  have hpos := List.count_pos_iff.mpr hi
  have hcount := h.count_open inv hacct i
  have hfront : ∀ {id}, t.q = id :: s.ready → t.q = i :: s.ready := by
    intro id hq
    rw [hq, ListFacts.count_cons_eq] at hcount
    split at hcount
    · rename_i heq
      rw [hq, heq]
    · omega
  cases h.front with
  | ready hq hc =>
    rw [hq] at hcount
    omega
  | picked hq hc => exact hfront hq
  | called hq ha hc => exact hfront hq

/-- With nothing in their hands, both executors are at the same queue. -/
theorem rest (h : Lockstep plan s t) (inv : SeqInv plan t) (hacct : Acct plan [] s) (haway : s.away = []) :
    t.q = s.ready ∧ s.invoked = t.calls := by
  have hno : ∀ {id}, t.q ≠ id :: s.ready := by
    intro id hq
    have hcount := h.count_open inv hacct id
    rw [hq, ListFacts.count_cons_eq, if_pos rfl, haway, List.count_nil] at hcount
    omega
  cases h.front with
  | ready hq hc => exact ⟨hq, hc⟩
  | picked hq hc => exact absurd hq hno
  | called hq ha hc => exact absurd hq hno

/-- A node that has been called and is not processed is the last call, and the sequential run is about to make it. -/
theorem last_call (h : Lockstep plan s t) (inv : SeqInv plan t) {dropped : List NodeId} (hacct : Acct plan dropped s)
    {i : NodeId} (hi : i ∈ s.away) (hcalled : i ∈ s.called) :
    ∃ args, RefArgs plan.dag i args ∧ s.invoked = t.calls ++ [⟨i, args⟩] := by
  have hhead := h.head inv hacct hi
  have hold : s.invoked ≠ t.calls := by
    intro hc
    rw [State.called_eq, hc] at hcalled
    exact inv.not_called (by rw [hhead]; exact List.mem_cons_self) hcalled
  cases h.front with
  | ready hq hc => exact absurd hc hold
  | picked hq hc => exact absurd hc hold
  | @called id args hq ha hc =>
    rw [hhead, List.cons.injEq] at hq
    obtain ⟨rfl, -⟩ := hq
    exact ⟨args, ha, hc⟩

/-- A node that has not been called has at most been picked. -/
theorem not_called (h : Lockstep plan s t) (inv : SeqInv plan t) {dropped : List NodeId} (hacct : Acct plan dropped s)
    {i : NodeId} (hi : i ∈ s.away) (hcalled : i ∉ s.called) : s.invoked = t.calls := by
  have hhead := h.head inv hacct hi
  cases h.front with
  | ready hq hc => exact hc
  | picked hq hc => exact hc
  | @called id args hq ha hc =>
    rw [hhead, List.cons.injEq] at hq
    obtain ⟨rfl, -⟩ := hq
    rw [State.called_eq, hc] at hcalled
    exact absurd (by simp) hcalled

end Lockstep

/-! ## The steps -/

/-- What the scheduler records is no call. -/
theorem invoked_append {log : List (Event O E)} {ev : Event O E} (h : ev.invocation = none) :
    (log ++ [ev]).filterMap Event.invocation = log.filterMap Event.invocation := by
  rw [List.filterMap_append, List.filterMap_cons_none h, List.filterMap_nil, List.append_nil]

/-- With one task allowed in flight, nothing is in the hands of anyone when the scheduler takes the next node. -/
theorem Inv.away_nil (h : Inv ctx cfg s) (hcap : ctx.effectiveCap ≤ 1) (hpc : s.pc = .inner)
    (hlt : s.inFlight < ctx.effectiveCap) (hp : s.pending = none) : s.away = [] := by
  obtain ⟨dropped, hacct, hclean⟩ := h.account
  have hout : s.outstanding = [] := by
    refine List.length_eq_zero_iff.mp ?_
    rw [← hacct.inFlight]
    omega
  have hheld := State.held_nil hpc hp
  rw [State.away, hheld, hout, (hclean (by rw [hpc]; rfl)).2]
  rfl

/-- A started task has been called. -/
theorem Runs.started_called (h : Runs dag cfg outs () ctx s) {i : NodeId} {f : TaskFn O E ω} (hf : dag.IsTask i f)
    (hi : i ∈ s.started) : i ∈ s.called := by
  have hcalls := (h.calls i).1 ⟨f, hf⟩
  have hpos := List.count_pos_iff.mpr hi
  exact List.count_pos_iff.mp (by omega)

/-- The sequential run is about to make the call of a node whose result is known, with the same arguments and the same
result. -/
theorem Lockstep.next_call (h : Lockstep plan s t) (hdet : plan.dag.Deterministic) (inv : SeqInv plan t)
    {dropped : List NodeId} (hacct : Acct plan dropped s) {res : TaskResult O E} (hok : res.Ok plan.dag)
    (haway : res.id ∈ s.away) (hcalled : res.id ∈ s.called) (w : ω) :
    ∃ nd f args, plan.dag.nodes[res.id]? = some nd ∧ nd.kind = .task f ∧
      gatherArgs t.vals nd.deps = (ok args : Outcome (ExecError K E) _) ∧ f w args = res.call ∧
      s.invoked = t.calls ++ [⟨res.id, args⟩] := by
  obtain ⟨f, args, w', ⟨nd, hi, hk⟩, ha, hf⟩ := hok
  obtain ⟨args', ha', hc⟩ := h.last_call inv hacct haway hcalled
  obtain rfl := ha.unique hdet ha'
  have hopen : res.id ∈ t.q := by
    rw [h.head inv hacct haway]
    exact List.mem_cons_self
  obtain ⟨args', hgather, ha'⟩ := inv.books.gather (O := O) hi (List.count_pos_iff.mpr hopen)
  obtain rfl := ha.unique hdet ha'
  exact ⟨nd, f, args, hi, hk, hgather, by rw [← hf, hdet res.id f ⟨nd, hi, hk⟩ w w'], hc⟩

/-- A step of the sequential run that processes the same node with the same value leads to the same tables. -/
theorem Lockstep.processed {t' : SeqState O Unit} {id : NodeId} {q dsts : List NodeId} {v : O}
    {new : List (Invocation O)} (h : Lockstep plan s t) (hp : Processes plan env t t' id q v new dsts)
    (hvals : s'.vals = s.vals.set id (some v)) (hinv : s'.invoked = t.calls ++ new)
    (hrel : releaseDependents plan.dependents s.indeg q id () =
      (ok (s'.indeg, s'.ready, s'.observer) : Outcome (ExecError K E) _)) : Lockstep plan s' t' := by
  obtain ⟨dsts', hdsts, hfold⟩ := releaseDependents_ok hrel
  rw [hp.dependents, Option.some.injEq] at hdsts
  subst hdsts
  have hrelease := hp.release
  rw [← h.indeg, hfold] at hrelease
  simp only [ok.injEq, Prod.mk.injEq] at hrelease
  obtain ⟨hindeg, hready, -⟩ := hrelease
  refine ⟨?_, hindeg, .ready hready.symm ?_⟩
  · rw [hvals, hp.vals, h.vals]
  · rw [hinv, hp.calls]

/-- **A step of the scheduler**: the sequential run stays where it is, or it processes the node at its front. -/
theorem Lockstep.sched (h : Lockstep ctx.plan s t) (hdet : dag.Deterministic) (hrun : Runs dag cfg outs () ctx s)
    (hcap : ctx.effectiveCap ≤ 1) (hreach : SeqReach dag outs env () ctx.plan t) (hs : s.schedule ctx = some s')
    (hm : SchedMove ctx s s') : ∃ t', SeqReach dag outs env () ctx.plan t' ∧ Lockstep ctx.plan s' t' := by
  obtain ⟨hdag, hg, inv⟩ := hreach.inv
  have hgood := hrun.good
  subst hdag
  cases hm with
  | @pick task ready hpc hlt hp hr hok =>
    have hacct := hrun.inv.acct (by rw [hpc]; rfl)
    obtain ⟨hq, hc⟩ := h.rest inv hacct (hrun.inv.away_nil hcap hpc hlt hp)
    exact ⟨t, hreach, h.vals, h.indeg, .picked (hq.trans hr) hc⟩
  | @source id v ready rel indeg observer hpc hlt hp hr hsrc hfin =>
    have hacct := hrun.inv.acct (by rw [hpc]; rfl)
    obtain ⟨hq, hc⟩ := h.rest inv hacct (hrun.inv.away_nil hcap hpc hlt hp)
    have hrel := hrun.inv.source_release hgood hpc hlt hp hr hsrc hs
    obtain ⟨nd, w, hi, hk⟩ := hsrc
    obtain rfl : w = v := (Evaluates.source hi hk).unique hdet hfin.evaluates
    have hcomp : Computes ctx.plan env t id w [] := .source hi hk
    obtain ⟨t', dsts, hnext, hproc⟩ := inv.processes hg (hq.trans hr) hcomp
    refine ⟨t', hreach.next hnext, h.processed hproc rfl ?_ hrel⟩
    rw [List.append_nil]
    exact hc
  | @complete res results v rel indeg observer hpc hr hout hfin =>
    have hacct := hrun.inv.acct (by rw [hpc]; rfl)
    have hmem : res ∈ s.results := by rw [hr]; exact List.mem_cons_self
    have haway := State.result_away hmem
    have hrel := hrun.inv.complete_release hgood hpc hr hout hs
    have hq := h.head inv hacct haway
    have hstarted : res.id ∈ s.started :=
      List.mem_append_left _ (List.mem_append_right _ (List.mem_map_of_mem hmem))
    have hok := hacct.results_ok res hmem
    obtain ⟨f, args, w, htask, -⟩ := id hok
    obtain ⟨nd, f, args, hi, hk, hgather, hf, hc⟩ :=
      h.next_call hdet inv hacct hok haway (hrun.started_called htask hstarted) (env (t.processed + 1))
    rw [TaskResult.call, hout] at hf
    obtain ⟨t', dsts, hnext, hproc⟩ := inv.processes hg hq (.task hi hk hgather hf)
    refine ⟨t', hreach.next hnext, h.processed hproc rfl ?_ hrel⟩
    exact (invoked_append rfl).trans hc
  | sent => exact ⟨t, hreach, h.frame rfl rfl rfl (invoked_append rfl)⟩
  | fail => exact ⟨t, hreach, h.frame rfl rfl rfl (invoked_append rfl)⟩
  | _ => exact ⟨t, hreach, h.frame rfl rfl rfl rfl⟩

/-- **A step of a worker**: the sequential run stays where it is. -/
theorem Lockstep.work (h : Lockstep ctx.plan s t) (hrun : Runs dag cfg outs () ctx s)
    (hreach : SeqReach dag outs env () ctx.plan t) {w : Nat} {wk wk' : Worker O E ω} {new : List (TaskResult O E)}
    {seen : List (Event O E)} (hwk : s.workers[w]? = some wk) (hm : WorkerMove w wk wk' new seen)
    (hrun' : Runs dag cfg outs () ctx
      { s with workers := s.workers.set w wk', results := s.results ++ new, log := s.log ++ seen }) :
    Lockstep ctx.plan { s with workers := s.workers.set w wk', results := s.results ++ new, log := s.log ++ seen } t := by
  obtain ⟨hdag, hg, inv⟩ := hreach.inv
  obtain ⟨dropped, hacct, -⟩ := hrun.inv.account
  cases hm with
  | @take task queue hst hq =>
    have htask : task ∈ s.tasks := State.mem_tasks.mpr ⟨wk, List.mem_of_getElem? hwk, by simp [Worker.tasks, hst, hq]⟩
    have haway := State.task_away htask
    have hfresh : task.id ∉ s.called := by
      -- otherwise it would be called twice
      have hnodup := hrun'.called_nodup
      simp only [State.called, List.filterMap_append] at hnodup
      intro hmem
      exact (List.nodup_append.mp hnodup).2.2 _ hmem _ (List.mem_singleton_self _) rfl
    refine ⟨h.vals, h.indeg, .called (h.head inv hacct haway) (hacct.tasks_ok task htask).2 ?_⟩
    have hc := h.not_called inv hacct haway hfresh
    simp only [State.invoked, List.filterMap_append] at hc ⊢
    rw [hc]
    rfl
  | _ => exact h.frame rfl rfl rfl (by simp [State.invoked])

/-- **The run lemma.** -/
theorem Runs.lockstep (hdet : dag.Deterministic) (h : Runs dag cfg outs () ctx s) (hcap : ctx.effectiveCap ≤ 1)
    (env : Nat → ω) : ∃ t, SeqReach dag outs env () ctx.plan t ∧ Lockstep ctx.plan s t := by
  refine h.induct_step (P := fun s => ∃ t, SeqReach dag outs env () ctx.plan t ∧ Lockstep ctx.plan s t)
    (fun s0 hs => ?_) fun a s s' hrun ⟨t, hreach, hlock⟩ hst => ?_
  · obtain ⟨p, hp, hplan, hvals, hindeg, hready, -⟩ := parStart_prepared hs
    have hi := (parStart_start hs).2
    have hstart : seqStart dag outs () = ok p := (seqStart_eq (parStart_start hs).1.nonempty dag ()).trans hp
    refine ⟨p.seqState, ⟨p, hstart, hplan, .start⟩, hvals.symm, hindeg.symm, .ready hready ?_⟩
    rw [State.invoked, hi.log]
    rfl
  cases a with
  | scheduler => exact hlock.sched hdet hrun hcap hreach hst (hrun.inv.schedule_move hrun.good hst)
  | worker w e =>
    have hrun' := hrun.tail hst
    obtain ⟨wk, wk', new, seen, hwk, hm, rfl⟩ := hrun.inv.work_move hst
    exact ⟨t, hreach, hlock.work hrun hreach hwk hm hrun'⟩

/-! ## The end of the runs -/

section

variable [DecidableEq K]

/-- When nothing is open any more, neither run has a failed task. -/
theorem Lockstep.drained (h : Lockstep plan s t) (hreach : SeqReach dag outs env () plan t)
    (hidle : ∀ i, i ∉ t.q) : s.invoked = (runSequential dag outs env).2 ∧
      ∀ k e, (runSequential dag outs env).1 ≠ .err (.taskFailed k e) := by
  have hq : t.q = [] := List.eq_nil_iff_forall_not_mem.mpr hidle
  obtain ⟨hcalls, hres⟩ := hreach.drained hq
  constructor
  · cases h.front with
    | ready _ hc => exact hc.trans hcalls.symm
    | picked hq' => rw [hq] at hq'; cases hq'
    | called hq' => rw [hq] at hq'; cases hq'
  · intro k e hr
    rcases hres with ⟨-, m, hm, -⟩ | ⟨-, rem, hrem⟩
    · rw [hm] at hr
      cases hr
    · rw [hrem] at hr
      cases hr

/-- The failed task of the parallel run is the one the sequential run fails at. -/
theorem Lockstep.failed (h : Lockstep ctx.plan s t) (hdet : dag.Deterministic) (hrun : Runs dag cfg outs () ctx s)
    (hreach : SeqReach dag outs env () ctx.plan t) {k : K} {e : E} (hret : s.pc.ret = some (.error (.taskFailed k e))) :
    s.invoked = (runSequential dag outs env).2 ∧ (runSequential dag outs env).1 = .err (.taskFailed k e) := by
  obtain ⟨hdag, hg, inv⟩ := hreach.inv
  subst hdag
  obtain ⟨dropped, hacct, -⟩ := hrun.inv.account
  obtain ⟨pre, res, post, hafter⟩ := hrun.afterFailure k e hret
  have hfailed : res.id ∈ s.failed := by
    obtain ⟨id, out⟩ := res
    obtain rfl := hafter.out
    rw [State.failed, hafter.log]
    simp [Event.failed]
  have haway : res.id ∈ s.away := List.mem_append_right _ hfailed
  have hq := h.head inv hacct haway
  cases hrun.ret_verdict hret with
  | @failed res' nd _ hok hn hnd he =>
    obtain ⟨nd', hi, hkey⟩ := Option.map_eq_some_iff.mp hafter.key
    have hid : res'.id = res.id := Dag.key_injective hnd hi hkey.symm
    obtain ⟨f, args, w, htask, -⟩ := id hok
    rw [← hid] at haway hfailed hq
    have hcalled := hrun.started_called htask (List.mem_append_right _ hfailed)
    obtain ⟨nd', f, args, hi, hk, hgather, hf, hc⟩ := h.next_call hdet inv hacct hok haway hcalled (env (t.processed + 1))
    rw [hnd, Option.some.injEq] at hi
    subst hi
    rw [TaskResult.call, he] at hf
    obtain ⟨t', hbody, hcalls, -⟩ := (Leaves.failed hq hnd hk hgather hf).body
    have hexec := hreach.execute_eq hbody
    refine ⟨?_, ?_⟩
    · rw [runSequential, hexec, hc, hcalls]
    · rw [runSequential, hexec]
      rfl

/-- **With one task in flight the parallel executor is the sequential one.** For deterministic task functions that do
not panic, a completed `run_parallel` calls the same task functions with the same arguments in the same order as
`run_sequential`, and it returns `TaskFailed` exactly when `run_sequential` does, with the same key and error. -/
theorem lockstep_exact (dag : Dag K O E ω) (hdet : dag.Deterministic) (outs : List K) (hk : dag.KeysExist outs)
    (hs : TasksReturn dag outs) (cfg : ExecutorConfig) (hv : cfg.Valid) (h1 : cfg.maxInFlight = 1) (panics : Bool)
    (r : Outcome (ExecError K E) (HashMap K O)) (log : List (Event O E)) (h : RunParallel dag cfg outs panics r log)
    (env : Nat → ω) :
    log.filterMap Event.invocation = (runSequential dag outs env).2 ∧
      ∀ k e, r = .err (.taskFailed k e) ↔ (runSequential dag outs env).1 = .err (.taskFailed k e) := by
  cases h with
  | @rejected e he =>
    -- the only rejected list of existing keys is the empty one
    have hout : outs = [] := by
      by_contra hne
      obtain ⟨ctx, s0, hs0, -⟩ := parStart_ok hv hne hk ()
      rw [he] at hs0
      cases hs0
    subst hout
    cases he
    exact ⟨rfl, fun k e => ⟨nofun, nofun⟩⟩
  | @completed ctx s ret hrun hpc =>
    have hcap : ctx.effectiveCap ≤ 1 := by
      rw [hrun.good.effectiveCap, h1]
      exact Nat.min_le_left 1 _
    obtain ⟨t, hreach, hlock⟩ := hrun.lockstep hdet hcap env
    obtain ⟨hdag, hg, inv⟩ := hreach.inv
    cases hrun.verdict hpc with
    | ok hall =>
      obtain ⟨hcalls, hno⟩ := hlock.drained hreach fun i hi => by
        have hopen := List.count_pos_iff.mpr hi
        have hdone := hrun.all_done hall i (hdag ▸ inv.books.needed_of_open hg hopen)
        rw [hlock.vals, (inv.books.ledger.of_open hopen).2.2.1] at hdone
        cases hdone
      obtain ⟨m, hm, -⟩ := collect_of_done hk (hrun.all_done hall)
      refine ⟨hcalls, fun k e => ⟨fun hr => ?_, fun hr => absurd hr (hno k e)⟩⟩
      rw [finishRun, hm] at hr
      cases hr
    | cycle hb =>
      obtain ⟨hcalls, hno⟩ := hlock.drained hreach fun i hi => by
        have hopen := List.count_pos_iff.mpr hi
        have hpar := hb.ledger.place i
        have hseq := inv.books.ledger.place i
        rw [hlock.vals, hlock.indeg] at hpar
        omega
      refine ⟨hcalls, fun k e => ⟨fun hr => ?_, fun hr => absurd hr (hno k e)⟩⟩
      cases hr
    | @failed res nd e hok hn hnd he =>
      obtain ⟨hcalls, hres⟩ := hlock.failed hdet hrun hreach (by rw [hpc]; rfl)
      refine ⟨hcalls, fun k e' => ?_⟩
      rw [hres]
      exact Iff.rfl
    | died msg hp =>
      rw [hrun.no_panic hs] at hp
      cases hp

omit [DecidableEq K] in
/-- The first task fails, beside the second one, which waits in the ready queue. -/
theorem lockstep_diamond : ∃ panics r log, RunParallel (Dag.diamond (.err 7)) ⟨4, 1, 2⟩ [3] panics r log ∧
    log.filterMap Event.invocation = (runSequential (Dag.diamond (.err 7)) [3] fun _ => ()).2 ∧
    (r = .err (.taskFailed 1 7) ↔ (runSequential (Dag.diamond (.err 7)) [3] fun _ => ()).1 = .err (.taskFailed 1 7)) := by
  have hv : (⟨4, 1, 2⟩ : ExecutorConfig).Valid := ⟨by decide, by decide, by decide⟩
  have hk : (Dag.diamond (.err 7)).KeysExist [3] := Dag.diamond_keysExist (by decide)
  have hs : TasksReturn (Dag.diamond (.err 7)) [3] := Dag.diamond_tasksReturn nofun
  obtain ⟨ctx, s, ret, hrun, hpc⟩ := exists_returned hv (by decide) hk hs ()
  have h := RunParallel.completed hrun hpc
  obtain ⟨hcalls, hfail⟩ := lockstep_exact _ Dag.diamond_deterministic [3] hk hs ⟨4, 1, 2⟩ hv rfl _ _ _ h
    fun _ => ()
  exact ⟨_, _, _, h, hcalls, hfail 1 7⟩

end

end DagExec
