import DagExec.Par.Captured
import DagExec.Par.Shutdown
import DagExec.Seq.Observed

/-!
# Both executors run the same dataflow network

Seen through its value table, an iteration of the sequential loop is one firing of the request's network
(`SeqReach.fires`), and a step of a parallel run is one firing or none (`Runs.fires`); both start from the empty table,
and where they return `Ok` or report a cycle no node may fire (`executors_refine`). Hence, whatever the task functions
read, a returned map belongs to one consistent table, whose values are what the calls of the run returned
(`ok_consistent`); and when they read their arguments only, all runs of both executors end in the same table
(`tables_agree`).
-/

namespace DagExec

open Outcome Dataflow Relation

variable {K O E ω R : Type} {dag : Dag K O E ω} {outs : List K}

/-! ## The sequential executor -/

section Sequential

variable {env : Nat → ω} {plan : Plan K O E ω} {s s' : SeqState O R}

/-- What is computed for a node is what it may take on the values in the table. -/
theorem Computes.network (outs : List K) {id : NodeId} {v : O} {new : List (Invocation O)}
    (h : Computes plan env s id v new) :
    ∃ args, Reads plan.dag s.vals id args ∧ (plan.dag.network outs).eval id args v := by
  cases h with
  | source hi hk =>
    refine ⟨[], ?_, .inl ⟨_, hi, hk⟩⟩
    rw [Reads, Dag.depsOf_source hi hk]
    exact .nil
  | @task nd f args _ hi hk ha hf =>
    refine ⟨args, ?_, .inr ⟨f, _, ⟨nd, hi, hk⟩, hf⟩⟩
    rw [Reads, Dag.depsOf_of_get hi]
    exact gatherArgs_eq_ok.mp ha

/-- The call made for a node has the arguments in the table. -/
theorem Computes.reads {id : NodeId} {v : O} {new : List (Invocation O)} (h : Computes plan env s id v new) :
    ∀ c ∈ new, Reads plan.dag s.vals c.id c.args := by
  intro c hc
  cases h with
  | source => cases hc
  | task hi hk ha hf =>
    cases List.mem_singleton.mp hc
    rw [Reads, Dag.depsOf_of_get hi]
    exact gatherArgs_eq_ok.mp ha

/-- What is computed for a task is what its call returns. -/
theorem Computes.returned {id : NodeId} {v : O} {new : List (Invocation O)} (h : Computes plan env s id v new)
    {f : TaskFn O E ω} (hf : plan.dag.IsTask id f) :
    ∃ args, new = [⟨id, args⟩] ∧ f (env (s.processed + 1)) args = .ok v := by
  cases h with
  | source hi hk => exact absurd ⟨_, _, hi, hk⟩ hf.not_source
  | @task nd f' args _ hi hk ha hv =>
    rw [hf.get hi] at hk
    cases hk
    exact ⟨args, rfl, hv⟩

variable [ExecObserver R] {observer : R}

/-- **An iteration fires the node at the front of the queue.** -/
theorem SeqReach.fires (h : SeqReach dag outs env observer plan s) (hb : seqBody plan env s = .next s') :
    ∃ id q, s.q = id :: q ∧ Fires (dag.network outs) (valAt s.vals) id (valAt s'.vals) := by
  obtain ⟨rfl, hg, inv⟩ := h.inv
  obtain ⟨id, q, v, new, dsts, hp⟩ := seqBody_next hb
  have hmem : id ∈ s.q := hp.queue ▸ List.mem_cons_self
  obtain ⟨args, hargs, hv⟩ := hp.computes.network outs
  refine ⟨id, q, hp.queue, ?_⟩
  rw [hp.vals]
  exact fires_store (inv.needed_of_queued hg hmem) hp.lt (inv.not_done hmem) hargs hv

theorem SeqReach.run (h : SeqReach dag outs env observer plan s) :
    ReflTransGen (Step (dag.network outs)) (fun _ => none) (valAt s.vals) := by
  refine h.induct (P := fun s => ReflTransGen (Step (dag.network outs)) (fun _ => none) (valAt s.vals))
    (fun p hp hd => ?_) fun s s' hs hr hb => ?_
  · obtain ⟨-, -, -, h0, -⟩ := seqStart_start hp
    have hempty : valAt p.seqState.vals = fun _ => none :=
      funext fun i => valAt_eq_none.mpr (not_done_of_doneCount_zero h0 i)
    rw [hempty]
  · obtain ⟨id, q, -, hf⟩ := hs.fires hb
    exact hr.tail ⟨id, hf⟩

/-- With an empty queue no node may fire. -/
theorem SeqReach.stuck (h : SeqReach dag outs env observer plan s) (hq : s.q = []) :
    Stuck (dag.network outs) (valAt s.vals) := by
  obtain ⟨rfl, hg, inv⟩ := h.inv
  exact inv.books.network_stuck hg fun i => by rw [hq]; rfl

end Sequential

/-! ## The parallel executor -/

section Parallel

variable [ExecObserver R] {ctx : Ctx K O E ω} {cfg : ExecutorConfig} {s s' : State K O E ω R} {observer : R}

/-- **A step of a parallel run fires a node or leaves the table as it is.** -/
theorem Runs.fires (h : Runs dag cfg outs observer ctx s) {a : Action ω} (hs : step ctx a s = some s') :
    valAt s'.vals = valAt s.vals ∨ ∃ i, Fires (dag.network outs) (valAt s.vals) i (valAt s'.vals) := by
  have hg := h.good
  obtain rfl := hg.dag_eq
  cases h.inv.move hg hs with
  | work => exact .inl rfl
  | sched hm =>
    cases hm with
    | @source id v ready rel indeg _ hpc hcap hp hr hsrc hfin =>
      obtain ⟨nd, w, hnd, hk⟩ := hsrc
      have hread : Reads ctx.plan.dag s.vals id [] := by
        rw [Reads, Dag.depsOf_source hnd hk]
        exact .nil
      have hv : nd.kind = .source v := by
        cases hfin.evaluates with
        | source hi hk' => rw [hnd] at hi; cases hi; exact hk'
        | task hi hk' => rw [hnd] at hi; cases hi; rw [hk] at hk'; cases hk'
      exact .inr ⟨id, fires_store (h.of_open (State.ready_sub_open (hr ▸ List.mem_cons_self))).1 hfin.lt hfin.fresh hread
        (.inl ⟨nd, hnd, hv⟩)⟩
    | @complete res results v rel indeg _ hpc hr hout hfin =>
      have hmem : res ∈ s.results := hr ▸ List.mem_cons_self
      obtain ⟨f, args, w, hf, hread, hc⟩ := h.captured.results res hmem
      rw [TaskResult.call, hout] at hc
      exact .inr ⟨res.id, fires_store (h.of_open (State.away_sub_open (State.result_away hmem))).1 hfin.lt hfin.fresh
        hread (.inr ⟨f, w, hf, hc⟩)⟩
    | _ => exact .inl rfl

theorem Runs.run (h : Runs dag cfg outs observer ctx s) :
    ReflTransGen (Step (dag.network outs)) (fun _ => none) (valAt s.vals) := by
  refine h.induct_step (P := fun s => ReflTransGen (Step (dag.network outs)) (fun _ => none) (valAt s.vals))
    (fun s0 hs => ?_) fun a s s' hrun hr hs => ?_
  · have hempty : valAt s0.vals = fun _ => none :=
      funext fun i => valAt_eq_none.mpr (not_done_of_doneCount_zero (parStart_start hs).2.nothing_done i)
    rw [hempty]
  · rcases hrun.fires hs with hsame | ⟨i, hf⟩
    · rw [hsame]
      exact hr
    · exact hr.tail ⟨i, hf⟩

/-- A task's value is the result received for it. -/
theorem Runs.received (h : Runs dag cfg outs observer ctx s) {i : NodeId} {f : TaskFn O E ω} (hf : dag.IsTask i f) :
    ∀ v, valAt s.vals i = some v → .received ⟨i, .ok v⟩ ∈ s.log := by
  have hg := h.good
  obtain rfl := hg.dag_eq
  refine h.induct (P := fun s => ∀ v, valAt s.vals i = some v → .received ⟨i, .ok v⟩ ∈ s.log)
    (fun s0 hs v hv => ?_) fun s s' hrun hr hm v hv => ?_
  · rw [valAt_eq_none.mpr (not_done_of_doneCount_zero hs.nothing_done i)] at hv
    cases hv
  · cases hm with
    | work => exact List.mem_append_left _ (hr v hv)
    | sched hm =>
      cases hm with
      | source hpc hcap hp hq hsrc hfin =>
        rw [valAt_set hfin.lt] at hv
        split at hv
        · rename_i hid
          exact absurd (hid ▸ hsrc) hf.not_source
        · exact hr v hv
      | @complete res results w rel indeg _ hpc hres hout hfin =>
        rw [valAt_set hfin.lt] at hv
        split at hv
        · rename_i hid
          cases hv
          rw [hid, ← hout]
          exact List.mem_append_right _ List.mem_cons_self
        · exact List.mem_append_left _ (hr v hv)
      | sent | fail => exact List.mem_append_left _ (hr v hv)
      | _ => exact hr v hv

/-- The result is `Ok` or a cycle. -/
def Settles (ret : Ret K O E) : Prop := (∃ artifacts, ret = .ok artifacts) ∨ ∃ rem, ret = .error (.cycle rem)

/-- Where the scheduler leaves with `Ok` or with a cycle, no node may fire. -/
theorem Runs.stuck (h : Runs dag cfg outs observer ctx s) {ret : Ret K O E} (hret : s.pc.ret = some ret)
    (hset : Settles ret) : Stuck (dag.network outs) (valAt s.vals) := by
  have hg := h.good
  cases h.ret_verdict hret with
  | ok hcount => exact network_stuck_of_done (h.all_done hcount)
  | cycle hb =>
    rw [← hg.dag_eq]
    exact hb.network_stuck hg.plan fun _ => rfl
  | failed => rcases hset with ⟨_, hr⟩ | ⟨_, hr⟩ <;> cases hr
  | died => rcases hset with ⟨_, hr⟩ | ⟨_, hr⟩ <;> cases hr

end Parallel

/-! ## The results -/

/-- **Both executors run the request's dataflow network**, whatever the task functions read and whatever the schedule. In
every state the value table is one the network reaches from the empty table. An iteration of the sequential loop that
goes on fires the node at the front of the queue; a step of any thread of a parallel run fires one node or leaves the
table as it is. With an empty queue, and where the scheduler leaves with `Ok` or with a cycle, no node may fire. -/
theorem executors_refine (dag : Dag K O E ω) (outs : List K) :
    (∀ (R : Type) [ExecObserver R] env (observer : R) plan s, SeqReach dag outs env observer plan s →
      ReflTransGen (Step (dag.network outs)) (fun _ => none) (valAt s.vals) ∧
      (∀ s', seqBody plan env s = .next s' →
        ∃ id q, s.q = id :: q ∧ Fires (dag.network outs) (valAt s.vals) id (valAt s'.vals)) ∧
      (s.q = [] → Stuck (dag.network outs) (valAt s.vals))) ∧
    ∀ (R : Type) [ExecObserver R] cfg (observer : R) ctx s, Runs dag cfg outs observer ctx s →
      ReflTransGen (Step (dag.network outs)) (fun _ => none) (valAt s.vals) ∧
      (∀ a s', step ctx a s = some s' →
        valAt s'.vals = valAt s.vals ∨ ∃ i, Fires (dag.network outs) (valAt s.vals) i (valAt s'.vals)) ∧
      ∀ ret, s.pc.ret = some ret → Settles ret → Stuck (dag.network outs) (valAt s.vals) :=
  ⟨fun _ _ _ _ _ _ h => ⟨h.run, fun _ hb => h.fires hb, h.stuck⟩,
    fun _ _ _ _ _ _ h => ⟨h.run, fun _ _ hs => h.fires hs, fun _ hret hset => h.stuck hret hset⟩⟩

/-- **All runs end in the same table.** With deterministic task functions the network has one final table, and every run of
either executor that returns `Ok` or reports a cycle ends with it, whatever the configuration and the schedule. -/
theorem tables_agree (dag : Dag K O E ω) (hdet : dag.Deterministic) (outs : List K) :
    ∃ σ, ReflTransGen (Step (dag.network outs)) (fun _ => none) σ ∧ Stuck (dag.network outs) σ ∧
      (∀ (R : Type) [ExecObserver R] env (observer : R) plan s, SeqReach dag outs env observer plan s → s.q = [] →
        valAt s.vals = σ) ∧
      ∀ (R : Type) [ExecObserver R] cfg (observer : R) ctx s ret, Runs dag cfg outs observer ctx s →
        s.pc.ret = some ret → Settles ret → valAt s.vals = σ := by
  have hf := dag.network_functional outs hdet
  have hfin : { i | (dag.network outs).needed i }.Finite := Dag.needed_finite
  obtain ⟨σ, hr, hs⟩ := exists_stuck hfin fun _ => none
  exact ⟨σ, hr, hs, fun _ _ _ _ _ _ h hq => stuck_unique hf h.run (h.stuck hq) hr hs,
    fun _ _ _ _ _ _ _ h hret hset => stuck_unique hf h.run (h.stuck hret hset) hr hs⟩

/-- One run with one worker is played to its end; any run with four workers that is through has the same table. -/
theorem tables_agree_diamond : ∃ (ctx : Ctx Nat Nat Nat Unit) (s : State Nat Nat Nat Unit Unit) (ret : Ret Nat Nat Nat),
    Runs (Dag.diamond (.ok 6)) ⟨4, 8, 2⟩ [3] () ctx s ∧ s.pc = .returned ret ∧
      valAt s.vals = valAt [some 5, some 6, some 7, some 13, none] := by
  have hv : (⟨1, 4, 2⟩ : ExecutorConfig).Valid := ⟨by decide, by decide, by decide⟩
  have hk : (Dag.diamond (.ok 6)).KeysExist [3] := Dag.diamond_keysExist (by decide)
  have hs : TasksSucceed (Dag.diamond (.ok 6)) [3] := Dag.diamond_tasksSucceed 6
  obtain ⟨t, ht, hpc⟩ : ∃ t,
      Runs (Dag.diamond (.ok 6)) ⟨1, 4, 2⟩ [3] () ((Dag.diamondPrepared (.ok 6) ()).ctx ⟨1, 4, 2⟩) t ∧
      (t.vals, t.pc) = ([some 5, some 6, some 7, some 13, none],
        .returned (.ok ([some 5, some 6, some 7, some 13, none], [true, true, true, true, false]))) :=
    exists_played hv (List.cons_ne_nil 3 []) (Dag.prepare_diamond (.ok 6) ())
      (List.replicate 8 .scheduler ++ List.replicate 2 (.worker 0 ()) ++ List.replicate 4 .scheduler ++
        List.replicate 2 (.worker 0 ()) ++ List.replicate 6 .scheduler ++ List.replicate 2 (.worker 0 ()) ++
        List.replicate 4 .scheduler ++ [.worker 0 (), .scheduler, .scheduler]) _ rfl
  obtain ⟨htvals, htpc⟩ := Prod.mk.inj hpc
  obtain ⟨ctx, s, ret, hrun, hret⟩ := exists_returned small_valid (by decide) hk hs.returns ()
  obtain ⟨σ, -, -, -, hpar⟩ := tables_agree (Dag.diamond (.ok 6)) Dag.diamond_deterministic [3]
  have hret' : s.pc.ret = some ret := by rw [hret]; rfl
  have hset : Settles ret := hrun.ok_or_cycle (fun i e hi => hs.not_failsWith hi) (hrun.no_panic hs.returns) hret'
  refine ⟨ctx, s, ret, hrun, hret, ?_⟩
  rw [hpar Unit _ _ _ s ret hrun hret' hset, ← htvals]
  exact (hpar Unit _ _ _ t _ ht (by rw [htpc]; rfl) (.inl ⟨_, rfl⟩)).symm

end DagExec
