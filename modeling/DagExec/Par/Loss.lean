import DagExec.Par.Panic
import DagExec.Par.Shutdown

/-!
# What a panic costs

The tasks that go down with a worker are `State.lost`. They stay lost (`Runs.lost_reach`), and nothing that depends on one
of them is ever ready, let alone called (`Runs.lost_blocks`). A run in which a task has panicked returns neither a map nor
a cycle: it returns a failure that really happened, or that a channel was disconnected (`panic_outcomes`).
-/

namespace DagExec

open DepGraph ListFacts

variable {K O E ω R : Type} {ctx : Ctx K O E ω} {cfg : ExecutorConfig} {dag : Dag K O E ω} {outs : List K}
  {s s' : State K O E ω R}

/-- The tasks that went down with the worker. -/
def WorkerStatus.lost : WorkerStatus O E ω → List (Task O E ω)
  | .panicked lost => lost
  | _ => []

/-- The nodes whose tasks went down with a worker. -/
def State.lost (s : State K O E ω R) : List NodeId := s.workers.flatMap fun wk => wk.status.lost.map Task.id

theorem WorkerStatus.lost_sub_tasks (status : WorkerStatus O E ω) : ∀ t ∈ status.lost, t ∈ status.tasks := by
  intro t ht
  cases status with
  | panicked lost => exact ht
  | _ => cases ht

theorem State.mem_lost {i : NodeId} : i ∈ s.lost ↔ ∃ wk ∈ s.workers, ∃ t ∈ wk.status.lost, t.id = i := by
  simp only [State.lost, List.mem_flatMap, List.mem_map]

/-- A lost task is with its worker for good. -/
theorem State.lost_outstanding {i : NodeId} (h : i ∈ s.lost) : i ∈ s.outstanding := by
  obtain ⟨wk, hwk, t, ht, hid⟩ := State.mem_lost.mp h
  refine State.mem_outstanding.mpr (.inl ⟨t, State.mem_tasks.mpr ⟨wk, hwk, ?_⟩, hid⟩)
  exact List.mem_append_left _ (wk.status.lost_sub_tasks t ht)

theorem State.lost_open {i : NodeId} (h : i ∈ s.lost) : i ∈ s.openIds :=
  State.away_sub_open (State.outstanding_sub_away (State.lost_outstanding h))

/-- Replacing a worker by one that has lost at least as much. -/
theorem State.lost_set {w : Nat} {wk wk' : Worker O E ω} (hwk : s.workers[w]? = some wk)
    (hset : s'.workers = s.workers.set w wk') (h : ∀ t ∈ wk.status.lost, t ∈ wk'.status.lost) {i : NodeId}
    (hi : i ∈ s.lost) : i ∈ s'.lost := by
  obtain ⟨wk₁, hmem, t, ht, hid⟩ := State.mem_lost.mp hi
  obtain ⟨j, hj⟩ := List.getElem?_of_mem hmem
  have hlt := (List.getElem?_eq_some_iff.mp hwk).1
  rw [State.mem_lost, hset]
  by_cases hjw : w = j
  · subst hjw
    rw [hwk] at hj
    cases hj
    exact ⟨wk', List.mem_set hlt wk', t, h t ht, hid⟩
  · have hother : (s.workers.set w wk')[j]? = some wk₁ := by rw [List.getElem?_set_ne hjw, hj]
    exact ⟨wk₁, List.mem_of_getElem? hother, t, ht, hid⟩

theorem WorkerMove.lost {w : Nat} {wk wk' : Worker O E ω} {new : List (TaskResult O E)} {seen : List (Event O E)}
    (h : WorkerMove w wk wk' new seen) : ∀ t ∈ wk.status.lost, t ∈ wk'.status.lost := by
  intro t ht
  cases h with
  | _ hs => rw [hs] at ht; cases ht

theorem Move.lost (h : Move ctx s s') : ∀ i ∈ s.lost, i ∈ s'.lost := by
  intro i hi
  cases h with
  | work hwk hm => exact State.lost_set hwk rfl hm.lost hi
  | sched hm =>
    cases hm with
    | sent hpc hwk =>
      refine State.lost_set hwk rfl ?_ hi
      exact fun _ => id
    | closeTx hpc hwk =>
      refine State.lost_set hwk rfl ?_ hi
      exact fun _ => id
    | _ => exact hi

variable [ExecObserver R] {observer : R}

/-- What is lost stays lost. -/
theorem Runs.lost_reach (h : Runs dag cfg outs observer ctx s) (hr : Machine.Reach (step ctx) s s') :
    ∀ i ∈ s.lost, i ∈ s'.lost := by
  have hg := h.good
  refine (hr.invariant (I := fun t => Inv ctx cfg t ∧ ∀ i ∈ s.lost, i ∈ t.lost) ⟨h.inv, fun _ => id⟩ ?_).2
  intro a t u ⟨hinv, hl⟩ hs
  exact ⟨hinv.preserved hg hs, fun i hi => (hinv.move hg hs).lost i (hl i hi)⟩

/-- A node whose function is called has all its transitive dependencies processed. -/
theorem Runs.called_deps (h : Runs dag cfg outs observer ctx s) {i d : NodeId} (hi : i ∈ s.called)
    (hd : DependsOn dag.depsOf i d) : isDone s.vals d = true := by
  have htask := (h.called_needed hi).2
  have hcount := (h.calls i).1 htask
  obtain rfl := h.good.dag_eq
  obtain ⟨dropped, hacct, -⟩ := h.inv.account
  have hled := hacct.books.ledger
  have hpos := List.count_pos_iff.mpr hi
  cases hdone : isDone s.vals i with
  | true => exact DependsOn.induct (P := fun d => isDone s.vals d = true) hd (hled.deps_done hdone) fun _ => hled.deps_done
  | false =>
    have hstarted := s.started_count_le i
    rw [hdone, Bool.toNat_false] at hcount
    refine hled.transitive_done ?_ hd
    rw [List.count_append]
    omega

/-- A lost task is never processed, and what depends on it is not even ready. -/
theorem Runs.lost_blocks (h : Runs dag cfg outs observer ctx s) {i : NodeId} (hi : i ∈ s.lost) :
    isDone s.vals i = false ∧
      ∀ j, DependsOn dag.depsOf j i → isDone s.vals j = false ∧ j ∉ s.openIds ∧ j ∉ s.called := by
  have hdone := (h.of_open (State.lost_open hi)).2
  refine ⟨hdone, fun j hj => ?_⟩
  have hcalled : j ∉ s.called := fun hc => by
    rw [h.called_deps hc hj] at hdone
    cases hdone
  obtain rfl := h.good.dag_eq
  obtain ⟨dropped, hacct, -⟩ := h.inv.account
  have hled := hacct.books.ledger
  refine ⟨?_, fun ho => ?_, hcalled⟩
  · refine Bool.eq_false_iff.mpr fun hd => ?_
    have hall := DependsOn.induct (P := fun d => isDone s.vals d = true) hj (hled.deps_done hd) fun _ => hled.deps_done
    rw [hall] at hdone
    cases hdone
  · rw [hled.transitive_done (List.count_pos_iff.mpr (List.mem_append_left dropped ho)) hj] at hdone
    cases hdone

/-! ## What the run returns -/

/-- The error of a disconnected channel, and which workers have panicked then. -/
inductive Disconnect (workers : List (Worker O E ω)) : String → Prop
  | task {wk : Worker O E ω} (hwk : wk ∈ workers) (h : wk.status.isPanicked = true) :
      Disconnect workers "worker task channel disconnected"
  | result (h : ∀ wk ∈ workers, wk.status.isPanicked = true) : Disconnect workers "result channel disconnected"

omit [ExecObserver R] in
/-- A panic is not undone by what its worker is replaced with. -/
theorem Disconnect.set {workers : List (Worker O E ω)} {msg : String} (h : Disconnect workers msg) {w : Nat}
    {wk wk' : Worker O E ω} (hwk : workers[w]? = some wk)
    (hp : wk.status.isPanicked = true → wk'.status.isPanicked = true) : Disconnect (workers.set w wk') msg := by
  cases h with
  | @task wk₁ hmem hp₁ =>
    obtain ⟨j, hj⟩ := List.getElem?_of_mem hmem
    by_cases hwj : w = j
    · subst hwj
      rw [hwk] at hj
      cases hj
      exact .task (List.mem_set (List.getElem?_eq_some_iff.mp hwk).1 wk') (hp hp₁)
    · exact .task (List.mem_of_getElem? (by rw [List.getElem?_set_ne hwj]; exact hj)) hp₁
  | result h => exact .result (forall_mem_set h (hp (h wk (List.mem_of_getElem? hwk))))

theorem Runs.disconnect (h : Runs dag cfg outs observer ctx s) : ∀ msg,
    s.pc.ret = some (.error (.internalInvariant msg)) → Disconnect s.workers msg := by
  refine h.induct (P := fun s => ∀ msg, s.pc.ret = some (.error (.internalInvariant msg)) → Disconnect s.workers msg)
    (fun s0 hi msg hret => ?_) fun s s' hrun hd hm msg hret => ?_
  · rw [hi.pc] at hret
    cases hret
  have hpool := hrun.inv.pool
  cases hm with
  | work hwk hm => exact (hd msg hret).set hwk fun hp => absurd (hm.not_panicked.symm.trans hp) nofun
  | sched hm =>
    cases hm with
    | goto n hgoto =>
      cases hgoto with
      | disconnected hpc hwk hgone =>
        cases hret
        exact .task hwk (hpool.panicked (by rw [hpc]; rfl) hwk hgone)
      | allGone hpc hr hgone =>
        cases hret
        exact .result fun wk hwk => hpool.panicked (by rw [hpc]; rfl) hwk (hgone wk hwk)
      | closed hpc => exact hd msg (by rw [hpc]; exact hret)
      | joined hpc => exact hd msg (by rw [hpc]; exact hret)
      | _ => cases hret
    | closeTx hpc hwk => exact (hd msg (by rw [hpc]; exact hret)).set hwk id
    | leave hpc => exact hd msg (by rw [hpc]; exact hret)
    | _ => cases hret

/-- Each worker that has panicked has called a function: the calls are at least as many as these workers. -/
theorem Runs.panicked_called (h : Runs dag cfg outs observer ctx s) :
    (s.workers.filter fun wk => wk.status.isPanicked).length ≤ s.called.length := by
  have hcalls := h.calls
  obtain rfl := h.good.dag_eq
  have hinv := h.inv
  obtain ⟨dropped, hacct, -⟩ := hinv.account
  have hstarted : (s.workers.flatMap fun wk => wk.status.started.map Task.id).length ≤ s.called.length := by
    refine (List.subperm_ext_iff.mpr fun i hi => ?_).length_le
    obtain ⟨wk, hwk, hmem⟩ := List.mem_flatMap.mp hi
    obtain ⟨t, ht, rfl⟩ := List.mem_map.mp hmem
    have htask : t ∈ wk.tasks := by
      refine List.mem_append_left _ ?_
      cases hs : wk.status with
      | panicked lost => rw [hs] at ht; exact List.mem_of_mem_take ht
      | _ => rw [hs] at ht; exact ht
    rw [(hcalls t.id).1 ⟨_, (hacct.tasks_ok t (State.mem_tasks.mpr ⟨wk, hwk, htask⟩)).1⟩, State.started,
      List.count_append, List.count_append]
    omega
  refine Nat.le_trans (filter_length_le_flatMap fun wk hwk hp => ?_) hstarted
  have hlost := (hinv.pool.worker wk hwk).lost hp
  have hqueue := (hinv.pool.worker wk hwk).idle
  cases hs : wk.status with
  | panicked lost =>
    rw [hs] at hqueue
    rw [Worker.tasks, hs, hqueue rfl, List.append_nil] at hlost
    obtain ⟨t, rest, rfl⟩ := List.exists_cons_of_ne_nil hlost
    exact List.cons_ne_nil t.id []
  | _ => rw [hs] at hp; cases hp

/-- **What a panic costs.** In a run in which a task has panicked, the tasks that went down with a worker stay lost; none of
them is ever processed, and of the nodes that depend on one of them, directly or not, none is ever processed, open or
called. If the run returns at all, it returns the error of a needed task that really fails, or that a task channel was
disconnected, or that the result channel was, and then at least as many functions were called as there are workers. -/
theorem panic_outcomes [DecidableEq K] (dag : Dag K O E ω) (cfg : ExecutorConfig) (outs : List K) :
    (∀ (observer : R) ctx (s t : State K O E ω R), Runs dag cfg outs observer ctx s → Machine.Reach (step ctx) s t →
      ∀ i ∈ s.lost, i ∈ t.lost ∧ isDone t.vals i = false ∧ ∀ j, DependsOn dag.depsOf j i →
        isDone t.vals j = false ∧ j ∉ t.openIds ∧ j ∉ t.called) ∧
    ∀ (r : Outcome (ExecError K E) (HashMap K O)) log, RunParallel dag cfg outs true r log →
      (∃ i nd e, dag.Needed outs i ∧ dag.nodes[i]? = some nd ∧ FailsWith dag i e ∧ r = .err (.taskFailed nd.key e)) ∨
      r = .err (.internalInvariant "worker task channel disconnected") ∨
      r = .err (.internalInvariant "result channel disconnected") ∧
        cfg.maxWorkers ≤ (log.filterMap Event.callId).length := by
  refine ⟨fun observer ctx s t h hr i hi => ?_, fun r log h => ?_⟩
  · obtain ⟨s0, hs, h0⟩ := h
    have hlost := Runs.lost_reach ⟨s0, hs, h0⟩ hr i hi
    exact ⟨hlost, Runs.lost_blocks ⟨s0, hs, h0.trans hr⟩ hlost⟩
  · generalize hp : true = panics at h
    cases h with
    | rejected => cases hp
    | @completed ctx s ret h hpc =>
      have hg := h.good
      obtain rfl := hg.dag_eq
      have hpanics := hp.symm
      have hlt := h.inv.lost hg.plan hpanics
      cases h.verdict hpc with
      | ok hall => exact absurd hall (Nat.ne_of_lt hlt)
      | cycle hb =>
        -- a lost task has its arguments and is not processed, so something is left to do
        obtain ⟨wk, hwk, hpan⟩ := List.any_eq_true.mp hpanics
        obtain ⟨task, htask⟩ := List.exists_mem_of_ne_nil _ ((h.inv.pool.worker wk hwk).lost hpan)
        have hmem := State.mem_tasks.mpr ⟨wk, hwk, htask⟩
        obtain ⟨hn, hd⟩ := h.of_open (State.away_sub_open (State.task_away hmem))
        obtain ⟨dropped, hacct, -⟩ := h.inv.account
        rw [hb.done_of_refArgs hg.plan (fun _ => rfl) (hacct.tasks_ok task hmem).2 hn] at hd
        cases hd
      | @failed res nd e hok hn hnd he =>
        obtain ⟨f, args, w, hf, ha, hc⟩ := hok
        rw [TaskResult.call, he] at hc
        exact .inl ⟨res.id, nd, e, (hg.plan.needed _).mp hn, hnd, ⟨evaluable_iff.mpr ⟨args, ha⟩, f, args, w, hf, ha, hc⟩,
          rfl⟩
      | died msg hp' =>
        refine .inr ?_
        cases h.disconnect msg (by rw [hpc]; rfl) with
        | task => exact .inl rfl
        | result hall =>
          refine .inr ⟨rfl, ?_⟩
          have hle := h.panicked_called
          rwa [List.filter_eq_self.mpr hall, h.inv.pool.size] at hle

end DagExec
