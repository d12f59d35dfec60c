import DagExec.Par.Moves

/-!
# The account is kept

`Account ctx s` is the account together with what the scheduler has lost: nothing while it loops. A step of a worker
moves a node between two places in flight (`outstanding_work`); a step of the scheduler moves a node from one place to
the next, or finishes one and opens its released dependents (`Account.sched`).
-/

namespace DagExec

open ListFacts

variable {K O E ω R : Type}

/-- The account of a state of a run. -/
def Account (ctx : Ctx K O E ω) (s : State K O E ω R) : Prop :=
  ∃ dropped, Acct ctx.plan dropped s ∧ (s.pc.looping = true → dropped = [] ∧ s.failed = [])

section Worker

variable {w : Nat} {wk wk' : Worker O E ω} {new : List (TaskResult O E)} {seen : List (Event O E)}

/-- What a worker's step does to the nodes the worker holds: what it sends leaves from the front. -/
theorem WorkerMove.ids (h : WorkerMove w wk wk' new seen) :
    wk.tasks.map Task.id = new.map TaskResult.id ++ wk'.tasks.map Task.id := by
  cases h with
  | take hs hq => simp [Worker.tasks, hs, hq, WorkerStatus.tasks]
  | leave hs hq htx => simp [Worker.tasks, hs, hq, WorkerStatus.tasks]
  | finish hs hid hf => simp [Worker.tasks, hs, hid, WorkerStatus.tasks]
  | panic hs hf => simp [Worker.tasks, hs, WorkerStatus.tasks]

theorem WorkerMove.tasks_sub (h : WorkerMove w wk wk' new seen) : ∀ t ∈ wk'.tasks, t ∈ wk.tasks := by
  intro t ht
  cases h with
  | take hs hq => simpa [Worker.tasks, hs, hq, WorkerStatus.tasks] using ht
  | leave hs hq htx => simp [Worker.tasks, hq, WorkerStatus.tasks] at ht
  | finish hs hid hf =>
    simp only [Worker.tasks, hs, WorkerStatus.tasks, List.nil_append] at ht ⊢
    exact List.mem_append_right _ ht
  | panic hs hf => simpa [Worker.tasks, hs, WorkerStatus.tasks] using ht

theorem WorkerMove.result_ok {dag : Dag K O E ω} (h : WorkerMove w wk wk' new seen) (hok : ∀ t ∈ wk.tasks, t.Ok dag) :
    ∀ res ∈ new, res.Ok dag := by
  intro res hres
  cases h with
  | @finish task _ env hs hid hf =>
    rw [List.mem_singleton] at hres
    subst hres
    obtain ⟨ht, ha⟩ := hok task (by simp [Worker.tasks, hs, WorkerStatus.tasks])
    exact ⟨task.func, task.args, env, hid ▸ ht, hid ▸ ha, hf⟩
  | _ => cases hres

theorem WorkerMove.seen_failed (h : WorkerMove w wk wk' new seen) : seen.filterMap Event.failed = [] := by
  cases h <;> rfl

variable {s : State K O E ω R}

theorem State.map_tasks (s : State K O E ω R) :
    s.tasks.map Task.id = s.workers.flatMap fun wk => wk.tasks.map Task.id := by
  rw [State.tasks, List.map_flatMap]

/-- A worker's step keeps the nodes in flight. -/
theorem outstanding_work (hwk : s.workers[w]? = some wk) (h : WorkerMove w wk wk' new seen) :
    ({ s with workers := s.workers.set w wk', results := s.results ++ new, log := s.log ++ seen } :
      State K O E ω R).outstanding.Perm s.outstanding := by
  have hset := ListFacts.flatMap_set_perm hwk wk' fun wk => wk.tasks.map Task.id
  simp only [h.ids] at hset
  rw [List.perm_iff_count] at hset ⊢
  intro i
  have := hset i
  simp only [State.outstanding, State.map_tasks, List.map_append, List.count_append] at this ⊢
  omega

end Worker

/-! ## Frames -/

/-- Steps that process nothing. -/
theorem Acct.frame {plan : Plan K O E ω} {dropped dropped' : List NodeId} {s s' : State K O E ω R}
    (h : Acct plan dropped s) (hv : s'.vals = s.vals) (hi : s'.indeg = s.indeg) (hp : s'.processed = s.processed)
    (hopen : ∀ i, (s'.openIds ++ dropped').count i = (s.openIds ++ dropped).count i)
    (hflight : s'.inFlight = s'.outstanding.length) (hheld : ∀ t ∈ s'.held, t.Ok plan.dag)
    (htasks : ∀ t ∈ s'.tasks, t.Ok plan.dag) (hres : ∀ res ∈ s'.results, res.Ok plan.dag) : Acct plan dropped' s' where
  books := by rw [hv, hi]; exact h.books.congr hopen
  processed := by rw [hv, hp]; exact h.processed
  inFlight := hflight
  held_ok := hheld
  tasks_ok := htasks
  results_ok := hres

/-- A worker's step keeps the account. -/
theorem Account.work {ctx : Ctx K O E ω} {s : State K O E ω R} {w : Nat} {wk wk' : Worker O E ω}
    {new : List (TaskResult O E)} {seen : List (Event O E)} (h : Account ctx s) (hwk : s.workers[w]? = some wk)
    (hm : WorkerMove w wk wk' new seen) :
    Account ctx { s with workers := s.workers.set w wk', results := s.results ++ new, log := s.log ++ seen } := by
  obtain ⟨dropped, hacct, hclean⟩ := h
  have hout := outstanding_work hwk hm
  have hfailed : (s.log ++ seen).filterMap Event.failed = s.failed := by
    rw [List.filterMap_append, hm.seen_failed, List.append_nil, State.failed]
  have hin : ∀ t ∈ wk.tasks, t.Ok ctx.plan.dag := fun t ht =>
    hacct.tasks_ok t (State.mem_tasks.mpr ⟨wk, List.mem_of_getElem? hwk, ht⟩)
  refine ⟨dropped, hacct.frame rfl rfl rfl (fun i => ?_) ?_ hacct.held_ok (fun t ht => ?_) (fun res hres => ?_),
    fun hl => ⟨(hclean hl).1, hfailed.trans (hclean hl).2⟩⟩
  · have := hout.count_eq i
    simp only [State.openIds, State.away, State.held, State.failed, List.count_append, hfailed] at this ⊢
    rw [this]
  · exact hacct.inFlight.trans hout.length_eq.symm
  · obtain ⟨wk₁, hwk₁, ht₁⟩ := State.mem_tasks.mp ht
    rcases List.mem_or_eq_of_mem_set hwk₁ with hold | rfl
    · exact hacct.tasks_ok t (State.mem_tasks.mpr ⟨wk₁, hold, ht₁⟩)
    · exact hin t (hm.tasks_sub t ht₁)
  · rcases List.mem_append.mp hres with hold | hnew
    · exact hacct.results_ok res hold
    · exact hm.result_ok hin res hnew

/-! ## The scheduler -/

section Sched

variable {ctx : Ctx K O E ω} {s s' : State K O E ω R} {dropped : List NodeId}

/-- Moving on keeps the held tasks, except that the task is dropped when a worker is found dead. -/
theorem Goto.tasks {pc : Pc K O E ω} (h : Goto ctx s pc) :
    (pc.tasks = s.pc.tasks ∧ (pc.looping = true → s.pc.looping = true)) ∨
      (∃ task, s.pc.tasks = [task] ∧ pc.tasks = [] ∧ pc.looping = false) := by
  cases h with
  | disconnected hpc hwk hgone => exact .inr ⟨_, by rw [hpc]; rfl, rfl, rfl⟩
  | _ hpc => exact .inl ⟨by rw [hpc]; rfl, by rw [hpc]; simp [Pc.looping]⟩

/-- Steps that leave every task where it is. -/
theorem Account.stay (h : Account ctx s) (hv : s'.vals = s.vals) (hi : s'.indeg = s.indeg)
    (hp : s'.processed = s.processed) (hflight : s'.inFlight = s.inFlight) (hready : s'.ready = s.ready)
    (hheld : s'.held = s.held) (htasks : s'.tasks = s.tasks) (hres : s'.results = s.results) (hlog : s'.log = s.log)
    (hl : s'.pc.looping = true → s.pc.looping = true) : Account ctx s' := by
  obtain ⟨dropped, hacct, hclean⟩ := h
  have hfailed : s'.failed = s.failed := by rw [State.failed, State.failed, hlog]
  have hout : s'.outstanding = s.outstanding := by rw [State.outstanding, State.outstanding, htasks, hres]
  refine ⟨dropped, hacct.frame hv hi hp (fun i => ?_) ?_ (hheld ▸ hacct.held_ok) (htasks ▸ hacct.tasks_ok)
    (hres ▸ hacct.results_ok), fun hl' => ⟨(hclean (hl hl')).1, hfailed.trans (hclean (hl hl')).2⟩⟩
  · rw [State.openIds, State.openIds, hready, State.away_congr hheld htasks hres hlog]
  · rw [hflight, hout]
    exact hacct.inFlight

theorem Account.goto (h : Account ctx s) {pc : Pc K O E ω} (n : Nat) (hm : Goto ctx s pc) :
    Account ctx { s with nextWorker := n, pc := pc } := by
  rcases hm.tasks with ⟨ht, hl⟩ | ⟨task, hs, ht, hl⟩
  · exact h.stay rfl rfl rfl rfl rfl (by rw [State.held, State.held, ht]) rfl rfl rfl hl
  · obtain ⟨dropped, hacct, -⟩ := h
    refine ⟨task.id :: dropped, hacct.frame rfl rfl rfl (fun i => ?_) hacct.inFlight (fun t hmem => hacct.held_ok t ?_)
      hacct.tasks_ok hacct.results_ok, fun hl' => by rw [hl] at hl'; cases hl'⟩
    · simp only [State.openIds, State.away, State.held, State.outstanding, State.tasks, State.failed, ht, hs,
        List.count_append, List.map_append, List.map_cons, List.map_nil, List.append_nil, List.count_cons, List.count_nil]
      omega
    · rw [State.held, ht, List.append_nil] at hmem
      exact List.mem_append_left _ hmem

/-- Finishing a node keeps the books. -/
theorem Finishes.acct {plan : Plan K O E ω} {x : NodeId} {v : O} {indeg : List Nat} {rel : List NodeId}
    (h : Acct plan [] s) (hfin : Finishes plan s x v indeg rel) (hv : s'.vals = s.vals.set x (some v))
    (hi : s'.indeg = indeg) (hp : s'.processed = s.processed + 1)
    (hopen : ∀ i, s'.openIds.count i + (if i = x then 1 else 0) = s.openIds.count i + rel.count i)
    (hflight : s'.inFlight = s'.outstanding.length) (hheld : ∀ t ∈ s'.held, t ∈ s.held)
    (htasks : ∀ t ∈ s'.tasks, t ∈ s.tasks) (hres : ∀ res ∈ s'.results, res ∈ s.results) : Acct plan [] s' where
  books := by rw [hv, hi]; exact hfin.books _ fun i => by rw [List.append_nil]; exact hopen i
  processed := by rw [hv, hp, h.processed, hfin.count]
  inFlight := hflight
  held_ok := fun t ht => h.held_ok t (hheld t ht)
  tasks_ok := fun t ht => h.tasks_ok t (htasks t ht)
  results_ok := fun res hr => h.results_ok res (hres res hr)

/-- The tasks of the workers when one of them has taken or returned some. -/
theorem State.tasks_sent {idx : Nat} {wk : Worker O E ω} (hwk : s.workers[idx]? = some wk) (task : Task O E ω) :
    ((s.workers.set idx { wk with queue := wk.queue ++ [task] }).flatMap Worker.tasks).Perm (s.tasks ++ [task]) := by
  have hset := ListFacts.flatMap_set_perm hwk { wk with queue := wk.queue ++ [task] } Worker.tasks
  have hwk' : Worker.tasks { wk with queue := wk.queue ++ [task] } = wk.tasks ++ [task] := by
    simp [Worker.tasks]
  rw [hwk'] at hset
  refine (List.perm_append_right_iff wk.tasks).mp (hset.trans ?_)
  rw [List.append_assoc]
  exact List.perm_append_comm.append_left _

theorem State.tasks_closed {i : Nat} {wk : Worker O E ω} (hwk : s.workers[i]? = some wk) :
    (s.workers.set i { wk with txOpen := false }).flatMap Worker.tasks = s.tasks :=
  ListFacts.flatMap_set_eq hwk Worker.tasks rfl

/-- A result taken from the channel is not in flight any more. -/
theorem Acct.inFlight_popped {plan : Plan K O E ω} (h : Acct plan dropped s) {res : TaskResult O E}
    {results : List (TaskResult O E)} (hr : s.results = res :: results) (htasks : s'.tasks = s.tasks)
    (hres : s'.results = results) : s.inFlight - 1 = s'.outstanding.length := by
  have hflight := h.inFlight
  rw [State.outstanding_length, hr, List.length_cons] at hflight
  rw [State.outstanding_length, htasks, hres]
  omega

/-- **Every step of the scheduler keeps the account.** -/
theorem Account.sched (h : Account ctx s) (hpend : ∀ task left, s.pc = .dispatch task left → s.pending = none)
    (hm : SchedMove ctx s s') : Account ctx s' := by
  cases hm with
  | goto n hgoto => exact h.goto n hgoto
  | @retry task hpc hcap hp =>
    have hheld := State.held_parked hpc hp
    exact h.stay rfl rfl rfl rfl rfl hheld.symm rfl rfl rfl fun _ => by rw [hpc]; rfl
  | @pick task ready hpc hcap hp hr hok =>
    obtain ⟨dropped, hacct, hclean⟩ := h
    have hheld := State.held_nil hpc hp
    have hheld' : s.pending.toList ++ Pc.tasks (.dispatch task s.workers.length : Pc K O E ω) = [task] := by
      simp [Pc.tasks, hp]
    refine ⟨dropped, hacct.frame rfl rfl rfl (fun i => ?_) hacct.inFlight (fun t ht => ?_) hacct.tasks_ok
      hacct.results_ok, fun _ => hclean (by rw [hpc]; rfl)⟩
    · rw [List.count_append, List.count_append, State.count_open, State.count_open, hheld, hr, count_cons_eq]
      simp only [State.held, hheld', State.tasks, State.failed, List.map_cons, count_cons_eq, List.map_nil]
      omega
    · simp only [State.held, hheld', List.mem_singleton] at ht
      exact ht ▸ hok
  | @source id v ready rel indeg observer hpc hcap hp hr hsrc hfin =>
    obtain ⟨dropped, hacct, hclean⟩ := h
    obtain ⟨rfl, hfailed⟩ := hclean (by rw [hpc]; rfl)
    have hheld : s.held = s.pending.toList ++ [] := State.held_eq hpc
    refine ⟨[], hfin.acct hacct rfl rfl rfl (fun i => ?_) hacct.inFlight (fun t ht => hheld ▸ ht) (fun t ht => ht)
      (fun res hres => hres), fun _ => ⟨rfl, hfailed⟩⟩
    rw [State.count_open, State.count_open, hheld, hr, count_cons_eq]
    simp only [List.count_append, State.tasks, State.failed, State.held, Pc.tasks]
    omega
  | @park task hpc =>
    have hheld := State.held_dispatch hpc (hpend task 0 hpc)
    exact h.stay rfl rfl rfl rfl rfl hheld.symm rfl rfl rfl fun _ => by rw [hpc]; rfl
  | @sent task left idx n wk observer hpc hwk hlive hroom =>
    obtain ⟨dropped, hacct, hclean⟩ := h
    have hheld := State.held_dispatch hpc (hpend task _ hpc)
    have hheld' : s.pending.toList ++ Pc.tasks (.inner : Pc K O E ω) = [] := by simp [Pc.tasks, hpend task _ hpc]
    have hsent := State.tasks_sent hwk task
    have hlog := failed_dispatched s.log idx task.id
    refine ⟨dropped, hacct.frame rfl rfl rfl (fun i => ?_) ?_ (fun t ht => ?_) (fun t ht => ?_) hacct.results_ok,
      fun _ => ⟨(hclean (by rw [hpc]; rfl)).1, hlog.trans (hclean (by rw [hpc]; rfl)).2⟩⟩
    · have := (hsent.map Task.id).count_eq i
      rw [List.map_append, List.count_append] at this
      rw [List.count_append, List.count_append, State.count_open, State.count_open, hheld]
      simp only [State.held, hheld', State.tasks, State.failed, hlog, List.map_nil, List.count_nil] at this ⊢
      omega
    · have := hsent.length_eq
      have hflight := hacct.inFlight
      rw [State.outstanding_length] at hflight ⊢
      rw [List.length_append, List.length_singleton] at this
      simp only [State.tasks] at this hflight ⊢
      omega
    · simp only [State.held, hheld'] at ht
      cases ht
    · rcases List.mem_append.mp (hsent.subset ht) with hold | hnew
      · exact hacct.tasks_ok t hold
      · exact hacct.held_ok t (hheld ▸ hnew)
  | @complete res results v rel indeg observer hpc hr hout hfin =>
    obtain ⟨dropped, hacct, hclean⟩ := h
    obtain ⟨rfl, hfailed⟩ := hclean (by rw [hpc]; rfl)
    have hheld : s.held = s.pending.toList ++ [] := State.held_eq hpc
    have hlog := failed_received_ok s.log hout
    refine ⟨[], hfin.acct hacct rfl rfl rfl (fun i => ?_) ?_ (fun t ht => hheld ▸ ht) (fun t ht => ht)
      (fun res' hres => ?_), fun _ => ⟨rfl, hlog.trans hfailed⟩⟩
    · rw [State.count_open, State.count_open, hheld, hr, List.map_cons, count_cons_eq]
      simp only [List.count_append, State.tasks, State.failed, State.held, Pc.tasks, hlog]
      omega
    · exact hacct.inFlight_popped hr rfl rfl
    · rw [hr]
      exact List.mem_cons_of_mem _ hres
  | @fail res results e nd observer hpc hr hout hnd =>
    obtain ⟨dropped, hacct, hclean⟩ := h
    have hheld : s.held = s.pending.toList ++ [] := State.held_eq hpc
    have hlog := failed_received_error s.log hout
    refine ⟨dropped, hacct.frame rfl rfl rfl (fun i => ?_) ?_ (fun t ht => hacct.held_ok t (hheld ▸ ht)) hacct.tasks_ok
      (fun res' hres => hacct.results_ok res' ?_), fun hl => by cases hl⟩
    · rw [List.count_append, List.count_append, State.count_open, State.count_open, hheld, hr, List.map_cons,
        count_cons_eq]
      simp only [State.tasks, State.failed, State.held, Pc.tasks, hlog, List.count_append, count_cons_eq, List.count_nil]
      omega
    · exact hacct.inFlight_popped hr rfl rfl
    · rw [hr]
      exact List.mem_cons_of_mem _ hres
  | closeTx hpc hwk =>
    exact h.stay rfl rfl rfl rfl rfl (by rw [State.held, State.held, hpc]; rfl) (State.tasks_closed hwk) rfl rfl
      fun hl => absurd hl Bool.false_ne_true
  | leave hpc hi =>
    exact h.stay rfl rfl rfl rfl rfl (by rw [State.held, State.held, hpc]; rfl) rfl rfl rfl
      fun hl => absurd hl Bool.false_ne_true

end Sched

end DagExec
