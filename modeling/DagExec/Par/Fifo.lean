import DagExec.Par.Start

/-!
# The order of the ready queue

The queue is first in, first out, and only nodes with dependencies are ever pushed after the seeding. So the queue is
what is left of the seeded nodes followed by nodes with dependencies, and while a seeded node is left, no node with
dependencies has been popped (`Fifo`). In particular an unprocessed source is still in the queue, as are all nodes
seeded after it.
-/

namespace DagExec

variable {K O E ω R : Type}

/-- `suf` is what is left of the seeded nodes. -/
structure FifoAt (plan : Plan K O E ω) (s : State K O E ω R) (pre suf rest : List NodeId) : Prop where
  seeds : plan.seeds = pre ++ suf
  ready : s.ready = suf ++ rest
  pushed : ∀ i ∈ rest, plan.dag.depsOf i ≠ []
  popped : suf ≠ [] → ∀ i, i ∈ s.away ∨ isDone s.vals i = true → plan.dag.depsOf i = []

def Fifo (plan : Plan K O E ω) (s : State K O E ω R) : Prop := ∃ pre suf rest, FifoAt plan s pre suf rest

variable {ctx : Ctx K O E ω} {cfg : ExecutorConfig} {dag : Dag K O E ω} {outs : List K} {s s' : State K O E ω R}

/-- Steps that pop nothing. -/
theorem FifoAt.push {plan : Plan K O E ω} {pre suf rest rel : List NodeId} (h : FifoAt plan s pre suf rest)
    (hr : s'.ready = s.ready ++ rel) (hrel : ∀ i ∈ rel, plan.dag.depsOf i ≠ [])
    (hold : ∀ i, i ∈ s'.away ∨ isDone s'.vals i = true → i ∈ s.away ∨ isDone s.vals i = true) : Fifo plan s' :=
  ⟨pre, suf, rest ++ rel, h.seeds, by rw [hr, h.ready, List.append_assoc],
    fun i hi => (List.mem_append.mp hi).elim (h.pushed i) (hrel i), fun hne i hi => h.popped hne i (hold i hi)⟩

theorem Fifo.frame {plan : Plan K O E ω} (h : Fifo plan s) (hr : s'.ready = s.ready) (hv : s'.vals = s.vals)
    (haway : ∀ i ∈ s'.away, i ∈ s.away) : Fifo plan s' := by
  obtain ⟨pre, suf, rest, h⟩ := h
  exact h.push (hr.trans (List.append_nil _).symm) (fun i hi => by cases hi) fun i hi =>
    hi.imp (haway i) fun hd => by rwa [hv] at hd

theorem Fifo.stay {plan : Plan K O E ω} (h : Fifo plan s) (hr : s'.ready = s.ready) (hv : s'.vals = s.vals)
    (hheld : s'.held = s.held) (htasks : s'.tasks = s.tasks) (hres : s'.results = s.results) (hlog : s'.log = s.log) :
    Fifo plan s' := h.frame hr hv fun i hi => by
  rwa [State.away_congr hheld htasks hres hlog] at hi

/-- Popping a node: a seeded one while there is one, else a node with dependencies. -/
theorem FifoAt.pop {plan : Plan K O E ω} {pre suf rest : List NodeId} (h : FifoAt plan s pre suf rest) {x : NodeId}
    {ready rel : List NodeId} (hr : s.ready = x :: ready) (hr' : s'.ready = ready ++ rel)
    (hrel : ∀ i ∈ rel, plan.dag.depsOf i ≠ []) (hg : plan.Good outs)
    (hnew : ∀ i, i ∈ s'.away ∨ isDone s'.vals i = true → i = x ∨ i ∈ s.away ∨ isDone s.vals i = true) :
    Fifo plan s' := by
  obtain ⟨hseeds, hready, hpushed, hpopped⟩ := h
  cases suf with
  | nil =>
    refine ⟨pre, [], ready ++ rel, hseeds, hr', fun i hi => ?_, fun hne => absurd rfl hne⟩
    rw [hready, List.nil_append] at hr
    rcases List.mem_append.mp hi with hi | hi
    · exact hpushed i (by rw [hr]; exact List.mem_cons_of_mem _ hi)
    · exact hrel i hi
  | cons y suf =>
    rw [hready, List.cons_append, List.cons.injEq] at hr
    obtain ⟨rfl, rfl⟩ := hr
    refine ⟨pre ++ [y], suf, rest ++ rel, by rw [hseeds, List.append_assoc]; rfl, by rw [hr', List.append_assoc],
      fun i hi => (List.mem_append.mp hi).elim (hpushed i) (hrel i), fun _ i hi => ?_⟩
    rcases hnew i hi with rfl | hold
    · exact ((mem_seeds hg).mp (by rw [hseeds]; exact List.mem_append_right _ List.mem_cons_self)).2
    · exact hpopped (List.cons_ne_nil _ _) i hold

/-- A released node has a dependency. -/
theorem Finishes.released_deps {plan : Plan K O E ω} {x : NodeId} {v : O} {indeg : List Nat} {rel : List NodeId}
    (h : Finishes plan s x v indeg rel) : ∀ i ∈ rel, plan.dag.depsOf i ≠ [] := fun i hi =>
  List.ne_nil_of_mem (h.released i hi)

theorem Fifo.work {w : Nat} {wk wk' : Worker O E ω} {new : List (TaskResult O E)} {seen : List (Event O E)}
    (h : Fifo ctx.plan s) (hwk : s.workers[w]? = some wk) (hm : WorkerMove w wk wk' new seen) :
    Fifo ctx.plan { s with workers := s.workers.set w wk', results := s.results ++ new, log := s.log ++ seen } := by
  refine h.frame rfl rfl fun i hi => ?_
  have hfailed : (s.log ++ seen).filterMap Event.failed = s.failed := by
    rw [List.filterMap_append, hm.seen_failed, List.append_nil, State.failed]
  simp only [State.away, State.held, State.failed, List.mem_append, hfailed] at hi ⊢
  exact hi.imp_left (Or.imp_right (outstanding_work hwk hm).mem_iff.mp)

theorem Goto.away {pc : Pc K O E ω} (n : Nat) (h : Goto ctx s pc) :
    ∀ i ∈ State.away { s with nextWorker := n, pc := pc }, i ∈ s.away := by
  intro i hi
  have hsub : ∀ t ∈ pc.tasks, t ∈ s.pc.tasks := by
    rcases h.tasks with ⟨ht, -⟩ | ⟨task, -, ht, -⟩
    · rw [ht]; exact fun t ht => ht
    · rw [ht]; exact fun t ht => by cases ht
  simp only [State.away, State.held, List.map_append, List.mem_append] at hi ⊢
  refine hi.imp_left (Or.imp_left (Or.imp_right fun hmem => ?_))
  obtain ⟨t, ht, rfl⟩ := List.mem_map.mp hmem
  exact List.mem_map_of_mem (hsub t ht)

/-- What is popped and not processed, when the held tasks are others. -/
theorem State.mem_away {i : NodeId} : i ∈ s.away ↔ i ∈ s.held.map Task.id ∨ i ∈ s.outstanding ∨ i ∈ s.failed := by
  simp only [State.away, List.mem_append, or_assoc]

theorem Fifo.sched (h : Fifo ctx.plan s) (hinv : Inv ctx cfg s) (hg : ctx.plan.Good outs) (hm : SchedMove ctx s s') :
    Fifo ctx.plan s' := by
  cases hm with
  | goto n hgoto => exact h.frame rfl rfl (hgoto.away n)
  | @retry task hpc hcap hp =>
    have hheld := State.held_parked hpc hp
    exact h.stay rfl rfl hheld.symm rfl rfl rfl
  | @pick task ready hpc hcap hp hr hok =>
    obtain ⟨pre, suf, rest, hat⟩ := h
    refine hat.pop hr (List.append_nil _).symm (fun i hi => by cases hi) hg fun i hi => ?_
    rw [State.mem_away] at hi ⊢
    rcases hi with (hheld | hflight) | hd
    · simp only [State.held, hp, Pc.tasks, Option.toList_none, List.nil_append, List.map_cons, List.map_nil,
        List.mem_singleton] at hheld
      exact .inl hheld
    · exact .inr (.inl (.inr hflight))
    · exact .inr (.inr hd)
  | @source id v ready rel indeg observer hpc hcap hp hr hsrc hfin =>
    obtain ⟨pre, suf, rest, hat⟩ := h
    refine hat.pop hr rfl hfin.released_deps hg fun i hi => ?_
    rw [State.mem_away] at hi ⊢
    rcases hi with (hheld | hflight) | hd
    · exact .inr (.inl (.inl ((State.held_eq hpc).symm ▸ hheld)))
    · exact .inr (.inl (.inr hflight))
    · rcases (isDone_set_iff hfin.lt).mp hd with hd | rfl
      · exact .inr (.inr hd)
      · exact .inl rfl
  | @park task hpc =>
    have hheld := State.held_dispatch hpc (hinv.dispatching hpc).1
    exact h.stay rfl rfl hheld.symm rfl rfl rfl
  | @sent task left idx n wk observer hpc hwk hlive hroom =>
    refine h.frame rfl rfl fun i hi => ?_
    have hlog := failed_dispatched s.log idx task.id
    have htasks := ((State.tasks_sent hwk task).map Task.id).mem_iff (a := i)
    rw [State.mem_away] at hi ⊢
    simp only [State.held, State.outstanding, State.failed, State.tasks, Pc.tasks, hlog, hpc, List.map_append,
      List.mem_append, List.map_cons, List.map_nil, List.mem_singleton, List.append_nil] at hi htasks ⊢
    tauto
  | @complete res results v rel indeg observer hpc hr hout hfin =>
    obtain ⟨pre, suf, rest, hat⟩ := h
    refine hat.push rfl hfin.released_deps fun i hi => ?_
    have hlog := failed_received_ok s.log hout
    rcases hi with hmem | hd
    · refine .inl ?_
      rw [State.mem_away] at hmem ⊢
      simp only [State.held, State.outstanding, State.failed, State.tasks, Pc.tasks, hlog, hpc, hr, List.map_append,
        List.mem_append, List.map_cons, List.mem_cons] at hmem ⊢
      tauto
    · rcases (isDone_set_iff hfin.lt).mp hd with hd | rfl
      · exact .inr hd
      · exact .inl (State.result_away (by rw [hr]; exact List.mem_cons_self))
  | @fail res results e nd observer hpc hr hout hnd =>
    refine h.frame rfl rfl fun i hi => ?_
    have hlog := failed_received_error s.log hout
    rw [State.mem_away] at hi ⊢
    simp only [State.held, State.outstanding, State.failed, State.tasks, Pc.tasks, hlog, hpc, hr, List.map_append,
      List.mem_append, List.map_cons, List.mem_cons, List.not_mem_nil] at hi ⊢
    tauto
  | closeTx hpc hwk =>
    have hheld : s.held = s.pending.toList ++ [] := State.held_eq hpc
    exact h.stay rfl rfl hheld.symm (State.tasks_closed hwk) rfl rfl
  | leave hpc =>
    have hheld : s.held = s.pending.toList ++ [] := State.held_eq hpc
    exact h.stay rfl rfl hheld.symm rfl rfl rfl

variable [ExecObserver R] {observer : R}

theorem Runs.fifo (h : Runs dag cfg outs observer ctx s) : Fifo ctx.plan s := by
  have hg := h.good.plan
  refine h.induct (P := Fifo ctx.plan) (fun s0 hi => ?_) fun s s' hs hf hm => ?_
  · refine ⟨[], ctx.plan.seeds, [], rfl, by rw [hi.ready, List.append_nil],
      (fun i hi => by cases hi), fun _ i ho => ?_⟩
    rcases ho with haway | hd
    · have hempty : s0.away = [] := by
        simp [State.away, State.held, State.outstanding, State.failed, hi.tasks, hi.pending, hi.pc, hi.results, hi.log,
          Pc.tasks]
      rw [hempty] at haway
      cases haway
    · rw [not_done_of_doneCount_zero hi.nothing_done i] at hd
      cases hd
  · cases hm with
    | work hwk hm => exact hf.work hwk hm
    | sched hm => exact hf.sched hs.inv hg hm

/-! ## What is still in the queue -/

omit [ExecObserver R] in
/-- While the scheduler loops, a popped node that is not processed is a task. -/
theorem Account.away_task (h : Account ctx s) (hl : s.pc.looping = true) {i : NodeId} (hi : i ∈ s.away) :
    ∃ f, ctx.plan.dag.IsTask i f := by
  obtain ⟨dropped, hacct, hclean⟩ := h
  rcases State.mem_away.mp hi with hheld | hflight | hfailed
  · obtain ⟨t, ht, rfl⟩ := List.mem_map.mp hheld
    exact ⟨_, (hacct.held_ok t ht).1⟩
  · rcases State.mem_outstanding.mp hflight with ⟨t, ht, rfl⟩ | ⟨res, hres, rfl⟩
    · exact ⟨_, (hacct.tasks_ok t ht).1⟩
    · obtain ⟨f, -, -, hf, -⟩ := hacct.results_ok res hres
      exact ⟨f, hf⟩
  · rw [(hclean hl).2] at hfailed
    cases hfailed

/-- While the scheduler loops, an unprocessed source is in the queue. -/
theorem Runs.source_ready (h : Runs dag cfg outs observer ctx s) (hl : s.pc.looping = true) {i : NodeId}
    (hn : dag.Needed outs i) (hsrc : dag.IsSource i) (hd : isDone s.vals i = false) : i ∈ s.ready := by
  have hg := h.good
  obtain rfl := hg.dag_eq
  have haccount := h.inv.account
  obtain ⟨dropped, hacct, hclean⟩ := haccount
  obtain ⟨rfl, -⟩ := hclean hl
  have hflag := (hg.plan.needed i).mpr hn
  have hcounter := hacct.books.ledger.counter i hflag
  have hplace := hacct.books.ledger.place i
  rw [hsrc.depsOf] at hcounter
  simp only [Kahn.missing, List.countP_nil] at hcounter
  rw [hd, hflag, hcounter, List.append_nil] at hplace
  have hmem : i ∈ s.openIds := List.count_pos_iff.mp (by
    simp only [Bool.toNat_true, Bool.toNat_false] at hplace
    omega)
  refine (List.mem_append.mp hmem).resolve_right fun haway => ?_
  obtain ⟨f, hf⟩ := h.inv.account.away_task hl haway
  exact hf.not_source hsrc

/-- While a node without dependencies is in the queue, no node with dependencies is processed. -/
theorem Runs.not_done_of_ready (h : Runs dag cfg outs observer ctx s) {i j : NodeId} (hi : i ∈ s.ready)
    (hdeps : dag.depsOf i = []) (hj : dag.depsOf j ≠ []) : isDone s.vals j = false := by
  obtain rfl := h.good.dag_eq
  obtain ⟨pre, suf, rest, -, hready, hpushed, hpopped⟩ := h.fifo
  rw [hready] at hi
  have hsuf : i ∈ suf := (List.mem_append.mp hi).resolve_right fun hrest => hpushed i hrest hdeps
  by_contra hd
  exact hj (hpopped (List.ne_nil_of_mem hsuf) j (.inr (by simpa using hd)))

section NoDeps

variable (hnd : ∀ i, dag.Needed outs i → dag.depsOf i = [])
include hnd

/-- Without dependencies the queue is what is left of the seeded nodes: it is upward closed. -/
theorem Runs.ready_upward (h : Runs dag cfg outs observer ctx s) {i j : NodeId} (hi : i ∈ s.ready)
    (hj : dag.Needed outs j) (hle : i ≤ j) : j ∈ s.ready := by
  have hg := h.good
  obtain ⟨pre, suf, rest, hseeds, hready, hpushed, -⟩ := h.fifo
  obtain rfl := hg.dag_eq
  have hrest : rest = [] := List.eq_nil_iff_forall_not_mem.mpr fun d hd =>
    hpushed d hd (hnd d (h.of_open (State.ready_sub_open (by rw [hready]; exact List.mem_append_right _ hd))).1)
  rw [hrest, List.append_nil] at hready
  have hsorted := seeds_sorted ctx.plan
  rw [hseeds, ← hready, List.pairwise_append] at hsorted
  have hmem := (mem_seeds hg.plan).mpr ⟨hj, hnd j hj⟩
  rw [hseeds, ← hready] at hmem
  refine (List.mem_append.mp hmem).resolve_left fun hpre => ?_
  exact absurd (hsorted.2.2 j hpre i hi) (Nat.not_lt.mpr hle)

omit [ExecObserver R] in
/-- Nothing is ever released. -/
theorem Finishes.released_nil (hg : ctx.Good dag cfg outs) {x : NodeId} {v : O} {indeg : List Nat} {rel : List NodeId}
    (hx : x ∈ s.openIds) (h : Finishes ctx.plan s x v indeg rel) : rel = [] := by
  obtain rfl := hg.dag_eq
  refine List.eq_nil_iff_forall_not_mem.mpr fun d hd => h.released_deps d hd (hnd d ?_)
  have hb := h.books (fun i => s.openIds.count i + rel.count i - if i = x then 1 else 0) fun i => by
    split
    · rename_i hi
      have := List.count_pos_iff.mpr hx
      rw [hi]
      omega
    · rfl
  refine hb.needed_of_open hg.plan ?_
  have hpos := List.count_pos_iff.mpr hd
  split
  · rename_i hi
    have := List.count_pos_iff.mpr hx
    rw [hi] at hpos ⊢
    omega
  · omega

end NoDeps

end DagExec
