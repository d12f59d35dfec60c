import DagExec.Par.Fifo
import DagExec.Par.Returns
import DagExec.Seq.Runs
import DagExec.Spec.Small
import Mathlib.Data.Set.Finite.Lemmas

/-!
# The false cycle

The scheduler takes "nothing in flight after the dispatch loop" for a cycle. A source is processed inside that loop, so
when the last needed node to be processed is a source and nothing is in flight, the run ends with a `Cycle` error that
lists no node, although nothing is missing. `FalseCycle` says when this happens: no needed node has a dependency, the
one inserted last is a source, and either all of them are sources or `max_in_flight` is one.

- `Runs.never_ok`: then no run of `run_parallel` returns `Ok`;
- `Runs.no_cycle`: a run of an acyclic graph returns no `Cycle` if a needed task is left whenever the inner loop is
  entered with nothing in flight, and outside `FalseCycle` one is (`Runs.laggard`);
- `completes_iff`: so with no failing task, every completed run returns `Ok` exactly outside `FalseCycle`.
-/

namespace DagExec

variable {K O E ω R : Type}

/-- When an acyclic graph is reported as cyclic. -/
def FalseCycle (dag : Dag K O E ω) (cfg : ExecutorConfig) (outs : List K) : Prop :=
  (∀ i, dag.Needed outs i → dag.depsOf i = []) ∧
  (∃ y, dag.Needed outs y ∧ dag.IsSource y ∧ ∀ i, dag.Needed outs i → i ≤ y) ∧
  ((∀ i, dag.Needed outs i → dag.IsSource i) ∨ cfg.maxInFlight = 1)

/-- A needed task is not processed. -/
def State.Laggard (dag : Dag K O E ω) (outs : List K) (s : State K O E ω R) : Prop :=
  ∃ i f, dag.Needed outs i ∧ dag.IsTask i f ∧ isDone s.vals i = false

variable {ctx : Ctx K O E ω} {cfg : ExecutorConfig} {dag : Dag K O E ω} {outs : List K} {s s' : State K O E ω R}

/-- What was not processed after a step was not processed before it. -/
theorem not_done_of_set {vals : List (Option O)} {x i : NodeId} {v : O} (hx : x < vals.length)
    (h : isDone (vals.set x (some v)) i = false) : i ≠ x ∧ isDone vals i = false := by
  have hset := not_or.mp (mt (isDone_set_iff (v := v) hx).mpr (Bool.eq_false_iff.mp h))
  exact ⟨hset.2, Bool.eq_false_iff.mpr hset.1⟩

/-- The move that reports a cycle is made at the cycle check with nothing in flight; any other move keeps the result
the scheduler is leaving with away from `Cycle`. -/
theorem SchedMove.no_cycle (hm : SchedMove ctx s s') (hcheck : s.pc = .check → s.inFlight ≠ 0)
    (h : ∀ rem, s.pc.ret ≠ some (.error (.cycle rem))) (rem : List K) : s'.pc.ret ≠ some (.error (.cycle rem)) := by
  cases hm with
  | goto n hgoto =>
    cases hgoto with
    | cycle hpc h0 => exact absurd h0 (hcheck hpc)
    | closed hpc => rw [hpc] at h; exact h rem
    | joined hpc => rw [hpc] at h; exact h rem
    | _ => nofun
  | closeTx hpc => rw [hpc] at h; exact h rem
  | leave hpc => rw [hpc] at h; exact h rem
  | _ => nofun

section Sound

variable [ExecObserver R] {observer : R}

/-- **No false cycle**, as long as a needed task is unprocessed whenever the inner loop is entered with nothing in
flight. Inside the loop only sources are processed, so the task is still unprocessed at the cycle check. -/
theorem Runs.no_cycle (hacyc : dag.Acyclic outs)
    (hkey : ∀ s : State K O E ω R, Runs dag cfg outs observer ctx s → s.pc = .outer →
      s.processed < ctx.plan.neededCount → s.inFlight = 0 → s.Laggard dag outs)
    (h : Runs dag cfg outs observer ctx s) : ∀ rem, s.pc.ret ≠ some (.error (.cycle rem)) := by
  have hg := h.good
  refine (h.induct (P := fun s => ((s.pc = .inner ∨ s.pc = .check) → s.inFlight = 0 → s.Laggard dag outs) ∧
    ∀ rem, s.pc.ret ≠ some (.error (.cycle rem))) (fun s0 hi => ?_) fun s s' hs ⟨hlag, hret⟩ hm => ?_).2
  · rw [hi.pc]
    exact ⟨(fun hc => by rcases hc with hc | hc <;> cases hc), fun rem => nofun⟩
  cases hm with
  | work hwk hm => exact ⟨hlag, hret⟩
  | sched hm =>
    have hcheck : s.pc = .check → s.inFlight ≠ 0 := fun hpc h0 => by
      -- nothing is open at an idle cycle check, so in an acyclic graph everything is processed
      obtain ⟨i, f, hn, -, hd⟩ := hlag (.inr hpc) h0
      obtain rfl := hg.dag_eq
      exact hacyc.not_reachesCycle hn
        (((hs.inv.account.idle hs.inv.pc hpc h0).not_done_iff hg.plan (fun _ => rfl) hn).mp hd)
    refine ⟨?_, hm.no_cycle hcheck hret⟩
    cases hm with
    | goto n hgoto =>
      cases hgoto with
      | enter hpc hlt => exact fun _ h0 => hkey s hs hpc hlt h0
      | capped hpc => exact fun _ h0 => hlag (.inl hpc) h0
      | drained hpc => exact fun _ h0 => hlag (.inl hpc) h0
      | _ => exact fun hc => by rcases hc with hc | hc <;> cases hc
    | @source id _ _ _ _ _ hpc hcap hp hr hsrc hfin =>
      intro _ h0
      obtain ⟨i, f, hn, hf, hd⟩ := hlag (.inl hpc) h0
      obtain rfl := hg.dag_eq
      have hne : i ≠ id := fun he => hf.not_source (he ▸ hsrc)
      exact ⟨i, f, hn, hf, (isDone_set_ne hfin.lt hne).trans hd⟩
    | park hpc =>
      intro _ h0
      have := (hs.inv.dispatching hpc).2.2.2 (hs.inv.pool.size.symm ▸ hg.valid.workers)
      exact absurd h0 (Nat.ne_of_gt this)
    | sent => exact fun _ h0 => absurd h0 (Nat.succ_ne_zero _)
    | _ => exact fun hc => by rcases hc with hc | hc <;> cases hc

end Sound

/-! ## Mixed seeds, two in flight -/

/-- No needed node has a dependency, and `T` is the last needed task: what is inserted after it are sources. -/
structure LastTask (dag : Dag K O E ω) (outs : List K) (T : NodeId) : Prop where
  noDeps : ∀ i, dag.Needed outs i → dag.depsOf i = []
  needed : dag.Needed outs T
  task : ∃ f, dag.IsTask T f
  after : ∀ i, dag.Needed outs i → T < i → dag.IsSource i

/-- Enough is in flight for one receive to leave something in flight when the inner loop is entered. -/
def Afloat (inFlight : Nat) : Pc K O E ω → Prop
  | .outer => 1 ≤ inFlight
  | .inner => 1 ≤ inFlight
  | .check => 2 ≤ inFlight
  | .recv => 2 ≤ inFlight
  | _ => False

/-- While a source is unprocessed, the last task is in the queue or held, or it has been dispatched, only sources are
left and enough is in flight. -/
def TaskFirst (dag : Dag K O E ω) (outs : List K) (T : NodeId) (s : State K O E ω R) : Prop :=
  s.pc.looping = true → (∃ x, dag.Needed outs x ∧ dag.IsSource x ∧ isDone s.vals x = false) →
    T ∈ s.ready ∨ (∃ t ∈ s.held, t.id = T) ∨
      ((∀ i ∈ s.ready, dag.IsSource i) ∧ s.pending = none ∧ Afloat s.inFlight s.pc)

theorem exists_lastTask (hnd : ∀ i, dag.Needed outs i → dag.depsOf i = [])
    (hsome : ¬ ∀ i, dag.Needed outs i → dag.IsSource i) : ∃ T, LastTask dag outs T := by
  have hfinite : { i | dag.Needed outs i ∧ ¬ dag.IsSource i }.Finite := Dag.needed_finite.subset fun _ h => h.1
  have hne : { i | dag.Needed outs i ∧ ¬ dag.IsSource i }.Nonempty := by
    obtain ⟨i, hi⟩ := not_forall.mp hsome
    exact ⟨i, Classical.not_imp.mp hi⟩
  obtain ⟨T, hT, hlast⟩ := Set.exists_max_image _ id hfinite hne
  refine ⟨T, hnd, hT.1, (Dag.source_or_task hT.1.lt).resolve_left hT.2, fun i hi hlt => ?_⟩
  by_contra hsrc
  exact absurd (hlast i ⟨hi, hsrc⟩) (Nat.not_le.mpr hlt)

section Mixed

variable [ExecObserver R] {observer : R} {T : NodeId}

theorem TaskFirst.goto (hcap : 2 ≤ ctx.effectiveCap) (hs : Runs dag cfg outs observer ctx s)
    (h : TaskFirst dag outs T s) {pc : Pc K O E ω} (n : Nat) (hm : Goto ctx s pc) :
    TaskFirst dag outs T { s with nextWorker := n, pc := pc } := by
  have hkeep : pc.tasks = s.pc.tasks → (pc.looping = true → s.pc.looping = true) →
      (s.pending = none → Afloat s.inFlight s.pc → Afloat s.inFlight pc) →
      TaskFirst dag outs T { s with nextWorker := n, pc := pc } := by
    intro htasks hloop hafloat hl hx
    rcases h (hloop hl) hx with hready | ⟨t, ht, hid⟩ | ⟨hsrc, hp, hfloat⟩
    · exact .inl hready
    · refine .inr (.inl ⟨t, ?_, hid⟩)
      simp only [State.held, htasks]
      exact ht
    · exact .inr (.inr ⟨hsrc, hp, hafloat hp hfloat⟩)
  cases hm with
  | enter hpc => rw [hpc] at hkeep; exact hkeep rfl (fun _ => rfl) fun _ hf => hf
  | capped hpc hge =>
    rw [hpc] at hkeep
    exact hkeep rfl (fun _ => rfl) fun _ _ => Nat.le_trans hcap (Nat.le_of_not_lt hge)
  | drained hpc hp hr =>
    -- an unprocessed source would still be in the queue
    rintro - ⟨x, hn, hsrc, hd⟩
    have := hs.source_ready (by rw [hpc]; rfl) hn hsrc hd
    rw [hr] at this
    cases this
  | bounced hpc => rw [hpc] at hkeep; exact hkeep rfl (fun _ => rfl) fun _ hf => hf.elim
  | wait hpc => rw [hpc] at hkeep; exact hkeep rfl (fun _ => rfl) fun _ hf => hf
  | _ => exact fun hl => by cases hl

theorem TaskFirst.sched (hT : LastTask dag outs T) (hcap : 2 ≤ ctx.effectiveCap) (hs : Runs dag cfg outs observer ctx s)
    (h : TaskFirst dag outs T s) (hm : SchedMove ctx s s') : TaskFirst dag outs T s' := by
  have hg := hs.good
  have hinner : s.pc = .inner → s.pc.looping = true := fun hpc => by rw [hpc]; rfl
  cases hm with
  | goto n hgoto => exact h.goto hcap hs n hgoto
  | @retry task hpc _ hp =>
    intro _ hx
    rcases h (hinner hpc) hx with hready | ⟨t, ht, hid⟩ | ⟨-, hnone, -⟩
    · exact .inl hready
    · refine .inr (.inl ⟨t, ?_, hid⟩)
      simpa [State.held, hpc, hp, Pc.tasks] using ht
    · rw [hp] at hnone
      cases hnone
  | @pick task ready hpc _ hp hr hok =>
    intro _ hx
    have htask : ¬ dag.IsSource task.id := by
      obtain rfl := hg.dag_eq
      exact hok.1.not_source
    rcases h (hinner hpc) hx with hready | ⟨t, ht, -⟩ | ⟨hsrc, -, -⟩
    · rw [hr] at hready
      rcases List.mem_cons.mp hready with rfl | hready
      · exact .inr (.inl ⟨task, by simp [State.held, Pc.tasks], rfl⟩)
      · exact .inl hready
    · rw [State.held_nil hpc hp] at ht
      cases ht
    · exact absurd (hsrc task.id (by rw [hr]; exact List.mem_cons_self)) htask
  | @source id v ready rel indeg observer hpc _ hp hr hsrc hfin =>
    have hrel := hfin.released_nil hT.noDeps hg (State.ready_sub_open (by rw [hr]; exact List.mem_cons_self))
    obtain rfl := hg.dag_eq
    rintro - ⟨x, hn, hxs, hd⟩
    rcases h (hinner hpc) ⟨x, hn, hxs, (not_done_of_set hfin.lt hd).2⟩ with hready | ⟨t, ht, -⟩ | ⟨hall, hnone, hf⟩
    · rw [hr] at hready
      rcases List.mem_cons.mp hready with rfl | hready
      · obtain ⟨f, hf⟩ := hT.task
        exact absurd hsrc hf.not_source
      · exact .inl (List.mem_append_left _ hready)
    · rw [State.held_nil hpc hp] at ht
      cases ht
    · rw [hpc] at hf
      refine .inr (.inr ⟨fun i hi => hall i ?_, hnone, hf⟩)
      simp only [hrel, List.append_nil] at hi
      rw [hr]
      exact List.mem_cons_of_mem _ hi
  | @park task hpc =>
    intro _ hx
    rcases h (by rw [hpc]; rfl) hx with hready | ⟨t, ht, hid⟩ | ⟨-, -, hf⟩
    · exact .inl hready
    · refine .inr (.inl ⟨t, ?_, hid⟩)
      simpa [State.held, hpc, (hs.inv.dispatching hpc).1, Pc.tasks] using ht
    · rw [hpc] at hf
      exact hf.elim
  | @sent task left idx n wk observer hpc =>
    intro _ hx
    rcases h (by rw [hpc]; rfl) hx with hready | ⟨t, ht, hid⟩ | ⟨-, -, hf⟩
    · exact .inl hready
    · -- the last task has been dispatched: what is still in the queue was inserted after it
      refine .inr (.inr ⟨fun i hi => ?_, (hs.inv.dispatching hpc).1, Nat.le_add_left 1 _⟩)
      have hopen := hs.of_open (State.ready_sub_open hi)
      have hTready : T ∉ s.ready := fun hready => by
        have hheld : t.id ∈ s.held.map Task.id := List.mem_map_of_mem ht
        obtain ⟨dropped, hacct, -⟩ := hs.inv.account
        have hone := hacct.books.ledger.open_le_one T
        have h1 := List.count_pos_iff.mpr hready
        have h2 := List.count_pos_iff.mpr (hid ▸ hheld)
        rw [List.count_append, State.count_open] at hone
        omega
      refine hT.after i hopen.1 ?_
      by_contra hle
      exact hTready (hs.ready_upward hT.noDeps hi hT.needed (Nat.le_of_not_lt hle))
    · rw [hpc] at hf
      exact hf.elim
  | @complete res results v rel indeg observer hpc hr hout hfin =>
    have hmem : res ∈ s.results := by rw [hr]; exact List.mem_cons_self
    have hrel := hfin.released_nil hT.noDeps hg (State.away_sub_open (State.result_away hmem))
    rintro - ⟨x, hn, hxs, hd⟩
    have hx := (not_done_of_set hfin.lt hd).2
    rcases h (by rw [hpc]; rfl) ⟨x, hn, hxs, hx⟩ with hready | ⟨t, ht, hid⟩ | ⟨hall, hnone, hf⟩
    · exact .inl (List.mem_append_left _ hready)
    · refine .inr (.inl ⟨t, ?_, hid⟩)
      simpa [State.held, hpc, Pc.tasks] using ht
    · rw [hpc] at hf
      refine .inr (.inr ⟨fun i hi => hall i ?_, hnone, ?_⟩)
      · simpa only [hrel, List.append_nil] using hi
      · simp only [Afloat] at hf ⊢
        omega
  | _ => exact fun hl => by cases hl

theorem Runs.taskFirst (hT : LastTask dag outs T) (hcap : 2 ≤ ctx.effectiveCap) (h : Runs dag cfg outs observer ctx s) :
    TaskFirst dag outs T s := by
  have hg := h.good
  refine h.induct (P := TaskFirst dag outs T) (fun s0 hi _ _ => .inl ?_) fun s s' hs hp hm => ?_
  · rw [hi.ready, mem_seeds hg.plan, hg.dag_eq]
    exact ⟨hT.needed, hT.noDeps T hT.needed⟩
  · cases hm with
    | sched hm => exact hp.sched hT hcap hs hm
    | work hwk hm => exact hp

omit [ExecObserver R] in
theorem Ctx.Good.two_le_effectiveCap (h : ctx.Good dag cfg outs) (hcap : 2 ≤ cfg.maxInFlight) :
    2 ≤ ctx.effectiveCap := by
  have hmax : 2 ≤ usizeMax := by decide
  have hadd : 2 ≤ saturatingAdd cfg.workerQueueCap 1 := Nat.le_min.mpr ⟨hmax, Nat.succ_le_succ h.valid.queue⟩
  rw [h.effectiveCap]
  exact Nat.le_min.mpr ⟨hcap, Nat.le_min.mpr ⟨hmax, Nat.le_trans hadd (Nat.le_mul_of_pos_left _ h.valid.workers)⟩⟩

/-- **A needed task is left** whenever the inner loop is entered with nothing in flight, outside `FalseCycle`. -/
theorem Runs.laggard (hno : ¬ FalseCycle dag cfg outs) (h : Runs dag cfg outs observer ctx s) (hpc : s.pc = .outer)
    (hlt : s.processed < ctx.plan.neededCount) (h0 : s.inFlight = 0) : s.Laggard dag outs := by
  have hg := h.good
  have hl : s.pc.looping = true := by rw [hpc]; rfl
  by_contra hlag
  have htask : ∀ i f, dag.Needed outs i → dag.IsTask i f → isDone s.vals i ≠ false := fun i f hn hf hd =>
    hlag ⟨i, f, hn, hf, hd⟩
  obtain ⟨x, hx, hxd⟩ := h.exists_undone hlt
  have hxs : dag.IsSource x := (Dag.source_or_task hx.lt).resolve_right fun ⟨f, hf⟩ => htask x f hx hf hxd
  have hxr := h.source_ready hl hx hxs hxd
  have hnd : ∀ i, dag.Needed outs i → dag.depsOf i = [] := fun i hi => by
    by_contra hdeps
    obtain ⟨f, hf⟩ := (Dag.source_or_task hi.lt).resolve_left fun hsrc => hdeps hsrc.depsOf
    exact htask i f hi hf (h.not_done_of_ready hxr hxs.depsOf hdeps)
  obtain ⟨y, hy, hlast⟩ := Set.exists_max_image { i | dag.Needed outs i } id Dag.needed_finite ⟨x, hx⟩
  have hys : dag.IsSource y := (Dag.source_or_task hy.lt).resolve_right fun ⟨f, hf⟩ =>
    htask y f hy hf (h.of_open (State.ready_sub_open (h.ready_upward hnd hxr hy (hlast x hx)))).2
  -- so the seeds are mixed and two can be in flight: the last task has not been answered
  have hmixed : ¬ ((∀ i, dag.Needed outs i → dag.IsSource i) ∨ cfg.maxInFlight = 1) := fun hc =>
    hno ⟨hnd, ⟨y, hy, hys, hlast⟩, hc⟩
  obtain ⟨hsome, hone⟩ := not_or.mp hmixed
  obtain ⟨T, hT⟩ := exists_lastTask hnd hsome
  obtain ⟨f, hf⟩ := hT.task
  have hcap : 2 ≤ ctx.effectiveCap := hg.two_le_effectiveCap (by
    have := hg.valid.inFlight
    omega)
  rcases h.taskFirst hT hcap hl ⟨x, hx, hxs, hxd⟩ with hready | ⟨t, ht, rfl⟩ | ⟨-, -, hfloat⟩
  · exact htask T f hT.needed hf (h.of_open (State.ready_sub_open hready)).2
  · exact htask t.id f hT.needed hf (h.of_open (State.away_sub_open (State.held_sub_away ht))).2
  · rw [hpc, h0] at hfloat
    exact absurd hfloat (Nat.not_succ_le_zero 0)

end Mixed

/-! ## The last source, nothing in flight -/

/-- The scheduler loops until `y` is processed, and then it is on its way to report a cycle. -/
def Doomed (y : NodeId) (s : State K O E ω R) : Pc K O E ω → Prop
  | .inner => isDone s.vals y = false ∨ (s.inFlight = 0 ∧ s.pending = none)
  | .check => isDone s.vals y = false ∨ (s.inFlight = 0 ∧ s.pending = none)
  | .close _ r => ∀ a, r ≠ .ok a
  | .join _ r => ∀ a, r ≠ .ok a
  | .returned r => ∀ a, r ≠ .ok a
  | .panicked _ => True
  | _ => isDone s.vals y = false

section Doomed

variable [ExecObserver R] {observer : R} {y : NodeId}

/-- Without dependencies, the queue is empty once the last needed node is processed. -/
theorem Runs.drained (hnd : ∀ i, dag.Needed outs i → dag.depsOf i = []) (hy : dag.Needed outs y)
    (hlast : ∀ i, dag.Needed outs i → i ≤ y) (h : Runs dag cfg outs observer ctx s) {i : NodeId} (hi : i ∈ s.ready) :
    isDone s.vals y = false :=
  (h.of_open (State.ready_sub_open (h.ready_upward hnd hi hy (hlast i (h.of_open (State.ready_sub_open hi)).1)))).2

/-- When a source is popped, nothing is in flight: everything needed is a source, or one task at a time is. -/
theorem Runs.idle_of_source
    (hone : (∀ i, dag.Needed outs i → dag.IsSource i) ∨ cfg.maxInFlight = 1) (h : Runs dag cfg outs observer ctx s)
    (hl : s.pc.looping = true) (hlt : s.inFlight < ctx.effectiveCap) : s.inFlight = 0 := by
  have hg := h.good
  rcases hone with hsrc | hone
  · obtain ⟨dropped, hacct, hclean⟩ := h.inv.account
    rw [hacct.inFlight, List.length_eq_zero_iff, List.eq_nil_iff_forall_not_mem]
    intro i hi
    obtain ⟨f, hf⟩ := h.inv.account.away_task hl (State.outstanding_sub_away hi)
    rw [hg.dag_eq] at hf
    exact hf.not_source (hsrc i (h.of_open (State.away_sub_open (State.outstanding_sub_away hi))).1)
  · rw [hg.effectiveCap, hone] at hlt
    exact Nat.lt_one_iff.mp (Nat.lt_of_lt_of_le hlt (Nat.min_le_left _ _))

theorem Doomed.goto (hy : dag.Needed outs y) (hs : Runs dag cfg outs observer ctx s) (h : Doomed y s s.pc)
    {pc : Pc K O E ω} (n : Nat) (hm : Goto ctx s pc) : Doomed y { s with nextWorker := n, pc := pc } pc := by
  cases hm with
  | enter hpc => rw [hpc] at h; exact .inl h
  | finish hpc hge =>
    -- `y` is not processed, so this is not the end
    rw [hpc] at h
    obtain ⟨dropped, hacct, -⟩ := hs.inv.account
    have hle := hacct.books.doneCount_le hs.good.plan
    rw [← hacct.processed] at hle
    have := hs.all_done (Nat.le_antisymm hle (Nat.le_of_not_lt hge)) y hy
    rw [h] at this
    cases this
  | capped hpc => rw [hpc] at h; exact h
  | drained hpc => rw [hpc] at h; exact h
  | bounced hpc => rw [hpc] at h; exact h
  | wait hpc hpos => rw [hpc] at h; exact h.resolve_right fun hidle => Nat.ne_of_gt hpos hidle.1
  | closed hpc => rw [hpc] at h; exact h
  | joined hpc => rw [hpc] at h; exact h
  | _ => exact fun a => nofun

theorem Doomed.sched (hnd : ∀ i, dag.Needed outs i → dag.depsOf i = []) (hy : dag.Needed outs y)
    (hys : dag.IsSource y) (hlast : ∀ i, dag.Needed outs i → i ≤ y)
    (hone : (∀ i, dag.Needed outs i → dag.IsSource i) ∨ cfg.maxInFlight = 1)
    (hs : Runs dag cfg outs observer ctx s) (h : Doomed y s s.pc) (hm : SchedMove ctx s s') : Doomed y s' s'.pc := by
  cases hm with
  | goto n hgoto => exact h.goto hy hs n hgoto
  | retry hpc hcap hp =>
    rw [hpc] at h
    refine h.resolve_right fun hidle => ?_
    rw [hp] at hidle
    cases hidle.2
  | pick hpc hcap hp hr => exact hs.drained (s := s) hnd hy hlast (by rw [hr]; exact List.mem_cons_self)
  | @source id v ready rel indeg observer hpc hcap hp hr hsrc hfin =>
    have hyd := hs.drained hnd hy hlast (by rw [hr]; exact List.mem_cons_self)
    have hidle := hs.idle_of_source hone (by rw [hpc]; rfl) hcap
    by_cases hid : y = id
    · exact .inr ⟨hidle, hp⟩
    · exact .inl ((isDone_set_ne hfin.lt hid).trans hyd)
  | park hpc => rw [hpc] at h; exact .inl h
  | sent hpc => rw [hpc] at h; exact .inl h
  | @complete res results v rel indeg observer hpc hr hout hfin =>
    rw [hpc] at h
    obtain ⟨dropped, hacct, -⟩ := hs.inv.account
    obtain ⟨f, -, -, hf, -⟩ := hacct.results_ok res (by rw [hr]; exact List.mem_cons_self)
    have hid : y ≠ res.id := fun hid => by
      obtain rfl := hs.good.dag_eq
      exact hf.not_source (hid ▸ hys)
    exact (isDone_set_ne hfin.lt hid).trans h
  | fail => exact fun a => nofun
  | closeTx hpc => rw [hpc] at h; exact h
  | leave hpc => rw [hpc] at h; exact h

/-- In `FalseCycle` no run returns `Ok`. -/
theorem Runs.never_ok (hf : FalseCycle dag cfg outs) (h : Runs dag cfg outs observer ctx s)
    (a : List (Option O) × List Bool) : s.pc ≠ .returned (.ok a) := by
  obtain ⟨hnd, ⟨y, hy, hys, hlast⟩, hone⟩ := hf
  have hdoomed : Doomed y s s.pc := by
    refine h.induct (P := fun s => Doomed y s s.pc) (fun s0 hi => ?_) fun s s' hs hd hm => ?_
    · rw [hi.pc]
      exact not_done_of_doneCount_zero hi.nothing_done y
    · cases hm with
      | work hwk hm => exact hd
      | sched hm => exact hd.sched hnd hy hys hlast hone hs hm
  intro hpc
  rw [hpc] at hdoomed
  exact hdoomed a rfl

end Doomed

/-! ## Completed runs -/

variable [DecidableEq K]

/-- Without failing tasks a completed run returns `Ok` or `Cycle`. -/
theorem RunParallel.ok_or_cycle (hv : cfg.Valid) (hne : outs ≠ []) (hk : dag.KeysExist outs)
    (hs : TasksSucceed dag outs) {panics : Bool} {r : Outcome (ExecError K E) (HashMap K O)} {log : List (Event O E)}
    (h : RunParallel dag cfg outs panics r log) :
    (∃ m, r = .ok m) ∨ ∃ rem, r = .err (.cycle rem) ∧ CyclicKeys dag outs rem := by
  rcases h.report with ⟨hrej, -⟩ | ⟨hp, -⟩ | ⟨-, vals, hrep⟩
  · exact absurd ⟨hv, hne, hk⟩ hrej
  · rw [h.no_panic hs.returns] at hp
    cases hp
  · exact (hrep.ok_or_cycle hs).imp_right fun ⟨rem, hrem⟩ => ⟨rem, hrem, hrep.cyclicKeys_of_cycle hrem⟩

/-- In `FalseCycle` every completed run reports a cycle, and lists no node. -/
theorem RunParallel.false_cycle (hf : FalseCycle dag cfg outs) (hv : cfg.Valid) (hne : outs ≠ [])
    (hk : dag.KeysExist outs) (hacyc : dag.Acyclic outs) (hs : TasksSucceed dag outs) {panics : Bool}
    {r : Outcome (ExecError K E) (HashMap K O)} {log : List (Event O E)} (h : RunParallel dag cfg outs panics r log) :
    r = .err (.cycle []) := by
  rcases h.ok_or_cycle hv hne hk hs with ⟨m, rfl⟩ | ⟨rem, rfl, hrem⟩
  · obtain ⟨ctx, s, hrun, ⟨a, -, hpc, -⟩ | ⟨e, -, he⟩⟩ := h.returned hv hne hk
    · exact absurd hpc (hrun.never_ok hf a)
    · cases he
  · rw [hrem.eq_nil hacyc]

/-- Outside it every completed run returns `Ok`. -/
theorem RunParallel.ok_of_not_falseCycle (hno : ¬ FalseCycle dag cfg outs) (hv : cfg.Valid) (hne : outs ≠ [])
    (hk : dag.KeysExist outs) (hacyc : dag.Acyclic outs) (hs : TasksSucceed dag outs) {panics : Bool}
    {r : Outcome (ExecError K E) (HashMap K O)} {log : List (Event O E)} (h : RunParallel dag cfg outs panics r log) :
    ∃ m, r = .ok m := by
  refine (h.ok_or_cycle hv hne hk hs).resolve_right ?_
  rintro ⟨rem, rfl, -⟩
  obtain ⟨ctx, s, hrun, ⟨a, m, -, he⟩ | ⟨e, hpc, he⟩⟩ := h.returned hv hne hk
  · cases he
  · cases he
    refine hrun.no_cycle hacyc (fun t ht hpc hlt h0 => ht.laggard hno hpc hlt h0) rem ?_
    rw [hpc]
    rfl

/-- **Completeness of the parallel executor, and exactly when it is lost.** With existing keys, an acyclic needed
subgraph and no failing or panicking task, every completed run returns `Ok`, as `run_sequential` does, if and only if
the input is not a `FalseCycle`. -/
theorem completes_iff [Inhabited ω] (dag : Dag K O E ω) (cfg : ExecutorConfig) (hv : cfg.Valid) (outs : List K)
    (hne : outs ≠ []) (hk : dag.KeysExist outs) (hacyc : dag.Acyclic outs) (hs : TasksSucceed dag outs) :
    (∀ panics r log, RunParallel dag cfg outs panics r log →
      (∃ m, r = .ok m) ∧ (∀ rem, r ≠ .err (.cycle rem)) ∧ ∀ env, ∃ m, (runSequential dag outs env).1 = .ok m) ↔
    ¬ FalseCycle dag cfg outs := by
  constructor
  · intro h hf
    obtain ⟨ctx, s, ret, hrun, hpc⟩ := exists_returned hv hne hk hs.returns ()
    have hcompleted := RunParallel.completed hrun hpc
    exact (h _ _ _ hcompleted).2.1 [] (hcompleted.false_cycle hf hv hne hk hacyc hs)
  · intro hno panics r log h
    obtain ⟨m, rfl⟩ := h.ok_of_not_falseCycle hno hv hne hk hacyc hs
    exact ⟨⟨m, rfl⟩, fun rem => nofun, runSequential_ok hne hk hacyc hs⟩

section Small

omit [DecidableEq K] in
/-- The diamond is no `FalseCycle`: its last task has dependencies. -/
theorem diamond_not_falseCycle {c : Call ℕ ℕ} : ¬ FalseCycle (Dag.diamond c) cfg [3] := by
  rintro ⟨hnd, -⟩
  have h3 : (Dag.diamond c).depsOf 3 = [] := hnd 3 (Dag.diamond_needed (by decide))
  cases h3

/-- The graph of one source is one. -/
theorem solo_falseCycle {k : K} {v : O} : FalseCycle (Dag.solo k (.source v) : Dag K O E ω) cfg [k] := by
  have hzero : ∀ i, (Dag.solo k (.source v) : Dag K O E ω).Needed [k] i → i = 0 := fun i hi => Dag.solo_zero hi.lt
  refine ⟨fun i _ => Dag.solo_depsOf i, ⟨0, Dag.solo_needed, Dag.solo_isSource, fun i hi => ?_⟩, .inl fun i hi => ?_⟩
  · rw [hzero i hi]
  · rw [hzero i hi]
    exact Dag.solo_isSource

end Small

theorem completes_diamond : ∃ panics m log, RunParallel (Dag.diamond (.ok 6)) ⟨4, 8, 2⟩ [3] panics (.ok m) log := by
  have hk : (Dag.diamond (.ok 6)).KeysExist [3] := Dag.diamond_keysExist (by decide)
  have hs : TasksSucceed (Dag.diamond (.ok 6)) [3] := Dag.diamond_tasksSucceed 6
  obtain ⟨ctx, s, ret, hrun, hpc⟩ := exists_returned small_valid (by decide) hk hs.returns ()
  have h := RunParallel.completed hrun hpc
  obtain ⟨⟨m, hm⟩, -⟩ := (completes_iff _ ⟨4, 8, 2⟩ small_valid [3] (by decide) hk
    (Dag.diamond_acyclic 6 (by decide)) hs).mpr diamond_not_falseCycle _ _ _ h
  rw [hm] at h
  exact ⟨_, m, _, h⟩

/-- A single source, requested: the parallel run ends with a cycle that lists no node. -/
theorem source_reported_as_cycle :
    (Dag.solo 0 (.source 5) : Dag Nat Nat Nat Unit).Acyclic [0] ∧
    (∀ env, ∃ m, (runSequential (Dag.solo 0 (.source 5) : Dag Nat Nat Nat Unit) [0] env).1 = .ok m) ∧
    ∃ log, RunParallel (Dag.solo 0 (.source 5) : Dag Nat Nat Nat Unit) ⟨4, 8, 2⟩ [0] false (.err (.cycle [])) log := by
  have hv := small_valid
  have hacyc : (Dag.solo 0 (.source 5) : Dag Nat Nat Nat Unit).Acyclic [0] := Dag.solo_acyclic [0]
  have hs : TasksSucceed (Dag.solo 0 (.source 5) : Dag Nat Nat Nat Unit) [0] := Dag.source_tasksSucceed 0 5 [0]
  refine ⟨hacyc, runSequential_ok (by decide) Dag.solo_keysExist hacyc hs, ?_⟩
  obtain ⟨ctx, s, ret, hrun, hpc⟩ := exists_returned hv (by decide) Dag.solo_keysExist hs.returns ()
  have h := RunParallel.completed hrun hpc
  have hr := h.false_cycle solo_falseCycle hv (by decide) Dag.solo_keysExist hacyc hs
  rw [hr, h.no_panic hs.returns] at h
  exact ⟨_, h⟩

end DagExec
