import DagExec.Par.Account

/-!
# The invariant of parallel runs

Beside the account, a state of a run satisfies

- `Pool`: every worker's queue fits, a dead worker's queue is empty, the task channels are open while the scheduler
  loops and closed one by one when it leaves;
- `PcOk`: what the scheduler knows where it is. In particular, at the cycle check either something is in flight or
  nothing is left to dispatch, and a result on its way out is a `Verdict`.

`Inv.preserved` shows that every step keeps the three together; so they hold in every state of every run (`Runs.inv`),
whatever the tasks do and in whatever order the threads step.
-/

namespace DagExec

open Outcome

variable {K O E ω R : Type}

/-! ## The workers -/

/-- What holds of a worker by itself. A worker that is gone while its channel is open went down with a task. -/
structure Worker.Ok (cap : Nat) (wk : Worker O E ω) : Prop where
  queue : wk.queue.length ≤ cap
  idle : wk.status.gone = true → wk.queue = []
  exited : wk.status.gone = true → wk.txOpen = true → wk.status.isPanicked = true
  lost : wk.status.isPanicked = true → wk.tasks ≠ []

/-- The task channels, by where the scheduler is. -/
def Shut (workers : List (Worker O E ω)) : Pc K O E ω → Prop
  | .close i _ => ∀ j wk, workers[j]? = some wk → j < i → wk.txOpen = false
  | .join i _ => ∀ j wk, workers[j]? = some wk → wk.txOpen = false ∧ (j < i → wk.status.gone = true)
  | .returned _ => ∀ wk ∈ workers, wk.status.gone = true
  | .panicked _ => True
  | _ => ∀ wk ∈ workers, wk.txOpen = true

structure Pool (ctx : Ctx K O E ω) (cfg : ExecutorConfig) (s : State K O E ω R) : Prop where
  size : s.workers.length = cfg.maxWorkers
  worker : ∀ wk ∈ s.workers, wk.Ok ctx.queueCap
  shut : Shut s.workers s.pc
  rx : s.resRx = true ∨ ∃ r, s.pc = .returned r

section Worker

variable {w : Nat} {wk wk' : Worker O E ω} {new : List (TaskResult O E)} {seen : List (Event O E)}

theorem WorkerMove.live (h : WorkerMove w wk wk' new seen) : wk.status.gone = false := by
  cases h with
  | _ hs => rw [hs]; rfl

theorem WorkerMove.txOpen (h : WorkerMove w wk wk' new seen) : wk'.txOpen = wk.txOpen := by
  cases h <;> rfl

theorem WorkerMove.ok {cap : Nat} (h : WorkerMove w wk wk' new seen) (hok : wk.Ok cap) : wk'.Ok cap := by
  have hq := hok.queue
  cases h with
  | take hs hqueue =>
    rw [hqueue, List.length_cons] at hq
    exact ⟨Nat.le_of_succ_le hq, nofun, nofun, nofun⟩
  | leave hs hqueue htx => exact ⟨hq, fun _ => hqueue, fun _ ht => absurd (htx.symm.trans ht) nofun, nofun⟩
  | finish hs hid hf => exact ⟨hq, nofun, nofun, nofun⟩
  | panic hs hf => exact ⟨Nat.zero_le _, fun _ => rfl, fun _ _ => rfl, fun _ => List.cons_ne_nil _ _⟩

end Worker

variable {ctx : Ctx K O E ω} {cfg : ExecutorConfig} {outs : List K} {s s' : State K O E ω R}

/-- While the scheduler loops, a worker that is gone has panicked. -/
theorem Pool.panicked (h : Pool ctx cfg s) (hl : s.pc.looping = true) {wk : Worker O E ω} (hwk : wk ∈ s.workers)
    (hg : wk.status.gone = true) : wk.status.isPanicked = true := by
  have hopen : ∀ wk ∈ s.workers, wk.txOpen = true := by
    have hshut := h.shut
    cases hpc : s.pc <;> simp only [hpc, Pc.looping, Bool.false_eq_true] at hl hshut
    all_goals exact hshut
  exact (h.worker wk hwk).exited hg (hopen wk hwk)

theorem Pool.panics (h : Pool ctx cfg s) (hl : s.pc.looping = true) {wk : Worker O E ω} (hwk : wk ∈ s.workers)
    (hg : wk.status.gone = true) : s.panics = true :=
  List.any_eq_true.mpr ⟨wk, hwk, h.panicked hl hwk hg⟩

theorem Pool.work {w : Nat} {wk wk' : Worker O E ω} {new : List (TaskResult O E)} {seen : List (Event O E)}
    (h : Pool ctx cfg s) (hwk : s.workers[w]? = some wk) (hm : WorkerMove w wk wk' new seen) :
    Pool ctx cfg { s with workers := s.workers.set w wk', results := s.results ++ new, log := s.log ++ seen } := by
  have hmem := List.mem_of_getElem? hwk
  refine ⟨by rw [List.length_set]; exact h.size, ListFacts.forall_mem_set h.worker (hm.ok (h.worker wk hmem)), ?_, h.rx⟩
  have hshut := h.shut
  have hnth : ∀ (j : Nat) (wk₁ : Worker O E ω), (s.workers.set w wk')[j]? = some wk₁ → ∃ wk₂, s.workers[j]? = some wk₂ ∧
      wk₁.txOpen = wk₂.txOpen ∧ (wk₂.status.gone = true → wk₁.status.gone = true) := by
    intro j wk₁ hj
    rw [List.getElem?_set] at hj
    by_cases hjw : w = j
    · subst hjw
      rw [if_pos rfl] at hj
      split at hj <;> cases hj
      exact ⟨wk, hwk, hm.txOpen, fun hg => by rw [hm.live] at hg; cases hg⟩
    · rw [if_neg hjw] at hj
      exact ⟨wk₁, hj, rfl, id⟩
  cases hpc : s.pc with
  | close i r =>
    simp only [hpc, Shut] at hshut ⊢
    intro j wk₁ hj hlt
    obtain ⟨wk₂, hj₂, htx, -⟩ := hnth j wk₁ hj
    exact htx.trans (hshut j wk₂ hj₂ hlt)
  | join i r =>
    simp only [hpc, Shut] at hshut ⊢
    intro j wk₁ hj
    obtain ⟨wk₂, hj₂, htx, hgone⟩ := hnth j wk₁ hj
    exact ⟨htx.trans (hshut j wk₂ hj₂).1, fun hlt => hgone ((hshut j wk₂ hj₂).2 hlt)⟩
  | returned r =>
    simp only [hpc, Shut] at hshut
    have := hm.live
    rw [hshut wk hmem] at this
    cases this
  | panicked p => trivial
  | _ =>
    simp only [hpc, Shut] at hshut ⊢
    exact ListFacts.forall_mem_set hshut (hm.txOpen.trans (hshut wk hmem))

theorem Goto.not_returned {pc : Pc K O E ω} (h : Goto ctx s pc) (r : Ret K O E) : s.pc ≠ .returned r := by
  cases h with
  | _ hpc => rw [hpc]; nofun

theorem SchedMove.not_returned (h : SchedMove ctx s s') (r : Ret K O E) : s.pc ≠ .returned r := by
  cases h with
  | goto n hgoto => exact hgoto.not_returned r
  | _ hpc => rw [hpc]; nofun

/-- The task channels after the scheduler has moved on. -/
theorem Pool.shut_goto (h : Pool ctx cfg s) {pc : Pc K O E ω} (hm : Goto ctx s pc) : Shut s.workers pc := by
  have hshut := h.shut
  cases hm with
  | finish hpc => exact fun j wk _ hj => absurd hj (Nat.not_lt_zero j)
  | disconnected hpc => exact fun j wk _ hj => absurd hj (Nat.not_lt_zero j)
  | cycle hpc => exact fun j wk _ hj => absurd hj (Nat.not_lt_zero j)
  | allGone hpc => exact fun j wk _ hj => absurd hj (Nat.not_lt_zero j)
  | closed hpc hi =>
    rw [hpc] at hshut
    exact fun j wk hj => ⟨hshut j wk hj (by have := (List.getElem?_eq_some_iff.mp hj).1; omega),
      fun hlt => absurd hlt (Nat.not_lt_zero j)⟩
  | @joined i r wk hpc hwk hgone =>
    rw [hpc] at hshut
    refine fun j wk₁ hj => ⟨(hshut j wk₁ hj).1, fun hlt => ?_⟩
    by_cases hji : j = i
    · subst hji
      rw [hwk] at hj
      cases hj
      exact hgone
    · exact (hshut j wk₁ hj).2 (by omega)
  | _ hpc =>
    rw [hpc] at hshut
    exact hshut

theorem Pool.sched (h : Pool ctx cfg s) (hm : SchedMove ctx s s') : Pool ctx cfg s' := by
  have hrx : s.resRx = true := h.rx.resolve_right fun ⟨r, hr⟩ => hm.not_returned r hr
  have hshut := h.shut
  cases hm with
  | goto n hgoto => exact ⟨h.size, h.worker, h.shut_goto hgoto, .inl hrx⟩
  | @sent task left idx n wk observer hpc hwk hlive hroom =>
    have hmem := List.mem_of_getElem? hwk
    rw [hpc] at hshut
    refine ⟨by rw [List.length_set]; exact h.size, ListFacts.forall_mem_set h.worker ⟨?_, ?_, ?_, ?_⟩,
      ListFacts.forall_mem_set hshut (hshut wk hmem), .inl hrx⟩
    · rw [List.length_append, List.length_singleton]
      exact hroom
    · exact fun hg => absurd (hlive.symm.trans hg) nofun
    · exact fun hg => absurd (hlive.symm.trans hg) nofun
    · exact fun _ => by simp [Worker.tasks]
  | @closeTx i r wk hpc hwk =>
    have hok := h.worker wk (List.mem_of_getElem? hwk)
    rw [hpc] at hshut
    refine ⟨by rw [List.length_set]; exact h.size, ListFacts.forall_mem_set h.worker ⟨hok.queue, hok.idle, ?_, hok.lost⟩,
      fun j wk₁ hj hlt => ?_, .inl hrx⟩
    · exact fun _ htx => absurd htx Bool.false_ne_true
    rw [List.getElem?_set] at hj
    by_cases hij : i = j
    · rw [if_pos hij] at hj
      split at hj <;> cases hj
      rfl
    · rw [if_neg hij] at hj
      exact hshut j wk₁ hj (by omega)
  | @leave i r hpc hi =>
    rw [hpc] at hshut
    refine ⟨h.size, h.worker, fun wk hwk => ?_, .inr ⟨r, rfl⟩⟩
    obtain ⟨j, hj⟩ := List.getElem?_of_mem hwk
    have hlt : j < s.workers.length := (List.getElem?_eq_some_iff.mp hj).1
    exact (hshut j wk hj).2 (by omega)
  | _ hpc =>
    rw [hpc] at hshut
    exact ⟨h.size, h.worker, by first | exact hshut | exact fun j wk _ hj => absurd hj (Nat.not_lt_zero j), .inl hrx⟩

/-! ## The scheduler -/

/-- What a result on its way out says about the state it was found in. -/
inductive Verdict (plan : Plan K O E ω) (s : State K O E ω R) : Ret K O E → Prop
  | ok (h : s.processed = plan.neededCount) : Verdict plan s (.ok (s.vals, plan.needed))
  | cycle (h : Books plan s.vals s.indeg fun _ => 0) : Verdict plan s (.error (.cycle (plan.report s.indeg)))
  | failed {res : TaskResult O E} {nd : Node K O E ω} {e : E} (hok : res.Ok plan.dag)
      (hn : flag plan.needed res.id = true) (hnd : plan.dag.nodes[res.id]? = some nd) (he : res.out = .error e) :
      Verdict plan s (.error (.taskFailed nd.key e))
  | died (msg : String) (h : s.panics = true) : Verdict plan s (.error (.internalInvariant msg))

/-- What the scheduler knows where it is. -/
def PcOk (ctx : Ctx K O E ω) (s : State K O E ω R) : Pc K O E ω → Prop
  | .outer => True
  | .inner => True
  | .dispatch _ left => s.pending = none ∧ s.inFlight < ctx.effectiveCap ∧ left ≤ s.workers.length ∧
      (left < s.workers.length → 0 < s.inFlight)
  | .check => 0 < s.inFlight ∨ (s.ready = [] ∧ s.pending = none)
  | .recv => 0 < s.inFlight
  | .close _ r => Verdict ctx.plan s r
  | .join _ r => Verdict ctx.plan s r
  | .returned r => Verdict ctx.plan s r
  | .panicked _ => False

/-- A verdict stands as long as the tables stay and a panic is not undone. -/
theorem Verdict.congr {plan : Plan K O E ω} {r : Ret K O E} (h : Verdict plan s r) (hv : s'.vals = s.vals)
    (hi : s'.indeg = s.indeg) (hp : s'.processed = s.processed) (hpanics : s.panics = true → s'.panics = true) :
    Verdict plan s' r := by
  cases h with
  | ok h => rw [← hv]; exact .ok (hp.trans h)
  | cycle h => rw [← hi]; rw [← hv, ← hi] at h; exact .cycle h
  | failed hok hn hnd he => exact .failed hok hn hnd he
  | died msg h => exact .died msg (hpanics h)

/-- Replacing a worker undoes no panic, unless it is that worker's. -/
theorem State.panics_set {w : Nat} {wk wk' : Worker O E ω} (hwk : s.workers[w]? = some wk)
    (hp : wk.status.isPanicked = true → wk'.status.isPanicked = true) (h : s.panics = true) :
    (s.workers.set w wk').any (fun wk => wk.status.isPanicked) = true := by
  obtain ⟨wk₁, hmem, hp₁⟩ := List.any_eq_true.mp h
  obtain ⟨j, hj⟩ := List.getElem?_of_mem hmem
  by_cases hwj : w = j
  · subst hwj
    rw [hwk] at hj
    cases hj
    have hlt := (List.getElem?_eq_some_iff.mp hwk).1
    exact List.any_eq_true.mpr ⟨wk', List.mem_set hlt wk', hp hp₁⟩
  · exact List.any_eq_true.mpr ⟨wk₁, List.mem_of_getElem? (by rw [List.getElem?_set_ne hwj]; exact hj), hp₁⟩

theorem WorkerMove.not_panicked {w : Nat} {wk wk' : Worker O E ω} {new : List (TaskResult O E)}
    {seen : List (Event O E)} (h : WorkerMove w wk wk' new seen) : wk.status.isPanicked = false := by
  cases h with
  | _ hs => rw [hs]; rfl

theorem PcOk.work {w : Nat} {wk wk' : Worker O E ω} {new : List (TaskResult O E)} {seen : List (Event O E)}
    (h : PcOk ctx s s.pc) (hwk : s.workers[w]? = some wk) (hm : WorkerMove w wk wk' new seen) :
    PcOk ctx { s with workers := s.workers.set w wk', results := s.results ++ new, log := s.log ++ seen } s.pc := by
  have hpanics : s.panics = true → (s.workers.set w wk').any (fun wk => wk.status.isPanicked) = true :=
    State.panics_set hwk fun hp => absurd (hm.not_panicked.symm.trans hp) nofun
  cases hpc : s.pc with
  | close i r => rw [hpc] at h; exact Verdict.congr h rfl rfl rfl hpanics
  | join i r => rw [hpc] at h; exact Verdict.congr h rfl rfl rfl hpanics
  | returned r => rw [hpc] at h; exact Verdict.congr h rfl rfl rfl hpanics
  | dispatch task left =>
    rw [hpc] at h
    simp only [PcOk, List.length_set] at h ⊢
    exact h
  | _ => rw [hpc] at h; exact h

/-- At the cycle check with nothing in flight, nothing is open. -/
theorem Account.idle (h : Account ctx s) (hok : PcOk ctx s s.pc) (hpc : s.pc = .check) (h0 : s.inFlight = 0) :
    Books ctx.plan s.vals s.indeg fun _ => 0 := by
  obtain ⟨dropped, hacct, hclean⟩ := h
  obtain ⟨rfl, hfailed⟩ := hclean (by rw [hpc]; rfl)
  rw [hpc, PcOk, h0] at hok
  obtain ⟨hready, hpending⟩ := hok.resolve_left (Nat.lt_irrefl 0)
  have hout : s.outstanding = [] := List.length_eq_zero_iff.mp (hacct.inFlight.symm.trans h0)
  refine hacct.books.congr fun i => ?_
  simp only [State.openIds, State.away, State.held, hready, hpending, hout, hfailed, hpc, Pc.tasks]
  rfl

theorem PcOk.goto (h : PcOk ctx s s.pc) (hacct : Account ctx s) (hpool : Pool ctx cfg s) (hg : ctx.plan.Good outs)
    (hcap : 0 < ctx.effectiveCap) (hqueue : 0 < ctx.queueCap) (hW : 0 < cfg.maxWorkers) {pc : Pc K O E ω} (n : Nat)
    (hm : Goto ctx s pc) : PcOk ctx { s with nextWorker := n, pc := pc } pc := by
  cases hm with
  | enter hpc hlt => trivial
  | finish hpc hge =>
    obtain ⟨dropped, hacct, -⟩ := hacct
    have hle := hacct.books.doneCount_le hg
    rw [← hacct.processed] at hle
    exact Verdict.ok (s := { s with nextWorker := n, pc := .close 0 (.ok (s.vals, ctx.plan.needed)) })
      (Nat.le_antisymm hle (Nat.le_of_not_lt hge))
  | capped hpc hge => exact .inl (Nat.lt_of_lt_of_le hcap (Nat.le_of_not_lt hge))
  | drained hpc hp hr => exact .inr ⟨hr, hp⟩
  | @bounced task left wk hpc hwk hlive hfull =>
    obtain ⟨dropped, hacct, -⟩ := hacct
    rw [hpc] at h
    obtain ⟨hp, hlt, hle, -⟩ := h
    refine ⟨hp, hlt, Nat.le_of_succ_le hle, fun _ => ?_⟩
    -- the full queue's tasks are in flight
    obtain ⟨t, ht⟩ := List.exists_mem_of_length_pos (Nat.lt_of_lt_of_le hqueue (Nat.le_of_not_lt hfull))
    show 0 < s.inFlight
    rw [hacct.inFlight]
    exact List.length_pos_of_mem (State.mem_outstanding.mpr
      (.inl ⟨t, State.mem_tasks.mpr ⟨wk, hwk, List.mem_append_right _ ht⟩, rfl⟩))
  | disconnected hpc hwk hgone => exact .died _ (hpool.panics (by rw [hpc]; rfl) hwk hgone)
  | cycle hpc h0 =>
    exact Verdict.cycle (s := { s with nextWorker := n, pc := .close 0 (.error (.cycle (ctx.plan.report s.indeg))) })
      (hacct.idle h hpc h0)
  | wait hpc hpos => exact hpos
  | allGone hpc hr hgone =>
    obtain ⟨wk, hwk⟩ := List.exists_mem_of_length_pos (hpool.size.symm ▸ hW)
    exact .died _ (hpool.panics (by rw [hpc]; rfl) hwk (hgone wk hwk))
  | closed hpc hi =>
    rw [hpc] at h
    exact Verdict.congr h rfl rfl rfl id
  | joined hpc hwk hgone =>
    rw [hpc] at h
    exact Verdict.congr h rfl rfl rfl id

theorem PcOk.sched (h : PcOk ctx s s.pc) (hacct : Account ctx s) (hpool : Pool ctx cfg s) (hg : ctx.plan.Good outs)
    (hcap : 0 < ctx.effectiveCap) (hqueue : 0 < ctx.queueCap) (hW : 0 < cfg.maxWorkers) (hm : SchedMove ctx s s') :
    PcOk ctx s' s'.pc := by
  cases hm with
  | goto n hgoto => exact h.goto hacct hpool hg hcap hqueue hW n hgoto
  | retry hpc hlt hp => exact ⟨rfl, hlt, Nat.le_refl _, fun h => absurd h (Nat.lt_irrefl _)⟩
  | pick hpc hlt hp hr hok => exact ⟨hp, hlt, Nat.le_refl _, fun h => absurd h (Nat.lt_irrefl _)⟩
  | source => trivial
  | park hpc =>
    rw [hpc] at h
    exact .inl (h.2.2.2 (hpool.size.symm ▸ hW))
  | sent => trivial
  | complete => trivial
  | @fail res results e nd observer hpc hr hout hnd =>
    obtain ⟨dropped, hacct, -⟩ := hacct
    have hmem : res ∈ s.results := by rw [hr]; exact List.mem_cons_self
    have hn := (hacct.of_open hg (State.away_sub_open (State.result_away hmem))).1
    exact .failed (hacct.results_ok res hmem) ((hg.needed _).mpr hn) hnd hout
  | closeTx hpc hwk =>
    rw [hpc] at h
    exact Verdict.congr h rfl rfl rfl (State.panics_set hwk id)
  | leave hpc hi =>
    rw [hpc] at h
    exact Verdict.congr h rfl rfl rfl id

/-! ## Runs -/

/-- The locals that `parStart` fixes. -/
structure Ctx.Good (ctx : Ctx K O E ω) (dag : Dag K O E ω) (cfg : ExecutorConfig) (outs : List K) : Prop where
  dag_eq : ctx.plan.dag = dag
  plan : ctx.plan.Good outs
  queueCap : ctx.queueCap = cfg.workerQueueCap
  effectiveCap : ctx.effectiveCap =
    min cfg.maxInFlight (saturatingMul cfg.maxWorkers (saturatingAdd cfg.workerQueueCap 1))
  valid : cfg.Valid
  nonempty : outs ≠ []
  keys : dag.KeysExist outs

variable {dag : Dag K O E ω}

theorem Ctx.Good.effectiveCap_pos (h : ctx.Good dag cfg outs) : 0 < ctx.effectiveCap := by
  have hmax : 0 < usizeMax := by decide
  have hadd : 0 < saturatingAdd cfg.workerQueueCap 1 := Nat.lt_min.mpr ⟨hmax, Nat.succ_pos _⟩
  have hmul : 0 < saturatingMul cfg.maxWorkers (saturatingAdd cfg.workerQueueCap 1) :=
    Nat.lt_min.mpr ⟨hmax, Nat.mul_pos h.valid.workers hadd⟩
  rw [h.effectiveCap]
  exact Nat.lt_min.mpr ⟨h.valid.inFlight, hmul⟩

theorem Ctx.Good.queueCap_pos (h : ctx.Good dag cfg outs) : 0 < ctx.queueCap := h.queueCap ▸ h.valid.queue

/-- What holds of every state of a run. -/
structure Inv (ctx : Ctx K O E ω) (cfg : ExecutorConfig) (s : State K O E ω R) : Prop where
  account : Account ctx s
  pool : Pool ctx cfg s
  pc : PcOk ctx s s.pc

/-- What holds while a task is being dispatched. -/
theorem Inv.dispatching (h : Inv ctx cfg s) {task : Task O E ω} {left : Nat} (hpc : s.pc = .dispatch task left) :
    s.pending = none ∧ s.inFlight < ctx.effectiveCap ∧ left ≤ s.workers.length ∧
      (left < s.workers.length → 0 < s.inFlight) := by
  have hok := h.pc
  rw [hpc] at hok
  exact hok

variable [ExecObserver R]

theorem Inv.schedule_move (h : Inv ctx cfg s) (hg : ctx.Good dag cfg outs) (hs : s.schedule ctx = some s') :
    SchedMove ctx s s' := by
  obtain ⟨dropped, hacct, hclean⟩ := h.account
  exact DagExec.schedule_move hacct hg.plan (h.pool.size.symm ▸ hg.valid.workers) (fun hl => (hclean hl).1) hs

omit [ExecObserver R] in
theorem Inv.work_move (h : Inv ctx cfg s) {w : Nat} {env : ω} (hs : s.work w env = some s') :
    ∃ wk wk' new seen, s.workers[w]? = some wk ∧ WorkerMove w wk wk' new seen ∧
      s' = { s with workers := s.workers.set w wk', results := s.results ++ new, log := s.log ++ seen } := by
  refine DagExec.work_move (h.pool.rx.imp id ?_) hs
  rintro ⟨r, hr⟩
  have hshut := h.pool.shut
  rw [hr] at hshut
  exact hshut

/-- Every step from a state of a run is a move. -/
theorem Inv.move (h : Inv ctx cfg s) (hg : ctx.Good dag cfg outs) {a : Action ω} (hs : step ctx a s = some s') :
    Move ctx s s' := by
  cases a with
  | scheduler => exact .sched (h.schedule_move hg hs)
  | worker w env =>
    obtain ⟨wk, wk', new, seen, hwk, hm, rfl⟩ := h.work_move hs
    exact .work hwk hm

omit [ExecObserver R] in
/-- A move keeps the invariant. -/
theorem Inv.of_move (h : Inv ctx cfg s) (hg : ctx.Good dag cfg outs) (hm : Move ctx s s') : Inv ctx cfg s' := by
  cases hm with
  | sched hm =>
    exact ⟨h.account.sched (fun task left hpc => (h.dispatching hpc).1) hm, h.pool.sched hm,
      h.pc.sched h.account h.pool hg.plan hg.effectiveCap_pos hg.queueCap_pos hg.valid.workers hm⟩
  | work hwk hm => exact ⟨h.account.work hwk hm, h.pool.work hwk hm, h.pc.work hwk hm⟩

/-- **The step lemma**: every step of every thread keeps the invariant. -/
theorem Inv.preserved (h : Inv ctx cfg s) (hg : ctx.Good dag cfg outs) {a : Action ω} (hs : step ctx a s = some s') :
    Inv ctx cfg s' := h.of_move hg (h.move hg hs)

end DagExec
