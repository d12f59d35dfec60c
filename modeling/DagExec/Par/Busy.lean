import DagExec.Par.Full

/-!
# The scheduler waits only when it has to

A queue that was found full may be drained before the scheduler waits, but what its worker has finished since then is
undelivered: so with every worker asked in a round there are, counting the results in the channel, still as many tasks
as its queue holds (`Loaded`). Hence when the scheduler waits for a result, nothing is left to dispatch, or the cap is
reached, or every worker has work (`waits_only_when_busy`).
-/

namespace DagExec

open ListFacts

variable {K O E ω R : Type} {ctx : Ctx K O E ω} {cfg : ExecutorConfig} {dag : Dag K O E ω} {outs : List K}
  {s s' : State K O E ω R}

/-- What worker `wk` has not finished and what has been finished and not received fill a queue. -/
def Worker.Fills (cap : Nat) (results : List (TaskResult O E)) (wk : Worker O E ω) : Prop :=
  cap ≤ wk.tasks.length + results.length

/-- Why the scheduler goes on to wait. -/
inductive Waits (ctx : Ctx K O E ω) (s : State K O E ω R) : Prop
  | drained (hr : s.ready = []) (hp : s.pending = none)
  | capped (h : ctx.effectiveCap ≤ s.inFlight)
  | full {task : Task O E ω} (hp : s.pending = some task) (h : ∀ wk ∈ s.workers, wk.Fills ctx.queueCap s.results)

/-- What the scheduler has seen of the workers, by where it is. -/
def Loaded (ctx : Ctx K O E ω) (s : State K O E ω R) : Pc K O E ω → Prop
  | .dispatch _ left => ∀ wk ∈ (s.workers.rotate s.nextWorker).drop left, wk.Fills ctx.queueCap s.results
  | .check => Waits ctx s
  | .recv => Waits ctx s
  | _ => True

/-- A step of a worker delivers what it finishes. -/
theorem WorkerMove.fills {w : Nat} {wk wk' : Worker O E ω} {new : List (TaskResult O E)} {seen : List (Event O E)}
    (hwk : s.workers[w]? = some wk) (hm : WorkerMove w wk wk' new seen) :
    List.Forall₂ (fun x y : Worker O E ω => y.tasks.length ≤ x.tasks.length + new.length) (s.workers.set w wk')
      s.workers := by
  have hids := congrArg List.length hm.ids
  rw [List.length_append, List.length_map, List.length_map, List.length_map] at hids
  exact forall₂_set (S := fun x y : Worker O E ω => y.tasks.length ≤ x.tasks.length + new.length)
    (fun _ => Nat.le_add_right _ _) hwk (by omega)

theorem Worker.Fills.work {cap : Nat} {results new : List (TaskResult O E)} {ws ws' : List (Worker O E ω)}
    (hset : List.Forall₂ (fun x y : Worker O E ω => y.tasks.length ≤ x.tasks.length + new.length) ws' ws)
    (h : ∀ wk ∈ ws, wk.Fills cap results) : ∀ wk ∈ ws', wk.Fills cap (results ++ new) := by
  intro wk' hwk'
  obtain ⟨wk, hwk, hle⟩ := forall₂_mem_right hset.flip hwk'
  have := h wk hwk
  simp only [Worker.Fills, List.length_append] at this hle ⊢
  omega

theorem Loaded.work (h : Loaded ctx s s.pc) {w : Nat} {wk wk' : Worker O E ω} {new : List (TaskResult O E)}
    {seen : List (Event O E)} (hwk : s.workers[w]? = some wk) (hm : WorkerMove w wk wk' new seen) :
    Loaded ctx { s with workers := s.workers.set w wk', results := s.results ++ new, log := s.log ++ seen } s.pc := by
  have hset := hm.fills hwk
  have hwaits : Waits ctx s → ∀ pc, Waits ctx { s with
      workers := s.workers.set w wk', results := s.results ++ new, log := s.log ++ seen, pc := pc } := by
    intro hw pc
    cases hw with
    | drained hr hp => exact .drained hr hp
    | capped hcap => exact .capped hcap
    | full hp hall => exact .full hp (Worker.Fills.work hset hall)
  cases hpc : s.pc with
  | dispatch task left =>
    rw [hpc] at h
    exact Worker.Fills.work (List.forall₂_drop left (forall₂_rotate hset s.nextWorker)) h
  | check => rw [hpc] at h; exact hwaits h _
  | recv => rw [hpc] at h; exact hwaits h _
  | _ => trivial

section

variable [ExecObserver R] {observer : R}

/-- A worker whose queue is found full has work. -/
theorem Loaded.bounced (h : Loaded ctx s s.pc) (hinv : Inv ctx cfg s) (hW : 0 < s.workers.length) {task : Task O E ω}
    {left : Nat} (hpc : s.pc = .dispatch task (left + 1)) (hs : s.schedule ctx = some s')
    (hpc' : s'.pc = .dispatch task left) : Loaded ctx s' s'.pc := by
  obtain ⟨wk, hwk, hatt⟩ := schedule_attempt hW hpc hs
  have hlt : left + 1 ≤ s.workers.length := (hinv.dispatching hpc).2.2.1
  rw [hpc] at h
  cases hatt with
  | gone => cases hpc'
  | sent => cases hpc'
  | full hlive hfull =>
    intro wk₁ hwk₁
    rw [rotate_drop_succ hwk hlt, List.mem_append, List.mem_singleton] at hwk₁
    rcases hwk₁ with hold | rfl
    · exact h wk₁ hold
    · have : wk₁.queue.length ≤ wk₁.tasks.length := by
        rw [Worker.tasks, List.length_append]
        exact Nat.le_add_left _ _
      show ctx.queueCap ≤ wk₁.tasks.length + s.results.length
      omega

theorem Runs.loaded (h : Runs dag cfg outs observer ctx s) : Loaded ctx s s.pc := by
  have hg := h.good
  refine h.induct_sched (P := fun s => Loaded ctx s s.pc) (fun s0 hs => ?_) (fun s s' hrun hl hs hm => ?_)
    fun s w wk wk' new seen hrun hl hwk hm => hl.work hwk hm
  · rw [(parStart_start hs).2.pc]
    trivial
  have hinv := hrun.inv
  have hW : 0 < s.workers.length := hinv.pool.size.symm ▸ hg.valid.workers
  -- nobody has been asked yet in a new round
  have hfresh : ∀ wk, wk ∉ (s.workers.rotate s.nextWorker).drop s.workers.length := by
    intro wk hwk
    rw [List.drop_eq_nil_of_le (Nat.le_of_eq (List.length_rotate _ _))] at hwk
    cases hwk
  cases hm with
  | goto n hgoto =>
    cases hgoto with
    | capped hpc hcap => exact Waits.capped (Nat.le_of_not_lt hcap)
    | drained hpc hp hr => exact Waits.drained hr hp
    | bounced hpc => exact hl.bounced hinv hW hpc hs rfl
    | wait hpc =>
      rw [hpc] at hl
      cases hl with
      | drained hr hp => exact Waits.drained hr hp
      | capped hcap => exact Waits.capped hcap
      | full hp hall => exact Waits.full hp hall
    | _ => trivial
  | retry hpc => exact fun wk hwk => absurd hwk (hfresh wk)
  | pick hpc => exact fun wk hwk => absurd hwk (hfresh wk)
  | park hpc =>
    rw [hpc] at hl
    exact Waits.full rfl fun wk hwk => hl wk (List.mem_rotate.mpr hwk)
  | _ => trivial

/-- **The scheduler waits only when it has to.** When it waits for a result, in any state of any run, nothing is ready or
parked, or the cap on tasks in flight is reached, or a task is parked and every worker's unfinished tasks together with
the undelivered results are at least `worker_queue_cap`; so when no result is there to be received, no worker is idle
while something could be dispatched. -/
theorem waits_only_when_busy (dag : Dag K O E ω) (cfg : ExecutorConfig) (outs : List K) (observer : R) :
    (∀ ctx s, Runs dag cfg outs observer ctx s → s.pc = .recv → (s.ready = [] ∧ s.pending = none) ∨
      s.inFlight = ctx.effectiveCap ∨ (∃ task, s.pending = some task) ∧
        ∀ wk ∈ s.workers, cfg.workerQueueCap ≤ wk.tasks.length + s.results.length) ∧
    ∀ ctx s, Runs dag cfg outs observer ctx s → s.pc = .recv → s.results = [] → s.inFlight < ctx.effectiveCap →
      ¬ (s.ready = [] ∧ s.pending = none) → ∀ wk ∈ s.workers, cfg.workerQueueCap ≤ wk.tasks.length ∧ wk.tasks ≠ [] := by
  have hwaits : ∀ ctx s, Runs dag cfg outs observer ctx s → s.pc = .recv → (s.ready = [] ∧ s.pending = none) ∨
      s.inFlight = ctx.effectiveCap ∨ (∃ task, s.pending = some task) ∧
        ∀ wk ∈ s.workers, cfg.workerQueueCap ≤ wk.tasks.length + s.results.length := by
    intro ctx s h hpc
    have hl := h.loaded
    rw [hpc] at hl
    cases hl with
    | drained hr hp => exact .inl ⟨hr, hp⟩
    | capped hcap => exact .inr (.inl (Nat.le_antisymm h.inFlight_le hcap))
    | full hp hall => exact .inr (.inr ⟨⟨_, hp⟩, fun wk hwk => h.good.queueCap ▸ hall wk hwk⟩)
  refine ⟨hwaits, fun ctx s h hpc hres hlt hwork wk hwk => ?_⟩
  have hall := (((hwaits ctx s h hpc).resolve_left hwork).resolve_left (Nat.ne_of_lt hlt)).2 wk hwk
  rw [hres, List.length_nil, Nat.add_zero] at hall
  refine ⟨hall, fun hnil => ?_⟩
  have := h.good.valid.queue
  rw [hnil, List.length_nil] at hall
  omega

end

end DagExec
