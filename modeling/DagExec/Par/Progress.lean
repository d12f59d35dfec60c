import DagExec.Par.Start
import Mathlib.Order.RelClasses

/-!
# Progress and termination

- `rank_decreases`: every step, of the scheduler or of a worker, decreases `State.rank` in the lexicographic order: the
  scheduler leaves its loops, or processes a node, or dispatches one, or moves on in its loop, or a worker moves on;
- `Inv.enabled_or_hung`: whatever has not returned can step or is hung, and without panics it can step;
- `no_deadlock`: both together.
-/

namespace DagExec

open Outcome

variable {K O E ω R : Type}

/-! ## The measure -/

def WorkerStatus.weight : WorkerStatus O E ω → Nat
  | .waiting => 1
  | .running _ => 2
  | .exited => 0
  | .panicked _ => 0

/-- The steps a worker has left, when it is sent nothing more. -/
def Worker.weight (wk : Worker O E ω) : Nat := wk.status.weight + 2 * wk.queue.length

/-- The scheduler leaves its loops, closes, joins, returns. -/
def Pc.phase : Pc K O E ω → Nat
  | .close _ _ => 2
  | .join _ _ => 1
  | .returned _ => 0
  | .panicked _ => 0
  | _ => 3

/-- The steps the scheduler has left in its phase, when it processes and dispatches nothing. -/
def Pc.left (workers : Nat) : Pc K O E ω → Nat
  | .outer => workers + 4
  | .inner => workers + 3
  | .dispatch _ left => left + 2
  | .check => 1
  | .recv => 0
  | .close i _ => workers - i
  | .join i _ => workers - i
  | .returned _ => 0
  | .panicked _ => 0

abbrev Rank := Nat × Nat × Nat × Nat × Nat

/-- The lexicographic order. -/
def Rank.Lt : Rank → Rank → Prop :=
  Prod.Lex (· < ·) (Prod.Lex (· < ·) (Prod.Lex (· < ·) (Prod.Lex (· < ·) (· < ·))))

theorem Rank.lt_wf : WellFounded Rank.Lt :=
  wellFounded_lt.prod_lex (wellFounded_lt.prod_lex (wellFounded_lt.prod_lex (wellFounded_lt.prod_lex wellFounded_lt)))

/-- The phase, the nodes to process, the nodes to dispatch, and what the scheduler and the workers have left. -/
def State.rank (plan : Plan K O E ω) (s : State K O E ω R) : Rank :=
  (s.pc.phase, plan.neededCount - s.processed, s.ready.length + s.held.length, s.pc.left s.workers.length,
    (s.workers.map Worker.weight).sum)

namespace Rank

variable {a b c d e a' b' c' d' e' : Nat}

theorem lt_phase (h : a' < a) : Lt (a', b', c', d', e') (a, b, c, d, e) := .left _ _ h

theorem lt_process (ha : a' = a) (h : b' < b) : Lt (a', b', c', d', e') (a, b, c, d, e) :=
  ha ▸ .right _ (.left _ _ h)

theorem lt_dispatch (ha : a' = a) (hb : b' = b) (h : c' < c) : Lt (a', b', c', d', e') (a, b, c, d, e) :=
  ha ▸ hb ▸ .right _ (.right _ (.left _ _ h))

theorem lt_left (ha : a' = a) (hb : b' = b) (hc : c' = c) (h : d' < d) : Lt (a', b', c', d', e') (a, b, c, d, e) :=
  ha ▸ hb ▸ hc ▸ .right _ (.right _ (.right _ (.left _ _ h)))

theorem lt_worker (h : e' < e) : Lt (a, b, c, d, e') (a, b, c, d, e) :=
  .right _ (.right _ (.right _ (.right _ h)))

end Rank

theorem WorkerMove.weight {w : Nat} {wk wk' : Worker O E ω} {new : List (TaskResult O E)} {seen : List (Event O E)}
    (h : WorkerMove w wk wk' new seen) : wk'.weight < wk.weight := by
  cases h with
  | take hs hq => simp only [Worker.weight, hs, hq, WorkerStatus.weight, List.length_cons]; omega
  | leave hs hq htx => simp only [Worker.weight, hs, hq, WorkerStatus.weight]; omega
  | finish hs hid hf => simp only [Worker.weight, hs, WorkerStatus.weight]; omega
  | panic hs hf => simp only [Worker.weight, hs, WorkerStatus.weight, List.length_nil]; omega

variable {ctx : Ctx K O E ω} {cfg : ExecutorConfig} {dag : Dag K O E ω} {outs : List K} {s s' : State K O E ω R}

/-- While an open node is there, a needed node is to be processed. -/
theorem Account.processed_lt (h : Account ctx s) (hg : ctx.plan.Good outs) {i : NodeId} (hi : i ∈ s.openIds) :
    s.processed < ctx.plan.neededCount := by
  obtain ⟨dropped, hacct, -⟩ := h
  rw [hacct.processed]
  exact hacct.books.doneCount_lt hg (List.count_pos_iff.mpr (List.mem_append_left _ hi))

/-- Moving on decreases the rank: a later phase, or fewer steps left in the same. -/
theorem Goto.rank {pc : Pc K O E ω} (h : Goto ctx s pc) (n : Nat) :
    Rank.Lt (State.rank ctx.plan { s with nextWorker := n, pc := pc }) (s.rank ctx.plan) := by
  have hheld : pc.phase = s.pc.phase → pc.tasks = s.pc.tasks →
      pc.left s.workers.length < s.pc.left s.workers.length →
      Rank.Lt (State.rank ctx.plan { s with nextWorker := n, pc := pc }) (s.rank ctx.plan) := fun hphase htasks hlt =>
    Rank.lt_left hphase rfl (by simp only [State.held, htasks]) hlt
  cases h with
  | enter hpc => exact hheld (by rw [hpc]; rfl) (by rw [hpc]; rfl) (by rw [hpc]; simp only [Pc.left]; omega)
  | capped hpc => exact hheld (by rw [hpc]; rfl) (by rw [hpc]; rfl) (by rw [hpc]; simp only [Pc.left]; omega)
  | drained hpc => exact hheld (by rw [hpc]; rfl) (by rw [hpc]; rfl) (by rw [hpc]; simp only [Pc.left]; omega)
  | bounced hpc => exact hheld (by rw [hpc]; rfl) (by rw [hpc]; rfl) (by rw [hpc]; simp only [Pc.left]; omega)
  | wait hpc => exact hheld (by rw [hpc]; rfl) (by rw [hpc]; rfl) (by rw [hpc]; simp only [Pc.left]; omega)
  | joined hpc hwk =>
    have hlt := (List.getElem?_eq_some_iff.mp hwk).1
    exact hheld (by rw [hpc]; rfl) (by rw [hpc]; rfl) (by rw [hpc]; simp only [Pc.left]; omega)
  | _ hpc => exact Rank.lt_phase (by rw [hpc]; simp only [Pc.phase]; omega)

theorem SchedMove.rank (h : SchedMove ctx s s') (hinv : Inv ctx cfg s) (hg : ctx.plan.Good outs) :
    Rank.Lt (s'.rank ctx.plan) (s.rank ctx.plan) := by
  have hprocess : ∀ i ∈ s.openIds, ctx.plan.neededCount - (s.processed + 1) < ctx.plan.neededCount - s.processed :=
    fun i hi => by
      have := hinv.account.processed_lt hg hi
      omega
  have hok := hinv.pc
  cases h with
  | goto n hgoto => exact hgoto.rank n
  | retry hpc hcap hp =>
    refine Rank.lt_left (by rw [hpc]; rfl) rfl ?_ (by rw [hpc]; simp only [Pc.left]; omega)
    simp [State.held, hp, hpc, Pc.tasks]
  | pick hpc hcap hp hr hok =>
    refine Rank.lt_left (by rw [hpc]; rfl) rfl ?_ (by rw [hpc]; simp only [Pc.left]; omega)
    simp [State.held, hp, hpc, hr, Pc.tasks]
  | source hpc hcap hp hr =>
    exact Rank.lt_process (by rw [hpc]) (hprocess _ (State.ready_sub_open (by rw [hr]; exact List.mem_cons_self)))
  | park hpc =>
    rw [hpc] at hok
    refine Rank.lt_left (by rw [hpc]; rfl) rfl ?_ (by rw [hpc]; simp only [Pc.left]; omega)
    simp [State.held, hpc, hok.1, Pc.tasks]
  | sent hpc =>
    rw [hpc] at hok
    refine Rank.lt_dispatch (by rw [hpc]; rfl) rfl ?_
    simp [State.held, hpc, hok.1, Pc.tasks]
  | @complete res _ _ _ _ _ hpc hr =>
    have hmem : res ∈ s.results := by rw [hr]; exact List.mem_cons_self
    exact Rank.lt_process (by rw [hpc]; rfl) (hprocess _ (State.away_sub_open (State.result_away hmem)))
  | fail hpc => exact Rank.lt_phase (by rw [hpc]; simp only [Pc.phase]; omega)
  | closeTx hpc hwk =>
    have hlt := (List.getElem?_eq_some_iff.mp hwk).1
    refine Rank.lt_left (by rw [hpc]; rfl) rfl ?_ ?_
    · simp [State.held, hpc, Pc.tasks]
    · rw [hpc, List.length_set]
      simp only [Pc.left]
      omega
  | leave hpc => exact Rank.lt_phase (by rw [hpc]; simp only [Pc.phase]; omega)

theorem Move.rank (h : Move ctx s s') (hinv : Inv ctx cfg s) (hg : ctx.plan.Good outs) :
    Rank.Lt (s'.rank ctx.plan) (s.rank ctx.plan) := by
  cases h with
  | sched hm => exact hm.rank hinv hg
  | @work w wk wk' new seen hwk hm =>
    obtain ⟨hlt, rfl⟩ := List.getElem?_eq_some_iff.mp hwk
    have hset := ((List.set_perm_cons_eraseIdx hlt wk').map Worker.weight).sum_eq
    have hget := ((List.getElem_cons_eraseIdx_perm hlt).map Worker.weight).sum_eq
    have hweight := hm.weight
    rw [List.map_cons, List.sum_cons] at hset hget
    simp only [State.rank, State.held, List.length_set]
    exact Rank.lt_worker (by omega)

/-! ## What can step -/

/-- A worker with something to do can step, and so can an idle one whose channel is closed. -/
theorem work_enabled {w : Nat} {wk : Worker O E ω} (hwk : s.workers[w]? = some wk) (hlive : wk.status.gone = false)
    (h : wk.queue ≠ [] ∨ (∃ task, wk.status = .running task) ∨ wk.txOpen = false) (env : ω) :
    ∃ s', s.work w env = some s' := by
  unfold State.work
  simp only [hwk]
  cases hs : wk.status with
  | waiting =>
    cases hq : wk.queue with
    | cons task queue => exact ⟨_, rfl⟩
    | nil =>
      rcases h with hne | ⟨task, htask⟩ | hclosed
      · exact absurd hq hne
      · rw [hs] at htask; cases htask
      · exact ⟨_, if_neg (by rw [hclosed]; nofun)⟩
  | running task =>
    simp only
    cases task.func env task.args <;> exact ⟨_, rfl⟩
  | exited => rw [hs] at hlive; cases hlive
  | panicked lost => rw [hs] at hlive; cases hlive

/-- The scheduler waits for a result, none is undelivered, no live worker has a task, and some live worker still holds a
result sender. -/
def State.Hung (s : State K O E ω R) : Prop :=
  s.pc = .recv ∧ s.results = [] ∧
  (∀ wk ∈ s.workers, wk.status.gone = false → wk.queue = [] ∧ ∀ task, wk.status ≠ .running task) ∧
  ∃ wk ∈ s.workers, wk.status.gone = false

/-- While the scheduler waits for a result without a panic, one is on its way. -/
theorem Inv.waiting (h : Inv ctx cfg s) (hpc : s.pc = .recv) (hpanics : s.panics = false) :
    (∃ wk ∈ s.workers, wk.status.gone = false ∧ (wk.queue ≠ [] ∨ ∃ task, wk.status = .running task)) ∨
      s.results ≠ [] := by
  obtain ⟨dropped, hacct, -⟩ := h.account
  have hpos := h.pc
  rw [hpc, PcOk, hacct.inFlight] at hpos
  obtain ⟨i, hi⟩ := List.exists_mem_of_length_pos hpos
  rcases State.mem_outstanding.mp hi with ⟨t, ht, -⟩ | ⟨res, hres, -⟩
  · obtain ⟨wk, hwk, htask⟩ := State.mem_tasks.mp ht
    have hpan : wk.status.isPanicked = false := by simpa using List.any_eq_false.mp hpanics wk hwk
    refine .inl ⟨wk, hwk, ?_⟩
    cases hs : wk.status with
    | waiting =>
      rw [Worker.tasks, hs] at htask
      exact ⟨rfl, .inl (List.ne_nil_of_mem htask)⟩
    | running task => exact ⟨rfl, .inr ⟨task, rfl⟩⟩
    | exited =>
      rw [Worker.tasks, hs, (h.pool.worker wk hwk).idle (by rw [hs]; rfl)] at htask
      cases htask
    | panicked lost => rw [hs] at hpan; cases hpan
  · exact .inr (List.ne_nil_of_mem hres)

variable [ExecObserver R]

/-- While the scheduler joins, every worker that has not ended can step. -/
theorem Inv.joining (h : Inv ctx cfg s) {i : Nat} {r : Ret K O E} (hpc : s.pc = .join i r) {w : Nat}
    {wk : Worker O E ω} (hwk : s.workers[w]? = some wk) (hlive : wk.status.gone = false) (env : ω) :
    ∃ s', step ctx (.worker w env) s = some s' := by
  have hshut := h.pool.shut
  rw [hpc] at hshut
  exact work_enabled hwk hlive (.inr (.inr (hshut w wk hwk).1)) env

/-- **Progress**: what has not returned has an enabled step, or is hung. -/
theorem Inv.enabled_or_hung [Inhabited ω] (h : Inv ctx cfg s) (hpc : ∀ r, s.pc ≠ .returned r) :
    (∃ (a : Action ω) (s' : State K O E ω R), step ctx a s = some s') ∨ s.Hung := by
  cases hp : s.pc with
  | returned r => exact absurd hp (hpc r)
  | panicked p =>
    have hok := h.pc
    rw [hp] at hok
    exact hok.elim
  | recv =>
    cases hr : s.results with
    | cons res results =>
      refine .inl ⟨.scheduler, ?_⟩
      simp only [step, State.schedule, hp, State.recv, hr]
      exact ⟨_, rfl⟩
    | nil =>
      by_cases hgone : (s.workers.all fun wk => wk.status.gone) = true
      · refine .inl ⟨.scheduler, ?_⟩
        simp only [step, State.schedule, hp, State.recv, hr, hgone, if_true]
        exact ⟨_, rfl⟩
      · have hlive : ∃ wk ∈ s.workers, wk.status.gone = false := by
          rw [List.all_eq_true] at hgone
          simpa using hgone
        by_cases hwork : ∃ wk ∈ s.workers, wk.status.gone = false ∧ (wk.queue ≠ [] ∨ ∃ task, wk.status = .running task)
        · obtain ⟨wk, hwk, hl, hbusy⟩ := hwork
          obtain ⟨w, hw⟩ := List.getElem?_of_mem hwk
          exact .inl ⟨.worker w default, work_enabled hw hl (hbusy.imp_right .inl) default⟩
        · refine .inr ⟨hp, hr, fun wk hwk hl => ⟨?_, fun task ht => hwork ⟨wk, hwk, hl, .inr ⟨task, ht⟩⟩⟩, hlive⟩
          by_contra hq
          exact hwork ⟨wk, hwk, hl, .inl hq⟩
  | join i r =>
    left
    cases hwk : s.workers[i]? with
    | none => exact ⟨.scheduler, by simp only [step, State.schedule, hp, State.joinWorker, hwk]; exact ⟨_, rfl⟩⟩
    | some wk =>
      cases hlive : wk.status.gone with
      | true =>
        exact ⟨.scheduler, by simp only [step, State.schedule, hp, State.joinWorker, hwk, hlive]; exact ⟨_, rfl⟩⟩
      | false => exact ⟨.worker i default, h.joining hp hwk hlive default⟩
  | outer =>
    refine .inl ⟨.scheduler, ?_⟩
    simp only [step, State.schedule, hp]
    split <;> exact ⟨_, rfl⟩
  | inner =>
    refine .inl ⟨.scheduler, ?_⟩
    simp only [step, State.schedule, hp]
    split <;> exact ⟨_, rfl⟩
  | dispatch task left =>
    refine .inl ⟨.scheduler, ?_⟩
    cases left <;> simp only [step, State.schedule, hp] <;> exact ⟨_, rfl⟩
  | check => exact .inl ⟨.scheduler, by simp only [step, State.schedule, hp]; exact ⟨_, rfl⟩⟩
  | close i r => exact .inl ⟨.scheduler, by simp only [step, State.schedule, hp]; exact ⟨_, rfl⟩⟩

omit [ExecObserver R] in
/-- Without panics no state is hung, -/
theorem Inv.not_hung (h : Inv ctx cfg s) (hpanics : s.panics = false) : ¬ s.Hung := by
  rintro ⟨hp, hr, hidle, -⟩
  rcases h.waiting hp hpanics with ⟨wk, hwk, hlive, hbusy⟩ | hres
  · obtain ⟨hq, hrun⟩ := hidle wk hwk hlive
    rcases hbusy with hne | ⟨task, ht⟩
    · exact hne hq
    · exact hrun task ht
  · exact hres hr

/-- so what has not returned has an enabled step. -/
theorem Inv.enabled [Inhabited ω] (h : Inv ctx cfg s) (hpanics : s.panics = false)
    (hpc : ∀ r, s.pc ≠ .returned r) : ∃ (a : Action ω) (s' : State K O E ω R), step ctx a s = some s' :=
  (h.enabled_or_hung hpc).resolve_right (h.not_hung hpanics)

variable {observer : R}

/-- **Every step of every run decreases the rank.** -/
theorem rank_decreases (h : Runs dag cfg outs observer ctx s) {a : Action ω} (hs : step ctx a s = some s') :
    Rank.Lt (s'.rank ctx.plan) (s.rank ctx.plan) :=
  (h.inv.move h.good hs).rank h.inv h.good.plan

theorem Runs.tail (h : Runs dag cfg outs observer ctx s) {a : Action ω} (hs : step ctx a s = some s') :
    Runs dag cfg outs observer ctx s' := by
  obtain ⟨s0, h0, hr⟩ := h
  exact ⟨s0, h0, hr.tail a hs⟩

/-- **Deadlock freedom.** In a run in which no task has panicked, every state that has not returned has an enabled step;
while the scheduler waits for a result, a task is queued at or running on a live worker or its result is undelivered;
while it joins, every worker that has not ended can step. Every step decreases the rank, so no run is infinite. -/
theorem no_deadlock [Inhabited ω] (dag : Dag K O E ω) (cfg : ExecutorConfig) (outs : List K) (observer : R)
    (ctx : Ctx K O E ω) :
    (∀ s : State K O E ω R, Runs dag cfg outs observer ctx s → s.panics = false →
      ((∀ r, s.pc ≠ .returned r) → ∃ a s', step ctx a s = some s') ∧
      (s.pc = .recv → (∃ wk ∈ s.workers, wk.status.gone = false ∧
        (wk.queue ≠ [] ∨ ∃ task, wk.status = .running task)) ∨ s.results ≠ []) ∧
      ∀ i r, s.pc = .join i r → ∀ w wk, s.workers[w]? = some wk → wk.status.gone = false → ∀ env,
        ∃ s', step ctx (.worker w env) s = some s') ∧
    WellFounded Rank.Lt ∧
    (∀ s s' : State K O E ω R, Runs dag cfg outs observer ctx s → ∀ a, step ctx a s = some s' →
      Rank.Lt (s'.rank ctx.plan) (s.rank ctx.plan)) ∧
    ∀ (run : Nat → State K O E ω R) (acts : Nat → Action ω), Runs dag cfg outs observer ctx (run 0) →
      ¬ ∀ n, step ctx (acts n) (run n) = some (run (n + 1)) := by
  refine ⟨fun s h hp => ⟨h.inv.enabled hp, fun hpc => h.inv.waiting hpc hp, fun i r hpc w wk hwk hlive env =>
    h.inv.joining hpc hwk hlive env⟩, Rank.lt_wf, fun s s' h a hs => rank_decreases h hs, fun run acts h0 => ?_⟩
  exact Machine.no_infinite_run Rank.lt_wf (I := Runs dag cfg outs observer ctx) (State.rank ctx.plan)
    (fun a t u ht (hs : step ctx a t = some u) => ht.tail hs) (fun a t u ht hs => rank_decreases ht hs) run acts h0

end DagExec
