import DagExec.Par.Turns
import DagExec.Par.Conservation

/-!
# Round robin

A call of `dispatch_task_try` asks at most one round of workers: it goes on (`Trying`) as long as the queues asked are
full (`Bounced`), and returns what its last attempt found (`Dispatches`). Calls start at any state, whatever is in the
queues and wherever the turn is, and the workers go on between the attempts; only what is said of runs uses their
invariant.
-/

namespace DagExec

open ListFacts

variable {K O E ω R : Type} [ExecObserver R] {ctx : Ctx K O E ω} {s t u : State K O E ω R}

/-! ## Calls -/

/-- What `dispatch_task_try` returns unless a worker is gone. -/
inductive DispatchOutcome (O E ω : Type)
  | queued (workerId : Nat)
  | allFull (task : Task O E ω)

/-- A call with `task` entered at `s` that has not returned: some attempts, and steps of the workers between them. -/
inductive Trying (ctx : Ctx K O E ω) (task : Task O E ω) (s : State K O E ω R) :
    List (Probe O E ω) → State K O E ω R → Prop
  | enter (hpc : s.pc = .dispatch task s.workers.length) : Trying ctx task s [] s
  | serve {probes : List (Probe O E ω)} {t u : State K O E ω R} {w : Nat} {env : ω} (h : Trying ctx task s probes t)
      (hs : t.work w env = some u) : Trying ctx task s probes u
  | again {probes : List (Probe O E ω)} {t u : State K O E ω R} {task' : Task O E ω} {left : Nat}
      (h : Trying ctx task s probes t) (hs : t.schedule ctx = some u) (hpc : u.pc = .dispatch task' left) :
      Trying ctx task s (probes ++ t.asked .scheduler) u

/-- A call that has returned: its result is read off what the scheduler does with it. -/
inductive Dispatches (ctx : Ctx K O E ω) (task : Task O E ω) (s : State K O E ω R) :
    List (Probe O E ω) → Except Unit (DispatchOutcome O E ω) → State K O E ω R → Prop
  | queued {probes : List (Probe O E ω)} {t u : State K O E ω R} {w : Nat} (h : Trying ctx task s probes t)
      (hs : t.schedule ctx = some u) (hlog : u.log = t.log ++ [.dispatched w task.id]) :
      Dispatches ctx task s (probes ++ t.asked .scheduler) (.ok (.queued w)) u
  | allFull {probes : List (Probe O E ω)} {t u : State K O E ω R} {task' : Task O E ω} (h : Trying ctx task s probes t)
      (hs : t.schedule ctx = some u) (hpc : u.pc = .check) (hpending : u.pending = some task') :
      Dispatches ctx task s (probes ++ t.asked .scheduler) (.ok (.allFull task')) u
  | disconnected {probes : List (Probe O E ω)} {t u : State K O E ω R} (h : Trying ctx task s probes t)
      (hs : t.schedule ctx = some u)
      (hpc : u.pc = .close 0 (.error (.internalInvariant "worker task channel disconnected"))) :
      Dispatches ctx task s (probes ++ t.asked .scheduler) (.error ()) u

variable {task : Task O E ω} {probes : List (Probe O E ω)}

theorem Trying.stretch (h : Trying ctx task s probes t) : Stretch ctx s probes t := by
  induction h with
  | enter => exact .refl
  | @serve _ _ _ w env _ hs ih => simpa [State.asked] using ih.tail (.worker w env) hs
  | again _ hs _ ih => exact ih.tail .scheduler hs

/-- While the call goes on: the attempts made and those left are one round, every queue asked was full, and meanwhile
the workers have only taken tasks. -/
structure Bounced (ctx : Ctx K O E ω) (task : Task O E ω) (s : State K O E ω R) (probes : List (Probe O E ω))
    (t : State K O E ω R) : Prop where
  pc : ∃ left, t.pc = .dispatch task left ∧ probes.length + left = s.workers.length
  full : ∀ p ∈ probes, p.Full ctx
  taken : OnlyTaken s.workers t.workers

/-- The scheduler's step in a call: it parks the task after a whole round, or makes an attempt. -/
theorem Bounced.schedule (hW : 0 < s.workers.length) (h : Bounced ctx task s probes t)
    (hs : t.schedule ctx = some u) :
    (probes.length = s.workers.length ∧ t.asked .scheduler = [] ∧ u = { t with pending := some task, pc := .check }) ∨
    ∃ left wk, probes.length + (left + 1) = s.workers.length ∧ t.workers[t.nextWorker % t.workers.length]? = some wk ∧
      t.asked .scheduler = [⟨t.nextWorker % t.workers.length, wk⟩] ∧
      Attempt ctx t task left (t.nextWorker % t.workers.length) wk u := by
  obtain ⟨left, hpc, hlen⟩ := h.pc
  cases left with
  | zero =>
    refine .inl ⟨by omega, ?_, ?_⟩
    · simp [State.asked, hpc]
    · simp only [State.schedule, hpc, Option.some.injEq] at hs
      exact hs.symm
  | succ left =>
    obtain ⟨wk, hwk, hatt⟩ := schedule_attempt (h.taken.length_eq ▸ hW) hpc hs
    exact .inr ⟨left, wk, hlen, hwk, asked_attempt hpc hwk, hatt⟩

theorem Trying.bounced (hW : 0 < s.workers.length) (h : Trying ctx task s probes t) : Bounced ctx task s probes t := by
  induction h with
  | enter hpc => exact ⟨⟨_, hpc, Nat.zero_add _⟩, by simp, .refl _⟩
  | serve _ hs ih =>
    have hserves := work_serves hs
    exact ⟨hserves.pc ▸ ih.pc, ih.full, ih.taken.trans hserves.taken⟩
  | again _ hs hpc ih =>
    rcases ih.schedule hW hs with ⟨-, -, rfl⟩ | ⟨left, wk, hlen, hwk, hasked, hatt⟩
    · cases hpc
    rw [hasked]
    cases hatt with
    | gone => cases hpc
    | sent => cases hpc
    | full hlive hfull =>
      refine ⟨⟨left, rfl, by rw [List.length_append, List.length_singleton]; omega⟩, fun p hp => ?_, ih.taken⟩
      rcases List.mem_append.mp hp with hp | hp
      · exact ih.full p hp
      · rw [List.mem_singleton.mp hp]
        exact ⟨hlive, hfull⟩

/-- `Queued { worker_id }`: the queues tried before were full, this one had room, and the task is now the last in it and
in no other; the next turn is the next worker's. -/
def QueuedAt (ctx : Ctx K O E ω) (task : Task O E ω) (s : State K O E ω R) (probes : List (Probe O E ω)) (w : Nat)
    (u : State K O E ω R) : Prop :=
  ∃ earlier wk workers, probes = earlier ++ [⟨w, wk⟩] ∧ (∀ p ∈ earlier, p.Full ctx) ∧ Probe.Room ctx ⟨w, wk⟩ ∧
    OnlyTaken s.workers workers ∧ workers[w]? = some wk ∧
    u.workers = workers.set w { wk with queue := wk.queue ++ [task] } ∧
    u.nextWorker % s.workers.length = (w + 1) % s.workers.length

/-- `AllFull(task)`: every worker was asked and every queue was full when tried; the task is back with the scheduler, the
queues have only got shorter, so that a task that was in none is in none, and the turn is where it was. -/
def HandedBack (ctx : Ctx K O E ω) (s : State K O E ω R) (probes : List (Probe O E ω)) (task : Task O E ω)
    (u : State K O E ω R) : Prop :=
  u.pending = some task ∧ probes.length = s.workers.length ∧ (∀ w < s.workers.length, ∃ p ∈ probes, p.idx = w) ∧
    (∀ p ∈ probes, p.Full ctx) ∧ OnlyTaken s.workers u.workers ∧
    ((∀ wk ∈ s.workers, task ∉ wk.queue) → ∀ wk ∈ u.workers, task ∉ wk.queue) ∧
    u.nextWorker % s.workers.length = s.nextWorker % s.workers.length

theorem Trying.queued (hW : 0 < s.workers.length) (h : Trying ctx task s probes t) (hs : t.schedule ctx = some u)
    {w : Nat} (hlog : u.log = t.log ++ [.dispatched w task.id]) :
    QueuedAt ctx task s (probes ++ t.asked .scheduler) w u := by
  have hb := h.bounced hW
  rcases hb.schedule hW hs with ⟨-, -, rfl⟩ | ⟨left, wk, hlen, hwk, hasked, hatt⟩
  · exact absurd hlog (by simp)
  rw [hasked]
  cases hatt with
  | gone => exact absurd hlog (by simp)
  | full => exact absurd hlog (by simp)
  | sent hlive hroom =>
    have hidx : t.nextWorker % t.workers.length = w := by simpa using hlog
    rw [hidx] at hwk ⊢
    exact ⟨probes, wk, t.workers, rfl, hb.full, ⟨hlive, hroom⟩, hb.taken, hwk, rfl, rfl⟩

theorem Trying.handedBack (hW : 0 < s.workers.length) (h : Trying ctx task s probes t) (hs : t.schedule ctx = some u)
    {task' : Task O E ω} (hpc : u.pc = .check) (hpending : u.pending = some task') :
    task' = task ∧ HandedBack ctx s (probes ++ t.asked .scheduler) task u := by
  have hb := h.bounced hW
  have hin := h.stretch.inTurn hW
  rcases hb.schedule hW hs with ⟨hround, hasked, rfl⟩ | ⟨left, wk, hlen, hwk, hasked, hatt⟩
  · rw [hasked, List.append_nil]
    refine ⟨(Option.some.inj hpending).symm, rfl, hround, fun w hw => ?_, hb.full, hb.taken, hb.taken.not_mem, ?_⟩
    · have hmem : w ∈ probes.map Probe.idx := by
        rw [hin.turns, hround]
        exact mem_turns hw
      exact List.mem_map.mp hmem
    · have hnext := hin.nextWorker
      rw [hround, Nat.add_mod_right] at hnext
      exact hnext
  · cases hatt <;> cases hpc

theorem Trying.gone (hW : 0 < s.workers.length) (h : Trying ctx task s probes t) (hs : t.schedule ctx = some u)
    (hpc : u.pc = .close 0 (.error (.internalInvariant "worker task channel disconnected"))) :
    ∃ p ∈ probes ++ t.asked .scheduler, p.worker.status.gone = true := by
  rcases (h.bounced hW).schedule hW hs with ⟨-, -, rfl⟩ | ⟨left, wk, hlen, hwk, hasked, hatt⟩
  · cases hpc
  cases hatt with
  | gone hgone => exact ⟨_, List.mem_append_right _ (hasked ▸ List.mem_cons_self), hgone⟩
  | sent => cases hpc
  | full => cases hpc

/-- A call returns after at most one round of attempts. -/
theorem Trying.returns (hW : 0 < s.workers.length) (h : Trying ctx task s probes t) :
    ∃ probes r u, Dispatches ctx task s probes r u := by
  obtain ⟨left, hpc, -⟩ := (h.bounced hW).pc
  induction left generalizing probes t with
  | zero =>
    have hs : t.schedule ctx = some { t with pending := some task, pc := .check } := by simp only [State.schedule, hpc]
    exact ⟨_, _, _, .allFull h hs rfl rfl⟩
  | succ left ih =>
    have hW' : 0 < t.workers.length := (h.bounced hW).taken.length_eq ▸ hW
    have hs : t.schedule ctx = some (t.attempt ctx task left) := by simp only [State.schedule, hpc]
    obtain ⟨wk, -, hatt⟩ := schedule_attempt hW' hpc hs
    generalize t.attempt ctx task left = u at hs hatt
    cases hatt with
    | gone => exact ⟨_, _, _, .disconnected h hs rfl⟩
    | sent => exact ⟨_, _, _, .queued h hs rfl⟩
    | full => exact ih (h.again hs rfl) rfl

/-- A call returns in the scheduler's last step of it. -/
theorem Dispatches.last {r : Except Unit (DispatchOutcome O E ω)} (h : Dispatches ctx task s probes r u) :
    ∃ earlier t, Trying ctx task s earlier t ∧ t.schedule ctx = some u ∧ probes = earlier ++ t.asked .scheduler := by
  cases h with
  | queued h hs => exact ⟨_, _, h, hs, rfl⟩
  | allFull h hs => exact ⟨_, _, h, hs, rfl⟩
  | disconnected h hs => exact ⟨_, _, h, hs, rfl⟩

theorem Dispatches.stretch {r : Except Unit (DispatchOutcome O E ω)} (h : Dispatches ctx task s probes r u) :
    Stretch ctx s probes u := by
  obtain ⟨earlier, t, htry, hs, rfl⟩ := h.last
  exact htry.stretch.tail .scheduler hs

theorem Dispatches.length_le (hW : 0 < s.workers.length) {r : Except Unit (DispatchOutcome O E ω)}
    (h : Dispatches ctx task s probes r u) : probes.length ≤ s.workers.length := by
  obtain ⟨earlier, t, htry, hs, rfl⟩ := h.last
  rw [List.length_append]
  rcases (htry.bounced hW).schedule hW hs with ⟨hround, hasked, -⟩ | ⟨left, wk, hlen, -, hasked, -⟩
  · rw [hasked, List.length_nil]
    omega
  · rw [hasked, List.length_singleton]
    omega

/-! ## In a run -/

section Runs

variable {cfg : ExecutorConfig} {dag : Dag K O E ω} {outs : List K} {observer : R}

theorem Runs.nextWorker_le (h : Runs dag cfg outs observer ctx s) : s.nextWorker ≤ s.workers.length := by
  have hsize := h.inv.pool.size
  have hW := h.good.valid.workers
  obtain ⟨s0, hs, hreach⟩ := h
  obtain ⟨p, -, -, -, -, -, -, hturn⟩ := parStart_prepared hs
  have hsize0 : s0.workers.length = cfg.maxWorkers := (parStart_start hs).2.inv.pool.size
  obtain ⟨probes, hstretch⟩ := exists_stretch hreach
  have hle := (hstretch.inTurn (hsize0 ▸ hW)).bound (by rw [hturn]; exact Nat.zero_le _)
  rw [hsize, ← hsize0]
  exact hle

/-- What the scheduler holds is in no queue. -/
theorem Runs.held_not_queued (h : Runs dag cfg outs observer ctx s) (hmem : task ∈ s.held) : task.id ∉ s.queued := by
  intro hq
  obtain ⟨dropped, hacct, -⟩ := h.inv.account
  have hplace := hacct.books.ledger.place task.id
  have hone : (flag ctx.plan.needed task.id).toNat ≤ 1 := Bool.toNat_le _
  have hheld : 0 < (s.held.map Task.id).count task.id := List.count_pos_iff.mpr (List.mem_map_of_mem hmem)
  have hqueued : 0 < s.queued.count task.id := List.count_pos_iff.mpr hq
  have htasks := (s.queued_running_count task.id).1
  simp only [List.count_append, State.count_open] at hplace
  omega

end Runs

/-- **Round robin.** A call of `dispatch_task_try`, at any state and with any steps of the workers between its attempts,
returns. It asks the workers in cyclic order from `next_worker`, each at most once; a task it queues is in exactly that
channel, a task it hands back has met full queues only, and with no worker gone it does one of the two. Over any steps
`next_worker` stays within the number of workers, and as long as no queue is full, as many consecutive dispatches as
there are workers go to different workers. -/
theorem dispatch_round_robin (hW : 0 < s.workers.length) :
    (∀ task, s.pc = .dispatch task s.workers.length → ∃ probes r u, Dispatches ctx task s probes r u) ∧
    (∀ task probes r u, Dispatches ctx task s probes r u →
      probes.map Probe.idx = turns s.workers.length s.nextWorker probes.length ∧ (probes.map Probe.idx).Nodup ∧
      (∀ w, r = .ok (.queued w) → QueuedAt ctx task s probes w u) ∧
      (∀ task', r = .ok (.allFull task') → task' = task ∧ HandedBack ctx s probes task u) ∧
      ((∀ p ∈ probes, p.worker.status.gone = false) → r ≠ .error ())) ∧
    (∀ probes t, Stretch ctx s probes t →
      (s.nextWorker ≤ s.workers.length → t.nextWorker ≤ s.workers.length) ∧
      ((∀ p ∈ probes, p.Room ctx) → ∃ sent, t.sentTo = s.sentTo ++ sent ∧
        ∀ ws, ws <:+: sent → ws.length ≤ s.workers.length → ws.Nodup)) ∧
    ∀ dag cfg outs observer, Runs dag cfg outs observer ctx s →
      s.nextWorker ≤ s.workers.length ∧ ∀ task ∈ s.held, task.id ∉ s.queued := by
  refine ⟨fun task hpc => Trying.returns hW (.enter hpc),
    fun task probes r u h => ⟨(h.stretch.inTurn hW).turns, ?_, ?_, ?_, ?_⟩, fun probes t h => ⟨?_, ?_⟩,
    fun dag cfg outs observer h => ⟨h.nextWorker_le, fun task hmem => h.held_not_queued hmem⟩⟩
  · rw [(h.stretch.inTurn hW).turns]
    exact turns_nodup (h.length_le hW)
  · rintro w rfl
    cases h with
    | queued h hs hlog => exact h.queued hW hs hlog
  · rintro task' rfl
    cases h with
    | allFull h hs hpc hpending => exact h.handedBack hW hs hpc hpending
  · rintro hlive rfl
    cases h with
    | disconnected h hs hpc =>
      obtain ⟨p, hp, hgone⟩ := h.gone hW hs hpc
      exact absurd (hgone.symm.trans (hlive p hp)) (by decide)
  · exact (h.inTurn hW).bound
  · intro hroom
    refine ⟨_, (h.inTurn hW).sentTo hroom, fun ws hws hlen => ?_⟩
    rw [(h.inTurn hW).turns] at hws
    exact nodup_of_infix_turns hws hlen

/-- Two workers with room for one task each, the first one's queue full, and `next_worker` a whole round on. -/
def State.halfFull (task : Task Nat Nat Unit) : State Nat Nat Nat Unit Unit where
  vals := [none]
  indeg := [0]
  ready := []
  processed := 0
  inFlight := 1
  nextWorker := 2
  pending := none
  observer := ()
  workers := [{ Worker.spawned with queue := [task] }, Worker.spawned]
  results := []
  resRx := true
  pc := .dispatch task 2
  log := []

theorem dispatch_round_robin_halfFull :
    ∃ (ctx : Ctx Nat Nat Nat Unit) (task : Task Nat Nat Unit) (probes : List (Probe Nat Nat Unit))
      (u : State Nat Nat Nat Unit Unit), Dispatches ctx task (.halfFull task) probes (.ok (.queued 1)) u ∧
      QueuedAt ctx task (.halfFull task) probes 1 u := by
  let ctx : Ctx Nat Nat Nat Unit := ⟨⟨Dag.const 0 (.ok 5), [true], [[]], 1⟩, 1, 2⟩
  let task : Task Nat Nat Unit := ⟨0, fun _ _ => .ok 5, []⟩
  have hcall : Trying ctx task (.halfFull task) [] (.halfFull task) := .enter rfl
  have hfull : (State.halfFull task).schedule ctx =
      some { State.halfFull task with nextWorker := 1, pc := .dispatch task 1 } := by
    simp [State.schedule, State.halfFull, State.attempt, State.orLeave, Outcome.index, Worker.trySend, Worker.spawned,
      WorkerStatus.gone, ctx, task]
  have hret := Dispatches.queued (hcall.again hfull rfl) rfl rfl (w := 1)
  exact ⟨ctx, task, _, _, hret, ((dispatch_round_robin (by decide)).2.1 _ _ _ _ hret).2.2.1 1 rfl⟩

end DagExec
