import DagExec.Par.Invariant

/-!
# The start of a parallel run

`parStart` rejects an empty output list, a knob that is zero and a missing key (`parStart_err`); otherwise it reaches
the top of the outer loop with the seeded queue and idle workers (`parStart_ok`), where the invariant holds. With the
step lemma: the invariant holds in every state of every run (`Runs.inv`). On a graph whose preparation is known, a list
of actions is played from there to a state of a run (`exists_played`).
-/

namespace DagExec

open Outcome

variable {K O E ω R : Type}

/-- The context of a run after its preparation, -/
def Prepared.ctx (p : Prepared K O E ω R) (cfg : ExecutorConfig) : Ctx K O E ω where
  plan := p.plan
  queueCap := cfg.workerQueueCap
  effectiveCap := min cfg.maxInFlight (saturatingMul cfg.maxWorkers (saturatingAdd cfg.workerQueueCap 1))

/-- and the state it starts from. -/
def Prepared.state (p : Prepared K O E ω R) (cfg : ExecutorConfig) : State K O E ω R where
  vals := p.vals
  indeg := p.indeg
  ready := p.ready
  processed := 0
  inFlight := 0
  nextWorker := 0
  pending := none
  observer := p.observer
  workers := List.replicate cfg.maxWorkers Worker.spawned
  results := []
  resRx := true
  pc := .outer
  log := []

/-- The state at the top of the outer loop for the first time. -/
structure Initial (ctx : Ctx K O E ω) (cfg : ExecutorConfig) (s : State K O E ω R) : Prop where
  books : Books ctx.plan s.vals s.indeg fun i => s.ready.count i
  nothing_done : doneCount s.vals = 0
  ready : s.ready = ctx.plan.seeds
  processed : s.processed = 0
  inFlight : s.inFlight = 0
  pending : s.pending = none
  workers : s.workers = List.replicate cfg.maxWorkers Worker.spawned
  results : s.results = []
  resRx : s.resRx = true
  pc : s.pc = .outer
  log : s.log = []

variable [ExecObserver R] {ctx : Ctx K O E ω} {cfg : ExecutorConfig} {dag : Dag K O E ω} {outs : List K}
  {s s0 : State K O E ω R} {observer : R}

omit [ExecObserver R] in
theorem Initial.tasks (h : Initial ctx cfg s) : s.tasks = [] := by
  rw [State.tasks, h.workers, List.flatMap_eq_nil_iff]
  intro wk hwk
  rw [List.eq_of_mem_replicate hwk]
  rfl

omit [ExecObserver R] in
theorem Initial.panics (h : Initial ctx cfg s) : s.panics = false := by
  refine List.any_eq_false.mpr fun wk hwk => ?_
  rw [h.workers] at hwk
  rw [List.eq_of_mem_replicate hwk]
  nofun

omit [ExecObserver R] in
theorem Initial.inv (h : Initial ctx cfg s) : Inv ctx cfg s := by
  have hheld : s.held = [] := by simp [State.held, h.pending, h.pc, Pc.tasks]
  have hout : s.outstanding = [] := by simp [State.outstanding, h.tasks, h.results]
  have hfailed : s.failed = [] := by simp [State.failed, h.log]
  have hspawned : ∀ wk ∈ s.workers, wk = Worker.spawned := fun wk hwk =>
    List.eq_of_mem_replicate (h.workers ▸ hwk)
  refine ⟨⟨[], ⟨h.books.congr fun i => ?_, ?_, ?_, ?_, ?_, ?_⟩, fun _ => ⟨rfl, hfailed⟩⟩, ⟨?_, ?_, ?_, .inl h.resRx⟩, ?_⟩
  · simp [State.openIds, State.away, hheld, hout, hfailed]
  · rw [h.processed, h.nothing_done]
  · rw [h.inFlight, hout]; rfl
  · simp [hheld]
  · simp [h.tasks]
  · simp [h.results]
  · rw [h.workers, List.length_replicate]
  · exact fun wk hwk => by
      rw [hspawned wk hwk]
      exact ⟨Nat.zero_le _, fun hg => absurd hg Bool.false_ne_true, fun hg _ => absurd hg Bool.false_ne_true,
        fun hp => absurd hp Bool.false_ne_true⟩
  · rw [h.pc]
    exact fun wk hwk => by rw [hspawned wk hwk]; rfl
  · rw [h.pc]
    trivial

/-- With a valid configuration, the run starts from what was prepared. -/
theorem parStart_of_prepare (hv : cfg.Valid) (hne : outs ≠ []) {p : Prepared K O E ω R}
    (hp : prepare dag outs observer = ok p) : parStart dag cfg outs observer = ok (p.ctx cfg, p.state cfg) := by
  have hne' : outs.isEmpty = false := by simpa using hne
  simp only [parStart, hne', Bool.false_eq_true, if_false, Nat.ne_of_gt hv.workers, Nat.ne_of_gt hv.inFlight,
    Nat.ne_of_gt hv.queue, hp, ok_bind, senders, okOr, List.length_replicate, pure_eq]
  rfl

/-- With a valid configuration and a list of existing keys, the preparation succeeds. -/
theorem parStart_ok (hv : cfg.Valid) (hne : outs ≠ []) (hk : dag.KeysExist outs) (observer : R) :
    ∃ ctx s0, parStart dag cfg outs observer = ok (ctx, s0) ∧ ctx.Good dag cfg outs ∧ Initial ctx cfg s0 := by
  obtain ⟨p, hp, hd, hg, hb, h0, hr⟩ := prepare_ok hk observer
  exact ⟨p.ctx cfg, p.state cfg, parStart_of_prepare hv hne hp, ⟨hd, hg, rfl, rfl, hv, hne, hk⟩,
    ⟨hb, h0, hr, rfl, rfl, rfl, rfl, rfl, rfl, rfl, rfl⟩⟩

theorem exists_initial (hv : cfg.Valid) (hne : outs ≠ []) (hk : dag.KeysExist outs) (observer : R) :
    ∃ (ctx : Ctx K O E ω) (s : State K O E ω R), Runs dag cfg outs observer ctx s ∧ Initial ctx cfg s := by
  obtain ⟨ctx, s0, hs, -, hi⟩ := parStart_ok hv hne hk observer
  exact ⟨ctx, s0, ⟨s0, hs, .refl⟩, hi⟩

theorem Runs.trans (h : Runs dag cfg outs observer ctx s) {t : State K O E ω R} (hr : Machine.Reach (step ctx) s t) :
    Runs dag cfg outs observer ctx t := by
  obtain ⟨s0, h0, hs⟩ := h
  exact ⟨s0, h0, hs.trans hr⟩

/-- What a list of actions leads to, as a state of a run: `f` looks at it. -/
theorem exists_played {β : Type} (hv : cfg.Valid) (hne : outs ≠ []) {p : Prepared K O E ω R}
    (hp : prepare dag outs observer = ok p) (as : List (Action ω)) (f : State K O E ω R → β) {b : β}
    (h : (Machine.play (step (p.ctx cfg)) as (p.state cfg)).map f = some b) :
    ∃ s, Runs dag cfg outs observer (p.ctx cfg) s ∧ f s = b := by
  obtain ⟨s, hs, hb⟩ := Machine.Reach.of_play h
  exact ⟨s, ⟨p.state cfg, parStart_of_prepare hv hne hp, hs⟩, hb⟩

/-- What a rejected run reports. -/
theorem parStart_err (h : ¬ (cfg.Valid ∧ outs ≠ [] ∧ dag.KeysExist outs)) (observer : R) :
    (∃ msg, parStart dag cfg outs observer = err (.internalInvariant msg)) ∨
      ∃ k ∈ outs, dag.index.get k = none ∧ parStart dag cfg outs observer = err (.outputMissing k) := by
  unfold parStart
  by_cases hne : outs.isEmpty
  · exact .inl ⟨_, if_pos hne⟩
  rw [if_neg hne]
  by_cases hw : cfg.maxWorkers = 0
  · exact .inl ⟨_, if_pos hw⟩
  rw [if_neg hw]
  by_cases hi : cfg.maxInFlight = 0
  · exact .inl ⟨_, if_pos hi⟩
  rw [if_neg hi]
  by_cases hq : cfg.workerQueueCap = 0
  · exact .inl ⟨_, if_pos hq⟩
  rw [if_neg hq]
  have hk : ¬ dag.KeysExist outs := fun hk =>
    h ⟨⟨Nat.pos_of_ne_zero hw, Nat.pos_of_ne_zero hi, Nat.pos_of_ne_zero hq⟩, by simpa using hne, hk⟩
  obtain ⟨k, hmem, hno, herr⟩ := prepare_missing hk observer
  exact .inr ⟨k, hmem, hno, by rw [herr, err_bind]⟩

/-- What a started run starts from. -/
theorem parStart_start (h : parStart dag cfg outs observer = ok (ctx, s0)) :
    ctx.Good dag cfg outs ∧ Initial ctx cfg s0 := by
  by_cases hv : cfg.Valid ∧ outs ≠ [] ∧ dag.KeysExist outs
  · obtain ⟨ctx', s', hs, hg, hi⟩ := parStart_ok hv.1 hv.2.1 hv.2.2 observer
    rw [h] at hs
    cases hs
    exact ⟨hg, hi⟩
  · rcases parStart_err hv observer with ⟨msg, herr⟩ | ⟨k, -, -, herr⟩ <;> rw [h] at herr <;> cases herr

/-- A run starts with what the preparation computed, and with the first worker's turn. -/
theorem parStart_prepared (h : parStart dag cfg outs observer = ok (ctx, s0)) : ∃ p, prepare dag outs observer = ok p ∧
    p.plan = ctx.plan ∧ p.vals = s0.vals ∧ p.indeg = s0.indeg ∧ p.ready = s0.ready ∧ p.observer = s0.observer ∧
    s0.nextWorker = 0 := by
  have hg := (parStart_start h).1
  obtain ⟨p, hp, -⟩ := prepare_ok hg.keys observer
  rw [parStart_of_prepare hg.valid hg.nonempty hp] at h
  cases h
  exact ⟨p, hp, rfl, rfl, rfl, rfl, rfl, rfl⟩

theorem Runs.good (h : Runs dag cfg outs observer ctx s) : ctx.Good dag cfg outs := by
  obtain ⟨s0, hs, -⟩ := h
  exact (parStart_start hs).1

/-- **The run lemma**: the invariant holds in every state of every run. -/
theorem Runs.inv (h : Runs dag cfg outs observer ctx s) : Inv ctx cfg s := by
  obtain ⟨s0, hs, hreach⟩ := h
  obtain ⟨hg, hi⟩ := parStart_start hs
  exact hreach.invariant hi.inv fun a t u hinv hst => hinv.preserved hg hst

/-- An open node is needed and not processed. -/
theorem Runs.of_open (h : Runs dag cfg outs observer ctx s) {i : NodeId} (hi : i ∈ s.openIds) :
    dag.Needed outs i ∧ isDone s.vals i = false := by
  have hg := h.good
  obtain rfl := hg.dag_eq
  obtain ⟨dropped, hacct, -⟩ := h.inv.account
  exact hacct.of_open hg.plan hi

/-- The induction rule for runs, step by step. -/
theorem Runs.induct_step {P : State K O E ω R → Prop} (h : Runs dag cfg outs observer ctx s)
    (h0 : ∀ s0, parStart dag cfg outs observer = ok (ctx, s0) → P s0)
    (hstep : ∀ a s s', Runs dag cfg outs observer ctx s → P s → step ctx a s = some s' → P s') : P s := by
  obtain ⟨s0, hs, hreach⟩ := h
  refine (hreach.invariant (I := fun s => Runs dag cfg outs observer ctx s ∧ P s) ⟨⟨s0, hs, .refl⟩, h0 s0 hs⟩ ?_).2
  rintro a t u ⟨⟨s1, hs1, hr1⟩, hp⟩ hst
  exact ⟨⟨s1, hs1, hr1.tail a hst⟩, hstep a t u ⟨s1, hs1, hr1⟩ hp hst⟩

/-- **The induction rule for runs**, step by move. -/
theorem Runs.induct {P : State K O E ω R → Prop} (h : Runs dag cfg outs observer ctx s)
    (h0 : ∀ s0, Initial ctx cfg s0 → P s0)
    (hstep : ∀ s s', Runs dag cfg outs observer ctx s → P s → Move ctx s s' → P s') : P s :=
  h.induct_step (fun s0 hs => h0 s0 (parStart_start hs).2) fun _ s s' hs hp hst =>
    hstep s s' hs hp (hs.inv.move hs.good hst)

/-- The same with what the scheduler's step computed. -/
theorem Runs.induct_sched {P : State K O E ω R → Prop} (h : Runs dag cfg outs observer ctx s)
    (h0 : ∀ s0, parStart dag cfg outs observer = ok (ctx, s0) → P s0)
    (hsched : ∀ s s', Runs dag cfg outs observer ctx s → P s → s.schedule ctx = some s' → SchedMove ctx s s' → P s')
    (hwork : ∀ (s : State K O E ω R) w wk wk' new seen, Runs dag cfg outs observer ctx s → P s →
      s.workers[w]? = some wk → WorkerMove w wk wk' new seen →
      P { s with workers := s.workers.set w wk', results := s.results ++ new, log := s.log ++ seen }) : P s := by
  refine h.induct_step h0 fun a s s' hs hp hst => ?_
  cases a with
  | scheduler => exact hsched s s' hs hp hst (hs.inv.schedule_move hs.good hst)
  | worker w env =>
    obtain ⟨wk, wk', new, seen, hwk, hm, rfl⟩ := hs.inv.work_move hst
    exact hwork s w wk wk' new seen hs hp hwk hm

end DagExec
