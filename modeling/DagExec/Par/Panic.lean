import DagExec.Par.Returns
import DagExec.Spec.Small

/-!
# Panicking tasks

A panic is noticed only through a disconnected channel: the task channel of the dead worker, when something is
dispatched to it, or the result channel, when every worker is dead. So one worker is safe: its death disconnects both
channels. With two workers the survivors keep the result channel open; in the graph with a single, panicking task every
run ends with the scheduler blocked in `res_rx.recv()` for good (`solo_stuck`).
`never_hung_iff` puts both together.
-/

namespace DagExec

variable {K O E ω R : Type} {ctx : Ctx K O E ω} {cfg : ExecutorConfig} {dag : Dag K O E ω} {outs : List K}
  {s s' : State K O E ω R}

/-- A task went down with the worker, so not everything is processed. -/
theorem Inv.lost (h : Inv ctx cfg s) (hg : ctx.plan.Good outs) (hp : s.panics = true) :
    s.processed < ctx.plan.neededCount := by
  obtain ⟨wk, hwk, hpan⟩ := List.any_eq_true.mp hp
  obtain ⟨task, htask⟩ := List.exists_mem_of_ne_nil _ ((h.pool.worker wk hwk).lost hpan)
  exact h.account.processed_lt hg (State.away_sub_open (State.task_away (State.mem_tasks.mpr ⟨wk, hwk, htask⟩)))

variable [ExecObserver R] {observer : R}

/-- A panic is never undone. -/
theorem Runs.panics_reach (h : Runs dag cfg outs observer ctx s) (hr : Machine.Reach (step ctx) s s')
    (hp : s.panics = true) : s'.panics = true := by
  have hg := h.good
  refine (hr.invariant (I := fun s => Inv ctx cfg s ∧ s.panics = true) ⟨h.inv, hp⟩ fun a t u ⟨hinv, hp⟩ hs => ?_).2
  refine ⟨hinv.preserved hg hs, ?_⟩
  cases hinv.move hg hs with
  | work hwk hm => exact State.panics_set hwk (fun hpan => absurd (hm.not_panicked.symm.trans hpan) nofun) hp
  | sched hm =>
    cases hm with
    | sent hpc hwk => exact State.panics_set hwk id hp
    | closeTx hpc hwk => exact State.panics_set hwk id hp
    | _ => exact hp

/-! ## One worker -/

/-- **With one worker, a run with a panic proceeds to a return with an error.** -/
theorem one_worker_returns [Inhabited ω] (hW : cfg.maxWorkers = 1) (h : Runs dag cfg outs observer ctx s)
    (hp : s.panics = true) : ¬ s.Hung ∧ ∃ (t : State K O E ω R) (e : ExecError K E),
      Machine.Reach (step ctx) s t ∧ t.pc = .returned (.error e) := by
  have hdead : ∀ {t : State K O E ω R}, Runs dag cfg outs observer ctx t → t.panics = true → ¬ t.Hung := by
    rintro t ht hp ⟨-, -, -, wk, hwk, hlive⟩
    obtain ⟨wk', hwk', hpan⟩ := List.any_eq_true.mp hp
    obtain ⟨wk₀, hone⟩ := List.length_eq_one_iff.mp (ht.inv.pool.size.trans hW)
    rw [hone, List.mem_singleton] at hwk hwk'
    rw [hwk, ← hwk'] at hlive
    cases hs : wk'.status with
    | panicked lost => rw [hs] at hlive; cases hlive
    | _ => rw [hs] at hpan; cases hpan
  refine ⟨hdead h hp, ?_⟩
  obtain ⟨t, ht, hr, hfinal⟩ := h.exists_final
  have hpt := h.panics_reach hr hp
  have hret : ∃ ret, t.pc = .returned ret := by
    by_contra hno
    rcases ht.inv.enabled_or_hung fun ret hret => hno ⟨ret, hret⟩ with ⟨a, u, hu⟩ | hhung
    · rw [hfinal a] at hu
      cases hu
    · exact hdead ht hpt hhung
  obtain ⟨ret, hret⟩ := hret
  cases ret with
  | error e => exact ⟨t, e, hr, hret⟩
  | ok artifacts =>
    have hlost := ht.inv.lost ht.good.plan hpt
    generalize hv : (Except.ok artifacts : Ret K O E) = ret at hret
    cases ht.verdict hret with
    | ok hall => omega
    | _ => cases hv

/-! ## Two workers -/

section Solo

omit [ExecObserver R]

variable [DecidableEq K] {k : K} {f : TaskFn O E ω}

/-- A state of a run on the graph of one task: nothing is processed, and the task is in one place. -/
theorem solo_state (hf : ∀ w args v, f w args ≠ .ok v) (h : Inv ctx cfg s)
    (hg : ctx.Good (Dag.solo k (.task f)) cfg [k]) :
    s.processed < ctx.plan.neededCount ∧ s.held.length + s.tasks.length ≤ 1 ∧
      ¬ Books ctx.plan s.vals s.indeg fun _ => 0 := by
  obtain ⟨dropped, hacct, -⟩ := h.account
  have hdag := hg.dag_eq
  have hnone : ∀ i, isDone s.vals i = false := fun i => by
    by_contra hd
    obtain ⟨v, hv⟩ := isDone_iff.mp (by simpa using hd)
    have := hacct.books.value i v hv
    rw [hdag] at this
    exact solo_not_evaluates hf this
  refine ⟨?_, ?_, fun hb => ?_⟩
  · refine Nat.lt_of_le_of_ne (hacct.processed ▸ hacct.books.doneCount_le hg.plan) fun heq => ?_
    rw [hacct.processed, hacct.books.doneCount_eq_iff hg.plan, hdag] at heq
    have := heq 0 Dag.solo_needed
    rw [hnone 0] at this
    cases this
  · -- every held task and every task of a worker is on node `0`, which is open once
    have hzero : ∀ t ∈ s.held ++ s.tasks, t.id = 0 := fun t ht => by
      have hok : t.Ok ctx.plan.dag := (List.mem_append.mp ht).elim (hacct.held_ok t) (hacct.tasks_ok t)
      obtain ⟨⟨nd, hnd, -⟩, -⟩ := hok
      rw [hdag] at hnd
      exact Dag.solo_zero (List.getElem?_eq_some_iff.mp hnd).1
    have hids : (s.held ++ s.tasks).map Task.id = List.replicate (s.held ++ s.tasks).length 0 :=
      List.eq_replicate_iff.mpr ⟨List.length_map _, fun i hi => by
        obtain ⟨t, ht, rfl⟩ := List.mem_map.mp hi
        exact hzero t ht⟩
    have hcount := congrArg (List.count 0) hids
    have hone := hacct.books.ledger.open_le_one 0
    rw [List.map_append, List.count_append, List.count_replicate_self, List.length_append] at hcount
    rw [List.count_append, State.count_open] at hone
    omega
  · have ha : RefArgs ctx.plan.dag 0 [] := hdag ▸ .nil
    have hdone := hb.done_of_refArgs hg.plan (fun _ => rfl) ha (hdag ▸ Dag.solo_needed)
    rw [hnone 0] at hdone
    cases hdone

variable [ExecObserver R]

/-- With two workers or more and a task that panics whenever it is called, the scheduler never leaves its loops. -/
theorem solo_looping (hf : ∀ w args, f w args = .panic) (hW : 2 ≤ cfg.maxWorkers) {observer : R}
    (h : Runs (Dag.solo k (.task f)) cfg [k] observer ctx s) : s.pc.looping = true := by
  have hg := h.good
  have hnot : ∀ w args v, f w args ≠ .ok v := fun w args v => by rw [hf]; nofun
  refine h.induct (P := fun s => s.pc.looping = true) (fun s0 hi => by rw [hi.pc]; rfl) fun s s' hs hl hm => ?_
  have hinv := hs.inv
  obtain ⟨hlt, hone, hbusy⟩ := solo_state hnot hinv hg
  have htasks : ∀ wk ∈ s.workers, wk.status.gone = true → wk.tasks ≠ [] := fun wk hwk hgone =>
    (hinv.pool.worker wk hwk).lost (hinv.pool.panicked hl hwk hgone)
  cases hm with
  | work hwk hm => exact hl
  | sched hm =>
    cases hm with
    | goto n hgoto =>
      cases hgoto with
      | finish hpc hge => exact absurd hlt hge
      | cycle hpc h0 => exact absurd (hinv.account.idle hinv.pc hpc h0) hbusy
      | disconnected hpc hwk hgone =>
        -- the dead worker's task and the one being dispatched would be two
        obtain ⟨t, ht⟩ := List.exists_mem_of_ne_nil _ (htasks _ hwk hgone)
        have hpos := List.length_pos_of_mem (State.mem_tasks.mpr ⟨_, hwk, ht⟩)
        have hheld : 0 < s.held.length := by
          rw [State.held, hpc, List.length_append]
          exact Nat.lt_of_lt_of_le Nat.one_pos (Nat.le_add_left 1 _)
        omega
      | allGone hpc hr hgone =>
        -- so would be the tasks of two dead workers
        have := ListFacts.length_le_flatMap fun wk hwk => htasks wk hwk (hgone wk hwk)
        rw [hinv.pool.size] at this
        simp only [State.tasks] at hone
        omega
      | closed hpc => rw [hpc] at hl; cases hl
      | joined hpc => rw [hpc] at hl; cases hl
      | _ => rfl
    | @fail res _ e _ _ hpc hr hout =>
      obtain ⟨dropped, hacct, -⟩ := hinv.account
      obtain ⟨f', args, w, hf', -, hc⟩ := hacct.results_ok res (by rw [hr]; exact List.mem_cons_self)
      rw [hg.dag_eq] at hf'
      have hid := Dag.solo_zero hf'.lt
      have hnd : (Dag.solo k (.task f)).nodes[res.id]? = some ⟨k, [], .task f⟩ := by rw [hid]; rfl
      cases hf'.get hnd
      rw [hf, TaskResult.call, hout] at hc
      cases hc
    | closeTx hpc => rw [hpc] at hl; cases hl
    | leave hpc => rw [hpc] at hl; cases hl
    | _ => rfl

/-- **With two workers or more, a panicking task hangs the caller**: a state is reached in which the scheduler is
blocked, and it never returns. -/
theorem solo_stuck [Inhabited ω] (hf : ∀ w args, f w args = .panic) (hv : cfg.Valid) (hW : 2 ≤ cfg.maxWorkers)
    (observer : R) : ∃ (ctx : Ctx K O E ω) (s : State K O E ω R), Runs (Dag.solo k (.task f)) cfg [k] observer ctx s ∧
      s.panics = true ∧ s.Hung ∧ ∀ t, Machine.Reach (step ctx) s t → ∀ r, t.pc ≠ .returned r := by
  obtain ⟨ctx, s0, h0, -⟩ := exists_initial hv (List.cons_ne_nil k []) Dag.solo_keysExist observer
  obtain ⟨t, ht, -, hfinal⟩ := h0.exists_final
  have hreturned : ∀ {u : State K O E ω R}, Runs (Dag.solo k (.task f)) cfg [k] observer ctx u →
      ∀ r, u.pc ≠ .returned r := by
    intro u hu r hr
    have hl := solo_looping hf hW hu
    rw [hr] at hl
    cases hl
  have hhung : t.Hung := by
    refine (ht.inv.enabled_or_hung (hreturned ht)).resolve_left ?_
    rintro ⟨a, u, hu⟩
    rw [hfinal a] at hu
    cases hu
  refine ⟨ctx, t, ht, ?_, hhung, fun u hu => ?_⟩
  · by_contra hp
    obtain ⟨a, u, hu⟩ := ht.inv.enabled (by simpa using hp) (hreturned ht)
    rw [hfinal a] at hu
    cases hu
  · exact hreturned (ht.trans hu)

end Solo

/-! ## When a panic never hangs the caller -/

omit [ExecObserver R] in
/-- **A panicking task never hangs the caller exactly with one worker.** Then no state of any run with a panic is hung
and every such run can proceed to a return with an error. -/
theorem never_hung_iff [Inhabited K] [DecidableEq K] [Inhabited ω] (cfg : ExecutorConfig) (hv : cfg.Valid) :
    (∀ (dag : Dag K O E ω) (outs : List K) (ctx : Ctx K O E ω) (s : State K O E ω Unit), Runs dag cfg outs () ctx s →
      s.panics = true → ¬ s.Hung ∧ ∃ (t : State K O E ω Unit) (e : ExecError K E),
        Machine.Reach (step ctx) s t ∧ t.pc = .returned (.error e)) ↔ cfg.maxWorkers = 1 := by
  constructor
  · intro h
    by_contra hne
    have hW : 2 ≤ cfg.maxWorkers := by
      have := hv.workers
      omega
    obtain ⟨ctx, s, hrun, hp, hhung, -⟩ := solo_stuck (k := (default : K))
      (f := fun (_ : ω) (_ : List O) => (Call.panic : Call O E)) (fun _ _ => rfl) hv hW ()
    exact (h _ _ ctx s hrun hp).1 hhung
  · exact fun hW dag outs ctx s h hp => one_worker_returns hW h hp

/-- One worker: the first task panics while the second is queued behind it, and the call returns with an error. -/
theorem never_hung_diamond : ∃ (ctx : Ctx Nat Nat Nat Unit) (s : State Nat Nat Nat Unit Unit),
    Runs (Dag.diamond .panic) ⟨1, 4, 2⟩ [3] () ctx s ∧ s.panics = true ∧ ¬ s.Hung ∧
      ∃ (t : State Nat Nat Nat Unit Unit) (e : ExecError Nat Nat),
        Machine.Reach (step ctx) s t ∧ t.pc = .returned (.error e) := by
  have hv : (⟨1, 4, 2⟩ : ExecutorConfig).Valid := ⟨by decide, by decide, by decide⟩
  obtain ⟨s, hrun, hp⟩ : ∃ s,
      Runs (Dag.diamond .panic) ⟨1, 4, 2⟩ [3] () ((Dag.diamondPrepared .panic ()).ctx ⟨1, 4, 2⟩) s ∧ s.panics = true :=
    exists_played hv (List.cons_ne_nil 3 []) (Dag.prepare_diamond .panic ())
      (List.replicate 8 .scheduler ++ List.replicate 2 (.worker 0 ())) _ rfl
  exact ⟨_, s, hrun, hp, (never_hung_iff ⟨1, 4, 2⟩ hv).mpr rfl _ _ _ s hrun hp⟩

/-- Two workers, one task, which panics: the scheduler waits forever. -/
theorem panicking_task_hangs : ∃ (ctx : Ctx Nat Nat Nat Unit) (s : State Nat Nat Nat Unit Unit),
    Runs (Dag.solo 0 (.task fun _ _ => .panic)) ⟨2, 2, 1⟩ [0] () ctx s ∧ s.panics = true ∧ s.Hung ∧
      ∀ t, Machine.Reach (step ctx) s t → ∀ r, t.pc ≠ .returned r :=
  solo_stuck (fun _ _ => rfl) ⟨by decide, by decide, by decide⟩ (by decide) ()

end DagExec
