import DagExec.Par.Panic
import DagExec.Par.Conservation
import Mathlib.Data.Set.Card

/-!
# Which graphs hang the caller

A configuration with one worker never hangs; with more, it depends on the graph. Take deterministic task functions of which
none fails. As long as fewer needed tasks panic than there are workers, a run can hang exactly if one panics at all
(`hangs_iff`): hold every panicking task back until nothing else can step (`Runs.exists_stalled`), and one worker is idle
then, because the tasks that are held back are with the others; now let them panic, and the idle worker keeps the result
channel open.
-/

namespace DagExec

variable {K O E ω R : Type} {ctx : Ctx K O E ω} {cfg : ExecutorConfig} {dag : Dag K O E ω} {outs : List K}
  {s s' : State K O E ω R}

/-- A needed task that panics on the reference values of its dependencies. -/
def Panicking (dag : Dag K O E ω) (outs : List K) (i : NodeId) : Prop :=
  dag.Needed outs i ∧ ∃ f args w, dag.IsTask i f ∧ RefArgs dag i args ∧ f w args = .panic

namespace Panicking

variable {i : NodeId}

/-- It panics whenever it is called. -/
theorem call (h : Panicking dag outs i) (hdet : dag.Deterministic) {f : TaskFn O E ω} {args : List O}
    (hf : dag.IsTask i f) (ha : RefArgs dag i args) (w : ω) : f w args = .panic := by
  obtain ⟨-, g, args', w', hg, ha', hp⟩ := h
  obtain ⟨nd, hnd, hk⟩ := hf
  have hkind := hg.get hnd
  rw [hk] at hkind
  cases hkind
  rw [RefArgs.unique hdet ha ha', hdet i f ⟨nd, hnd, hk⟩ w w' args', hp]

/-- It has no value. -/
theorem not_evaluates (h : Panicking dag outs i) (hdet : dag.Deterministic) (v : O) : ¬ Evaluates dag i v := by
  intro hv
  cases hv with
  | source hi hk =>
    obtain ⟨-, f, -, -, hf, -⟩ := h
    exact hf.not_source ⟨_, _, hi, hk⟩
  | @task _ _ f args w _ hi hk hlen hargs hok =>
    rw [h.call hdet ⟨_, hi, hk⟩ (refArgs_of_get hi hlen hargs) w] at hok
    cases hok

variable [ExecObserver R] {observer : R}

/-- It is never processed. -/
theorem not_done (h : Panicking dag outs i) (hdet : dag.Deterministic) (hrun : Runs dag cfg outs observer ctx s) :
    isDone s.vals i = false := by
  obtain ⟨dropped, hacct, -⟩ := hrun.inv.account
  by_contra hd
  obtain ⟨v, hv⟩ := isDone_iff.mp (by simpa using hd)
  exact h.not_evaluates hdet v (hrun.good.dag_eq ▸ hacct.books.value i v hv)

/-- So the scheduler does not leave its loops before a panic. -/
theorem looping (h : Panicking dag outs i) (hdet : dag.Deterministic)
    (hfail : ∀ i e, dag.Needed outs i → ¬ FailsWith dag i e) (hrun : Runs dag cfg outs observer ctx s)
    (hp : s.panics = false) : s.pc.looping = true := by
  have hg := hrun.good
  have hno : ∀ ret, s.pc.ret ≠ some ret := by
    intro ret hret
    have hundone := h.not_done hdet hrun
    obtain ⟨hn, f, args, -, -, ha, -⟩ := h
    cases hrun.ret_verdict hret with
    | ok hall =>
      rw [hrun.all_done hall i hn] at hundone
      cases hundone
    | cycle hb =>
      obtain rfl := hg.dag_eq
      rw [hb.done_of_refArgs hg.plan (fun _ => rfl) ha hn] at hundone
      cases hundone
    | failed => rcases hrun.ok_or_cycle hfail hp hret with ⟨_, he⟩ | ⟨_, he⟩ <;> cases he
    | died => rcases hrun.ok_or_cycle hfail hp hret with ⟨_, he⟩ | ⟨_, he⟩ <;> cases he
  cases hpc : s.pc with
  | close j r => exact absurd (by rw [hpc]; rfl) (hno r)
  | join j r => exact absurd (by rw [hpc]; rfl) (hno r)
  | returned r => exact absurd (by rw [hpc]; rfl) (hno r)
  | panicked p =>
    have hok := hrun.inv.pc
    rw [hpc] at hok
    exact hok.elim
  | _ => rfl

end Panicking

/-! ## Holding the panicking tasks back -/

/-- A worker that is idle, or in the middle of a panicking task. -/
def Worker.Parked (dag : Dag K O E ω) (outs : List K) (wk : Worker O E ω) : Prop :=
  (wk.status = .waiting ∧ wk.queue = []) ∨ ∃ task, wk.status = .running task ∧ Panicking dag outs task.id

/-- The scheduler waits for a result, and every worker is gone or parked, one of them idle. -/
structure State.Stalled (dag : Dag K O E ω) (outs : List K) (s : State K O E ω R) : Prop where
  pc : s.pc = .recv
  results : s.results = []
  workers : ∀ wk ∈ s.workers, wk.status.gone = true ∨ wk.Parked dag outs
  idle : ∃ wk ∈ s.workers, wk.status = .waiting

section

variable [ExecObserver R] {observer : R}

theorem Runs.running_ok (h : Runs dag cfg outs observer ctx s) {wk : Worker O E ω}
    (hwk : wk ∈ s.workers) {task : Task O E ω} (hst : wk.status = .running task) :
    dag.Needed outs task.id ∧ task.Ok dag := by
  have hg := h.good
  obtain rfl := hg.dag_eq
  exact h.inv.account.running_ok hg.plan hwk hst

/-- A scheduler that cannot go on in its loops waits for a result. -/
theorem schedule_blocked (hl : s.pc.looping = true) (h : s.schedule ctx = none) : s.pc = .recv ∧ s.results = [] := by
  cases hpc : s.pc with
  | recv =>
    refine ⟨rfl, ?_⟩
    cases hr : s.results with
    | nil => rfl
    | cons res results =>
      simp only [State.schedule, hpc, State.recv, hr] at h
      cases h
  | outer =>
    simp only [State.schedule, hpc] at h
    split at h <;> cases h
  | inner =>
    simp only [State.schedule, hpc] at h
    split at h <;> cases h
  | dispatch task left =>
    cases left <;> simp only [State.schedule, hpc] at h <;> cases h
  | check =>
    simp only [State.schedule, hpc] at h
    cases h
  | _ =>
    rw [hpc] at hl
    cases hl

/-- The step of a worker in the middle of a panicking task. -/
def Held (dag : Dag K O E ω) (outs : List K) (a : Action ω) (s : State K O E ω R) : Prop :=
  ∃ w env wk task, a = .worker w env ∧ s.workers[w]? = some wk ∧ wk.status = .running task ∧ Panicking dag outs task.id

/-- No other step is a panic. -/
theorem Runs.no_panic_free (h : Runs dag cfg outs observer ctx s) (hp : s.panics = false) {a : Action ω}
    (hfree : ¬ Held dag outs a s) (hs : step ctx a s = some s') : s'.panics = false := by
  cases a with
  | scheduler => exact (h.inv.schedule_move h.good hs).no_panic hp
  | worker w env =>
    obtain ⟨wk, wk', new, seen, hwk, hm, rfl⟩ := h.inv.work_move hs
    refine State.panics_set_false hp ?_
    cases hm with
    | @panic task env' hst hf =>
      obtain ⟨hn, ht, ha⟩ := h.running_ok (List.mem_of_getElem? hwk) hst
      exact absurd ⟨w, env, wk, task, rfl, hwk, hst, hn, task.func, task.args, env', ht, ha, hf⟩ hfree
    | _ => rfl

/-- When only panicking tasks are left to step, the scheduler waits and the workers are parked. -/
theorem Runs.parked [Inhabited ω] (h : Runs dag cfg outs observer ctx s) (hp : s.panics = false)
    (hl : s.pc.looping = true) (hstop : ∀ a : Action ω, ¬ Held dag outs a s → step ctx a s = none) :
    s.pc = .recv ∧ s.results = [] ∧ ∀ wk ∈ s.workers, wk.Parked dag outs := by
  obtain ⟨hpc, hr⟩ := schedule_blocked hl (hstop .scheduler nofun)
  refine ⟨hpc, hr, fun wk hwk => ?_⟩
  obtain ⟨w, hw⟩ := List.getElem?_of_mem hwk
  have hlive : wk.status.gone = false := by
    by_contra hgone
    rw [h.inv.pool.panics hl hwk (by simpa using hgone)] at hp
    cases hp
  have hheld : wk.queue ≠ [] ∨ (∃ task, wk.status = .running task) → Held dag outs (.worker w default) s := by
    intro hbusy
    by_contra hfree
    obtain ⟨t, ht⟩ := work_enabled hw hlive (hbusy.imp_right .inl) default
    rw [show s.work w default = none from hstop _ hfree] at ht
    cases ht
  have hrunning : (∃ task, wk.status = .running task ∧ Panicking dag outs task.id) ∨ wk.queue = [] ∧
      ∀ task, wk.status ≠ .running task := by
    by_cases hbusy : wk.queue ≠ [] ∨ ∃ task, wk.status = .running task
    · obtain ⟨_, _, wk', task, he, hw', hst, hpan⟩ := hheld hbusy
      cases he
      rw [hw] at hw'
      cases hw'
      exact .inl ⟨task, hst, hpan⟩
    · obtain ⟨hq, hno⟩ := not_or.mp hbusy
      exact .inr ⟨not_not.mp hq, fun task hst => hno ⟨task, hst⟩⟩
  rcases hrunning with hpan | ⟨hq, hno⟩
  · exact .inr hpan
  · cases hst : wk.status with
    | waiting => exact .inl ⟨hst, hq⟩
    | running task => exact absurd hst (hno task)
    | exited => rw [hst] at hlive; cases hlive
    | panicked lost => rw [hst] at hlive; cases hlive

omit [ExecObserver R] in
/-- The running tasks are different ones. -/
theorem Inv.running_nodup (h : Inv ctx cfg s) : s.running.Nodup := by
  obtain ⟨dropped, hacct, -⟩ := h.account
  refine List.nodup_iff_count_le_one.mpr fun i => ?_
  have hone := hacct.books.ledger.open_le_one i
  have hle := (s.queued_running_count i).1
  rw [List.count_append, State.count_open] at hone
  omega

/-- With fewer panicking tasks than workers, one of the parked workers is idle. -/
theorem Runs.idle (h : Runs dag cfg outs observer ctx s) (hparked : ∀ wk ∈ s.workers, wk.Parked dag outs)
    (hfew : { i | Panicking dag outs i }.ncard < cfg.maxWorkers) : ∃ wk ∈ s.workers, wk.status = .waiting := by
  by_contra hno
  have hrunning : ∀ wk ∈ s.workers, ∃ task, wk.status = .running task ∧ Panicking dag outs task.id := fun wk hwk =>
    (hparked wk hwk).resolve_left fun hidle => hno ⟨wk, hwk, hidle.1⟩
  have hlen : s.running.length = cfg.maxWorkers := by
    have hone : ∀ wk ∈ s.workers, (wk.status.active.map Task.id).length = 1 := fun wk hwk => by
      obtain ⟨task, hst, -⟩ := hrunning wk hwk
      rw [hst]
      rfl
    rw [State.running, List.length_flatMap, List.map_congr_left hone, List.map_const', List.sum_replicate_nat, Nat.mul_one]
    exact h.inv.pool.size
  have hsub : (s.running.toFinset : Set NodeId) ⊆ { i | Panicking dag outs i } := by
    intro i hi
    obtain ⟨wk, hwk, hmem⟩ := List.mem_flatMap.mp (List.mem_toFinset.mp hi)
    obtain ⟨task, hst, hpan⟩ := hrunning wk hwk
    rw [hst] at hmem
    exact List.mem_singleton.mp hmem ▸ hpan
  have hcard := Set.ncard_le_ncard hsub (Dag.needed_finite.subset fun i hi => hi.1)
  rw [Set.ncard_coe_finset, List.toFinset_card_of_nodup h.inv.running_nodup, hlen] at hcard
  omega

/-- **With the panicking tasks held back, every run stalls.** -/
theorem Runs.exists_stalled [Inhabited ω] (h : Runs dag cfg outs observer ctx s) (hp : s.panics = false)
    (hdet : dag.Deterministic) (hfail : ∀ i e, dag.Needed outs i → ¬ FailsWith dag i e) {i : NodeId}
    (hi : Panicking dag outs i) (hfew : { i | Panicking dag outs i }.ncard < cfg.maxWorkers) :
    ∃ t : State K O E ω R, Runs dag cfg outs observer ctx t ∧ t.Stalled dag outs := by
  obtain ⟨t, -, ⟨ht, hpt⟩, hstop⟩ := Machine.exists_held Rank.lt_wf
    (I := fun s => Runs dag cfg outs observer ctx s ∧ s.panics = false) (State.rank ctx.plan) (Held dag outs)
    (fun a t u hfree ht hs => ⟨ht.1.tail hs, ht.1.no_panic_free ht.2 hfree hs⟩)
    (fun a t u ht hs => rank_decreases ht.1 hs) s ⟨h, hp⟩
  obtain ⟨hpc, hr, hparked⟩ := ht.parked hpt (hi.looping hdet hfail ht hpt) hstop
  exact ⟨t, ht, hpc, hr, fun wk hwk => .inr (hparked wk hwk), ht.idle hparked hfew⟩

/-! ## Letting them panic -/

/-- From there on every step is a panic, and the idle worker stays. -/
theorem State.Stalled.preserved (hst : s.Stalled dag outs) (h : Runs dag cfg outs observer ctx s) (hdet : dag.Deterministic)
    {a : Action ω} (hs : step ctx a s = some s') : s'.Stalled dag outs := by
  obtain ⟨hpc, hr, hworkers, idle, hidle, hwaiting⟩ := hst
  cases h.inv.move h.good hs with
  | @work w wk wk' new seen hwk hm =>
    have hmem := List.mem_of_getElem? hwk
    have hparked := (hworkers wk hmem).resolve_left (by rw [hm.live]; nofun)
    cases hm with
    | take hst hq =>
      rcases hparked with ⟨-, hnil⟩ | ⟨task, hrun, -⟩
      · rw [hq] at hnil
        cases hnil
      · rw [hst] at hrun
        cases hrun
    | leave hst hq htx =>
      have hshut := h.inv.pool.shut
      rw [hpc] at hshut
      rw [hshut wk hmem] at htx
      cases htx
    | @finish task res env hst hid hf =>
      rcases hparked with ⟨hwait, -⟩ | ⟨task', hrun, hpan⟩
      · rw [hst] at hwait
        cases hwait
      · rw [hst] at hrun
        cases hrun
        obtain ⟨-, ht, ha⟩ := h.running_ok hmem hst
        rw [hpan.call hdet ht ha env, TaskResult.call] at hf
        split at hf <;> cases hf
    | @panic task env hst hf =>
      refine ⟨hpc, by rw [hr]; rfl, ListFacts.forall_mem_set hworkers (.inl rfl), idle, ?_, hwaiting⟩
      obtain ⟨j, hj⟩ := List.getElem?_of_mem hidle
      have hne : w ≠ j := by
        rintro rfl
        rw [hwk] at hj
        cases hj
        rw [hst] at hwaiting
        cases hwaiting
      exact List.mem_of_getElem? (by rw [List.getElem?_set_ne hne]; exact hj)
  | sched hm =>
    have hlive : idle.status.gone = false := by rw [hwaiting]; rfl
    cases hm with
    | goto n hgoto =>
      cases hgoto with
      | allGone _ _ hgone =>
        rw [hgone idle hidle] at hlive
        cases hlive
      | _ hpc' => rw [hpc] at hpc'; cases hpc'
    | complete _ hres => rw [hr] at hres; cases hres
    | fail _ hres => rw [hr] at hres; cases hres
    | _ hpc' => rw [hpc] at hpc'; cases hpc'

/-- **Which graphs hang the caller.** Let the task functions be deterministic, none fail, and fewer needed tasks panic than
there are workers. Then some run comes to a state in which the scheduler waits and nothing can step any more, exactly if
some needed task panics. -/
theorem hangs_iff [Inhabited ω] (hdet : dag.Deterministic) (hv : cfg.Valid) (hne : outs ≠ []) (hk : dag.KeysExist outs)
    (hfail : ∀ i e, dag.Needed outs i → ¬ FailsWith dag i e)
    (hfew : { i | Panicking dag outs i }.ncard < cfg.maxWorkers) (observer : R) :
    (∃ (ctx : Ctx K O E ω) (s : State K O E ω R), Runs dag cfg outs observer ctx s ∧ s.Hung ∧
      Machine.Final (step ctx) s) ↔ ∃ i, Panicking dag outs i := by
  constructor
  · rintro ⟨ctx, s, h, hhung, -⟩
    by_contra hno
    have hs : TasksReturn dag outs := fun i f args hi hf ha w hpan => hno ⟨i, hi, f, args, w, hf, ha, hpan⟩
    exact h.inv.not_hung (h.no_panic hs) hhung
  · rintro ⟨i, hi⟩
    obtain ⟨ctx, s0, h0, hinit⟩ := exists_initial hv hne hk observer
    obtain ⟨t, ht, hst⟩ := h0.exists_stalled hinit.panics hdet hfail hi hfew
    obtain ⟨u, hu, hr, hfinal⟩ := ht.exists_final
    have hstalled := (hr.invariant (I := fun s => Runs dag cfg outs observer ctx s ∧ s.Stalled dag outs) ⟨ht, hst⟩
      fun a v v' ⟨hv, hstv⟩ hs => ⟨hv.tail hs, hstv.preserved hv hdet hs⟩).2
    refine ⟨ctx, u, hu, (hu.inv.enabled_or_hung fun ret hret => ?_).resolve_left ?_, hfinal⟩
    · rw [hstalled.pc] at hret
      cases hret
    · rintro ⟨a, v, hv⟩
      rw [hfinal a] at hv
      cases hv

end

/-- Two workers, and one of two tasks panics: a run can hang. -/
theorem diamond_hangs : ∃ (ctx : Ctx Nat Nat Nat Unit) (s : State Nat Nat Nat Unit Unit),
    Runs (Dag.diamond .panic) ⟨2, 4, 2⟩ [3] () ctx s ∧ s.Hung ∧ Machine.Final (step ctx) s := by
  have hfirst : ∀ i, Panicking (Dag.diamond .panic) [3] i ↔ i = 1 := by
    intro i
    constructor
    · rintro ⟨-, f, args, w, hf, -, hp⟩
      rcases hf.diamond with ⟨hi, -⟩ | hok
      · exact hi
      · obtain ⟨v, hv⟩ := hok w args
        rw [hv] at hp
        cases hp
    · rintro rfl
      exact ⟨Dag.diamond_needed (by decide), _, [5], (), ⟨_, rfl, rfl⟩, .cons (.source rfl rfl) .nil, rfl⟩
  have hfew : { i | Panicking (Dag.diamond .panic) [3] i }.ncard < 2 := by
    have hone : { i | Panicking (Dag.diamond .panic) [3] i } = {1} := Set.ext hfirst
    rw [hone, Set.ncard_singleton]
    exact Nat.one_lt_two
  refine (hangs_iff Dag.diamond_deterministic ⟨by decide, by decide, by decide⟩ (by decide)
    (Dag.diamond_keysExist (by decide)) (fun i e _ => ?_) hfew ()).mpr ⟨1, (hfirst 1).mpr rfl⟩
  rintro ⟨-, f, args, w, hf, -, he⟩
  rcases hf.diamond with ⟨-, hc⟩ | hok
  · rw [hc w args] at he
    cases he
  · obtain ⟨v, hv⟩ := hok w args
    rw [hv] at he
    cases he

end DagExec
