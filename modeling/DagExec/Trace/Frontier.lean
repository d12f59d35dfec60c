import DagExec.Lib.HighWater
import DagExec.Trace.Runs

/-!
# The frontier width

The scheduler tells the observer of each node it pushes, with the length of the ready queue then. Between two pushes the
queue only shrinks, so the mark the trace reports is the greatest length the queue has had (`frontier_width_exact`).
-/

namespace DagExec

open Outcome WhileLoop HighWater

variable {K O E ω : Type} {dag : Dag K O E ω} {outs : List K} {clock : Nat → Nat}

/-- What a call raises the width to. -/
theorem maxFrontierWidth_markStart (id : NodeId) (worker : Option Nat) (r : TraceObserver) :
    (ExecObserver.markStart id worker r).maxFrontierWidth = r.maxFrontierWidth := by
  show (r.markStart id worker).maxFrontierWidth = _
  have hstarted : ∀ r' : TraceObserver, r'.maxFrontierWidth = r.maxFrontierWidth →
      (if vacant r'.workerId id then { r' with workerId := r'.workerId.set id worker } else r').maxFrontierWidth =
        r.maxFrontierWidth := by
    intro r' hr
    split
    · exact hr
    · exact hr
  exact hstarted _ (by split <;> rfl)

theorem maxFrontierWidth_markFinish (id : NodeId) (r : TraceObserver) :
    (ExecObserver.markFinish id r).maxFrontierWidth = r.maxFrontierWidth := by
  show (r.markFinish id).maxFrontierWidth = _
  unfold TraceObserver.markFinish
  split <;> rfl

theorem maxFrontierWidth_markReady (id : NodeId) (width : Nat) (r : TraceObserver) :
    (ExecObserver.markReady id width r).maxFrontierWidth = max r.maxFrontierWidth width := by
  show (r.markReady id width).maxFrontierWidth = _
  unfold TraceObserver.markReady
  split <;> rfl

/-- Pushing nodes raises it to the length of the queue, if it was not below that before. -/
theorem maxFrontierWidth_readyHooks (ids : List NodeId) : ∀ (n : Nat) (r : TraceObserver), n ≤ r.maxFrontierWidth →
    (replay (readyHooks n ids) r).maxFrontierWidth = max r.maxFrontierWidth (n + ids.length) := by
  induction ids with
  | nil => exact fun n r hn => (Nat.max_eq_left hn).symm
  | cons id ids ih =>
    intro n r hn
    have hmark := maxFrontierWidth_markReady id (n + 1) r
    show (replay (readyHooks (n + 1) ids) (ExecObserver.markReady id (n + 1) r)).maxFrontierWidth = _
    rw [ih (n + 1) _ (by omega), hmark, List.length_cons]
    omega

theorem finishTraced_width [DecidableEq K] {r : TraceObserver} {artifacts : List (Option O) × List Bool}
    {t : TracedExecution K O} (h : (finishTraced dag outs r artifacts : Outcome (ExecError K E) _) = ok t) :
    t.trace.maxFrontierWidth = r.maxFrontierWidth := by
  obtain ⟨outputs, -, h⟩ := bind_eq_ok.mp h
  obtain ⟨trace, htrace, h⟩ := bind_eq_ok.mp h
  obtain ⟨acc, -, hacc⟩ := bind_eq_ok.mp htrace
  cases h
  cases hacc
  rfl

/-! ## Sequential runs -/

section

variable {env : Nat → ω} {plan : Plan K O E ω} {s s' : SeqState O TraceObserver}

/-- One iteration of the sequential loop. -/
theorem SeqReach.width_step {observer : TraceObserver} (h : SeqReach dag outs env observer plan s)
    (hb : seqBody plan env s = .next s') (hle : s.q.length ≤ s.observer.maxFrontierWidth) :
    s'.observer.maxFrontierWidth = max s.observer.maxFrontierWidth s'.q.length := by
  obtain ⟨-, hg, inv⟩ := h.inv
  obtain ⟨id, q, v, new, dsts, hp⟩ := seqBody_next hb
  obtain ⟨rel, hq, hobs, -⟩ := hp.released inv hg
  rw [hp.queue, List.length_cons] at hle
  rw [hobs, maxFrontierWidth_readyHooks, maxFrontierWidth_markFinish, maxFrontierWidth_markStart, hq, List.length_append]
  rw [maxFrontierWidth_markFinish, maxFrontierWidth_markStart]
  exact Nat.le_of_succ_le hle

/-- The mark is the greatest length the queue has had. -/
theorem SeqReach.width (h : SeqReach dag outs env (TraceObserver.new clock dag.nodes.length) plan s) :
    IsGreatest { w | ∃ t, SeqReach dag outs env (TraceObserver.new clock dag.nodes.length) plan t ∧
      Visits (seqBody plan env) t s ∧ t.q.length = w } s.observer.maxFrontierWidth := by
  obtain ⟨p, hp, rfl, hv⟩ := h
  obtain ⟨-, -, -, -, hready, hobs, -⟩ := seqStart_start hp
  have h0 : p.seqState.observer.maxFrontierWidth = p.seqState.q.length := by
    show p.observer.maxFrontierWidth = p.ready.length
    rw [hobs, maxFrontierWidth_readyHooks _ _ _ (Nat.zero_le _), hready]
    simp [TraceObserver.new]
  obtain ⟨hattained, hbound⟩ := isGreatest_mark (fun s => s.q.length)
    (fun s : SeqState O TraceObserver => s.observer.maxFrontierWidth) h0
    (fun t t' ht hb hle => SeqReach.width_step ⟨p, hp, rfl, Visits.iff_reflTransGen.mpr ht⟩ hb hle)
    (Visits.iff_reflTransGen.mp hv)
  constructor
  · obtain ⟨t, ht, hts, hlen⟩ := hattained
    exact ⟨t, ⟨p, hp, rfl, Visits.iff_reflTransGen.mpr ht⟩, Visits.iff_reflTransGen.mpr hts, hlen⟩
  · rintro w ⟨t, ⟨p', hp', -, ht⟩, hts, rfl⟩
    rw [hp] at hp'
    cases hp'
    exact hbound ⟨t, Visits.iff_reflTransGen.mp ht, Visits.iff_reflTransGen.mp hts, rfl⟩

end

/-! ## Parallel runs -/

section

variable {ctx : Ctx K O E ω} {cfg : ExecutorConfig} {s s' : State K O E ω TraceObserver} {observer : TraceObserver}

/-- One step of a parallel run. -/
theorem Runs.width_step (h : Runs dag cfg outs observer ctx s) {a : Action ω} (hs : step ctx a s = some s')
    (hle : s.ready.length ≤ s.observer.maxFrontierWidth) :
    s'.observer.maxFrontierWidth = max s.observer.maxFrontierWidth s'.ready.length := by
  have hg := h.good
  have hinv := h.inv
  cases a with
  | worker w env =>
    obtain ⟨wk, wk', new, seen, hwk, hm, rfl⟩ := hinv.work_move hs
    exact (Nat.max_eq_left hle).symm
  | scheduler =>
    cases hinv.schedule_move hg hs with
    | pick hpc hcap hp hr =>
      rw [hr, List.length_cons] at hle
      exact (Nat.max_eq_left (Nat.le_of_succ_le hle)).symm
    | @source id v ready rel indeg observer hpc hcap hp hr hsrc =>
      have hobs := released_of_ok (hinv.source_release hg hpc hcap hp hr hsrc hs)
      have hmark := maxFrontierWidth_markFinish id (ExecObserver.markStart id none s.observer)
      rw [maxFrontierWidth_markStart] at hmark
      rw [hr, List.length_cons] at hle
      rw [hobs, maxFrontierWidth_readyHooks _ _ _ (by omega), hmark, List.length_append]
    | @sent task left idx n wk observer hpc hwk hlive hroom =>
      have hW : 0 < s.workers.length := hinv.pool.size.symm ▸ hg.valid.workers
      have hobs : observer = _ := sent_observer hW hpc hs rfl
      rw [hobs, maxFrontierWidth_markStart]
      exact (Nat.max_eq_left hle).symm
    | @complete res results v rel indeg observer hpc hr hout =>
      have hobs := released_of_ok (hinv.complete_release hg hpc hr hout hs)
      have hmark := maxFrontierWidth_markFinish res.id s.observer
      rw [hobs, maxFrontierWidth_readyHooks _ _ _ (by omega), hmark, List.length_append]
    | @fail res results e nd observer hpc hr hout hnd =>
      have hobs : observer = _ := hinv.fail_observer hpc hr hout hs
      rw [hobs, maxFrontierWidth_markFinish]
      exact (Nat.max_eq_left hle).symm
    | _ => exact (Nat.max_eq_left hle).symm

/-- The mark is the greatest length the ready queue has had. -/
theorem Runs.width (h : Runs dag cfg outs (TraceObserver.new clock dag.nodes.length) ctx s) :
    IsGreatest { w | ∃ t, Runs dag cfg outs (TraceObserver.new clock dag.nodes.length) ctx t ∧
      Machine.Reach (step ctx) t s ∧ t.ready.length = w } s.observer.maxFrontierWidth := by
  obtain ⟨s0, hs, hr⟩ := h
  obtain ⟨p, hp, -, -, -, hready, hobs, -⟩ := parStart_prepared hs
  have h0 : s0.observer.maxFrontierWidth = s0.ready.length := by
    rw [← hobs, prepare_hooks hp, maxFrontierWidth_readyHooks _ _ _ (Nat.zero_le _), hready]
    simp [TraceObserver.new]
  obtain ⟨hattained, hbound⟩ := isGreatest_mark (fun s => s.ready.length)
    (fun s : State K O E ω TraceObserver => s.observer.maxFrontierWidth) h0
    (fun t t' ht ⟨a, ha⟩ hle => Runs.width_step ⟨s0, hs, Machine.Reach.iff_reflTransGen.mpr ht⟩ ha hle)
    (Machine.Reach.iff_reflTransGen.mp hr)
  constructor
  · obtain ⟨t, ht, hts, hlen⟩ := hattained
    exact ⟨t, ⟨s0, hs, Machine.Reach.iff_reflTransGen.mpr ht⟩, Machine.Reach.iff_reflTransGen.mpr hts, hlen⟩
  · rintro w ⟨t, ⟨s0', hs', ht⟩, hts, rfl⟩
    rw [hs] at hs'
    cases hs'
    exact hbound ⟨t, Machine.Reach.iff_reflTransGen.mp ht, Machine.Reach.iff_reflTransGen.mp hts, rfl⟩

end

/-- **The reported frontier width is the greatest length the ready queue has had.** In every state of every traced run of
either executor the mark is the greatest length of the ready queue over the states on the way, and it is the mark of the
last state that a successful run reports. -/
theorem frontier_width_exact [DecidableEq K] (dag : Dag K O E ω) (outs : List K) (clock : Nat → Nat) :
    (∀ env t, runSequentialTraced dag outs env clock = ok t →
      ∃ plan s, SeqReach dag outs env (TraceObserver.new clock dag.nodes.length) plan s ∧ s.q = [] ∧
        IsGreatest { w | ∃ t, SeqReach dag outs env (TraceObserver.new clock dag.nodes.length) plan t ∧
          Visits (seqBody plan env) t s ∧ t.q.length = w } t.trace.maxFrontierWidth) ∧
    ∀ cfg t log, RunParallelTraced dag cfg outs clock (ok t) log →
      ∃ ctx s a, Runs dag cfg outs (TraceObserver.new clock dag.nodes.length) ctx s ∧ s.pc = .returned (.ok a) ∧
        s.log = log ∧ IsGreatest { w | ∃ t, Runs dag cfg outs (TraceObserver.new clock dag.nodes.length) ctx t ∧
          Machine.Reach (step ctx) t s ∧ t.ready.length = w } t.trace.maxFrontierWidth := by
  refine ⟨fun env t h => ?_, fun cfg t log h => ?_⟩
  · obtain ⟨artifacts, hres, hfin⟩ := bind_eq_ok.mp h
    obtain ⟨plan, s, hreach, rfl, hobs, -, hall⟩ := execute_ok hres
    refine ⟨plan, s, hreach, ?_, ?_⟩
    · -- nothing queued is processed, and everything needed is
      obtain ⟨rfl, hg, inv⟩ := hreach.inv
      refine List.eq_nil_iff_forall_not_mem.mpr fun i hi => ?_
      have hnot := inv.not_done hi
      rw [hall i (inv.needed_of_queued hg hi)] at hnot
      cases hnot
    · rw [finishTraced_width hfin, hobs]
      exact hreach.width
  · generalize hr : (ok t : Outcome (ExecError K E) _) = res at h
    cases h with
    | rejected => cases hr
    | failed => cases hr
    | completed hrun hpc =>
      refine ⟨_, _, _, hrun, hpc, rfl, ?_⟩
      rw [finishTraced_width hr.symm]
      exact hrun.width

end DagExec
