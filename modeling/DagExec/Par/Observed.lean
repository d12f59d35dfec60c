import DagExec.Seq.Observed
import DagExec.Par.Start

/-!
# The observer of a parallel run

The scheduler never reads its observer, so leaving the observer out commutes with every step (`step_unobserved`). Hence
the runs without an observer are exactly the runs with one, seen without it (`runs_unobserved_iff`).
-/

namespace DagExec

open Outcome

variable {K O E ω R : Type} {dag : Dag K O E ω} {cfg : ExecutorConfig} {outs : List K} {ctx : Ctx K O E ω}

/-! ## Leaving the observer out -/

def State.unobserved (s : State K O E ω R) : State K O E ω Unit := { s with observer := () }

/-- Leaving the function commutes with it, when the computation does. -/
theorem orLeave_unobserved {α β : Type} (s : State K O E ω R) {f : α → β} {o : Outcome (ExecError K E) α}
    {o' : Outcome (ExecError K E) β} (ho : o' = f <$> o) {go : α → State K O E ω R} {go' : β → State K O E ω Unit}
    (hgo : ∀ a, go' (f a) = (go a).unobserved) : s.unobserved.orLeave o' go' = (s.orLeave o go).unobserved := by
  subst ho
  cases o with
  | ok a => exact hgo a
  | _ => rfl

/-- The same when the computation does not read the observer. -/
theorem orLeave_unobserved_same {α : Type} (s : State K O E ω R) (o : Outcome (ExecError K E) α)
    {go : α → State K O E ω R} {go' : α → State K O E ω Unit} (hgo : ∀ a, go' a = (go a).unobserved) :
    s.unobserved.orLeave o go' = (s.orLeave o go).unobserved :=
  orLeave_unobserved s (f := id) (id_map o).symm hgo

section

variable [ExecObserver R]

theorem releaseBody_unobserved {ε : Type} (acc : List Nat × List NodeId × R) (dst : NodeId) :
    (releaseBody (acc.1, acc.2.1, ()) dst : Outcome ε _) = (fun acc => (acc.1, acc.2.1, ())) <$> releaseBody acc dst := by
  have h := release_unobserved (ε := ε) [dst] acc
  simpa only [List.foldlM_cons, List.foldlM_nil, bind_pure] using h

theorem releaseDependents_unobserved {ε : Type} (dependents : List (List NodeId)) (indeg : List Nat)
    (ready : List NodeId) (src : NodeId) (observer : R) :
    (releaseDependents dependents indeg ready src () : Outcome ε _) =
      (fun acc => (acc.1, acc.2.1, ())) <$> releaseDependents dependents indeg ready src observer := by
  unfold releaseDependents
  rw [map_bind]
  refine bind_congr fun dsts => ?_
  refine foldlM_seen (f := fun acc : List Nat × List NodeId × R => (acc.1, acc.2.1, ())) (fun acc dst => ?_) dsts
    (indeg, ready, observer)
  simp only [map_bind, releaseBody_unobserved]

omit [ExecObserver R] in
theorem enterDispatch_unobserved (s : State K O E ω R) (task : Task O E ω) :
    s.unobserved.enterDispatch task = (s.enterDispatch task).unobserved :=
  orLeave_unobserved_same s _ fun _ => rfl

theorem runSource_unobserved (plan : Plan K O E ω) (s : State K O E ω R) (id : NodeId) (v : O) :
    s.unobserved.runSource plan id v = (s.runSource plan id v).unobserved := by
  refine orLeave_unobserved s (f := fun a => (a.1, a.2.1, a.2.2.1, ())) ?_ fun _ => rfl
  rw [map_bind]
  refine bind_congr fun vals => ?_
  show (releaseDependents plan.dependents s.indeg s.ready id () >>= _ : Outcome (ExecError K E) _) = _
  rw [map_bind, releaseDependents_unobserved plan.dependents s.indeg s.ready id
    (ExecObserver.markFinish id (ExecObserver.markStart id none s.observer)), bind_map_left]
  exact bind_congr fun rel => rfl

theorem pickNext_unobserved (plan : Plan K O E ω) (s : State K O E ω R) :
    s.unobserved.pickNext plan = (s.pickNext plan).unobserved := by
  cases hp : s.pending with
  | some task =>
    rw [pickNext_retry hp, pickNext_retry (s := s.unobserved) hp]
    exact enterDispatch_unobserved { s with pending := none } task
  | none =>
    cases hr : s.ready with
    | nil =>
      rw [pickNext_drained hp hr, pickNext_drained (s := s.unobserved) hp hr]
      rfl
    | cons id ready =>
      rw [pickNext_node hp hr, pickNext_node (s := s.unobserved) hp hr]
      refine orLeave_unobserved_same { s with ready := ready } _ fun nd => ?_
      cases nd.kind with
      | source v => exact runSource_unobserved plan { s with ready := ready } id v
      | task f =>
        exact orLeave_unobserved_same { s with ready := ready } _ fun args =>
          enterDispatch_unobserved { s with ready := ready } ⟨id, f, args⟩

theorem attempt_unobserved (s : State K O E ω R) (task : Task O E ω) (left : Nat) :
    s.unobserved.attempt ctx task left = (s.attempt ctx task left).unobserved := by
  refine orLeave_unobserved_same { s with nextWorker := s.nextWorker % s.workers.length + 1 } _ fun wk => ?_
  cases wk.trySend ctx.queueCap task <;> rfl

omit [ExecObserver R] in
theorem checkCycle_unobserved (plan : Plan K O E ω) (s : State K O E ω R) :
    s.unobserved.checkCycle plan = (s.checkCycle plan).unobserved := by
  by_cases h0 : s.inFlight = 0
  · rw [State.checkCycle, State.checkCycle, if_pos h0, if_pos (show s.unobserved.inFlight = 0 from h0)]
    exact orLeave_unobserved_same s _ fun _ => rfl
  · rw [State.checkCycle, State.checkCycle, if_neg h0, if_neg (show ¬ s.unobserved.inFlight = 0 from h0)]
    rfl

theorem complete_unobserved (plan : Plan K O E ω) (s : State K O E ω R) (id : NodeId) (v : O) :
    s.unobserved.complete plan id v = (s.complete plan id v).unobserved := by
  refine orLeave_unobserved s (f := fun a => (a.1, a.2.1, a.2.2.1, ())) ?_ fun _ => rfl
  simp only [map_bind]
  refine bind_congr fun slot => bind_congr fun _ => bind_congr fun vals => ?_
  show (releaseDependents plan.dependents s.indeg s.ready id () >>= _ : Outcome (ExecError K E) _) = _
  rw [releaseDependents_unobserved plan.dependents s.indeg s.ready id s.observer, bind_map_left]
  exact bind_congr fun rel => rfl

theorem receive_unobserved (plan : Plan K O E ω) (s : State K O E ω R) (res : TaskResult O E) :
    s.unobserved.receive plan res = (s.receive plan res).unobserved := by
  refine orLeave_unobserved_same s _ fun inFlight => ?_
  cases res.out with
  | ok v => exact complete_unobserved plan { s with
      inFlight := inFlight, observer := ExecObserver.markFinish res.id s.observer,
      log := s.log ++ [Event.received res] } res.id v
  | error e => exact orLeave_unobserved_same { s with
      inFlight := inFlight, observer := ExecObserver.markFinish res.id s.observer,
      log := s.log ++ [Event.received res] } _ fun _ => rfl

theorem schedule_unobserved (s : State K O E ω R) :
    s.unobserved.schedule ctx = (s.schedule ctx).map State.unobserved := by
  unfold State.schedule
  rw [show s.unobserved.pc = s.pc from rfl]
  cases s.pc with
  | outer =>
    simp only
    by_cases h : s.processed < ctx.plan.neededCount
    · rw [if_pos h, if_pos (show s.unobserved.processed < _ from h)]
      rfl
    · rw [if_neg h, if_neg (show ¬ s.unobserved.processed < _ from h)]
      rfl
  | inner =>
    simp only
    by_cases h : s.inFlight < ctx.effectiveCap
    · rw [if_pos h, if_pos (show s.unobserved.inFlight < _ from h), pickNext_unobserved]
      rfl
    · rw [if_neg h, if_neg (show ¬ s.unobserved.inFlight < _ from h)]
      rfl
  | dispatch task left =>
    cases left with
    | zero => rfl
    | succ left =>
      simp only [attempt_unobserved]
      rfl
  | check =>
    simp only [checkCycle_unobserved]
    rfl
  | recv =>
    simp only [State.recv, show s.unobserved.results = s.results from rfl,
      show s.unobserved.workers = s.workers from rfl]
    cases s.results with
    | cons res results =>
      exact congrArg some (receive_unobserved ctx.plan { s with results := results } res)
    | nil =>
      simp only
      split <;> rfl
  | close i r =>
    simp only [State.closeTx, show s.unobserved.workers = s.workers from rfl]
    cases s.workers[i]? <;> rfl
  | join i r =>
    simp only [State.joinWorker, show s.unobserved.workers = s.workers from rfl]
    cases s.workers[i]? with
    | none => rfl
    | some wk =>
      simp only
      split <;> rfl
  | _ => rfl

end

theorem send_unobserved (s : State K O E ω R) (w : Nat) (wk : Worker O E ω) (res : TaskResult O E) :
    s.unobserved.send w wk res = (s.send w wk res).unobserved := by
  unfold State.send
  rw [show s.unobserved.resRx = s.resRx from rfl]
  split <;> rfl

theorem work_unobserved (s : State K O E ω R) (w : Nat) (env : ω) :
    s.unobserved.work w env = (s.work w env).map State.unobserved := by
  unfold State.work
  rw [show s.unobserved.workers = s.workers from rfl]
  cases s.workers[w]? with
  | none => rfl
  | some wk =>
    simp only
    cases wk.status with
    | waiting =>
      simp only
      cases wk.queue with
      | cons task queue => rfl
      | nil =>
        simp only
        split <;> rfl
    | running task =>
      simp only
      cases task.func env task.args with
      | ok v => exact congrArg some (send_unobserved s w wk ⟨task.id, .ok v⟩)
      | err e => exact congrArg some (send_unobserved s w wk ⟨task.id, .error e⟩)
      | panic => rfl
    | _ => rfl

variable [ExecObserver R]

/-- **Leaving the observer out commutes with every step.** -/
theorem step_unobserved (a : Action ω) (s : State K O E ω R) :
    step ctx a s.unobserved = (step ctx a s).map State.unobserved := by
  cases a with
  | scheduler => exact schedule_unobserved s
  | worker w env => exact work_unobserved s w env

/-! ## Runs -/

theorem parStart_unobserved (dag : Dag K O E ω) (cfg : ExecutorConfig) (outs : List K) (observer : R) :
    parStart dag cfg outs () = (fun p => (p.1, p.2.unobserved)) <$> parStart dag cfg outs observer := by
  have hseq := seqStart_unobserved dag outs observer
  unfold seqStart at hseq
  unfold parStart
  by_cases hne : outs.isEmpty
  · rw [if_pos hne, if_pos hne]
    rfl
  rw [if_neg hne, if_neg hne] at hseq ⊢
  -- the remaining checks do not involve the observer
  split
  · rfl
  split
  · rfl
  split
  · rfl
  rw [hseq, bind_map_left, map_bind]
  exact bind_congr fun p => rfl

/-- **The runs without an observer are the runs with one, seen without it.** -/
theorem runs_unobserved_iff (observer : R) {t : State K O E ω Unit} :
    Runs dag cfg outs () ctx t ↔ ∃ s, Runs dag cfg outs observer ctx s ∧ s.unobserved = t := by
  constructor
  · rintro ⟨t0, h0, hr⟩
    rw [parStart_unobserved dag cfg outs observer] at h0
    cases hs : parStart dag cfg outs observer with
    | ok p =>
      rw [hs] at h0
      cases h0
      obtain ⟨s, hs', rfl⟩ := hr.lift step_unobserved
      exact ⟨s, ⟨p.2, hs, hs'⟩, rfl⟩
    | _ => rw [hs] at h0; cases h0
  · rintro ⟨s, ⟨s0, h0, hr⟩, rfl⟩
    refine ⟨s0.unobserved, ?_, hr.map step_unobserved⟩
    rw [parStart_unobserved dag cfg outs observer, h0]
    rfl

end DagExec
