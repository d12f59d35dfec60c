import DagExec.Seq.Observed
import DagExec.Par.Hooks
import DagExec.Par.Shutdown

/-!
# Tasks start in the order they became ready

An observer that keeps the calls it gets has the ready nodes in the order they were pushed (`enqueued`) and the started
ones in the order they were started (`popped`). Full queues delay a dispatch and never reorder it: the nodes started, the
one the scheduler holds and the ready queue are what has been pushed, in order (`InOrder`, `starts_in_order`).
-/

namespace DagExec

open Outcome

variable {K O E ω : Type} {ctx : Ctx K O E ω} {cfg : ExecutorConfig} {dag : Dag K O E ω} {outs : List K}
  {s s' : State K O E ω (List Hook)}

/-- A start on a worker. -/
def Hook.sent : Hook → Option (Nat × NodeId)
  | .start id (some w) => some (w, id)
  | _ => none

/-- A dispatch. -/
def Event.sent : Event O E → Option (Nat × NodeId)
  | .dispatched w id => some (w, id)
  | _ => none

theorem enqueued_notes (hooks : List Hook) : enqueued hooks = (hooks.map Hook.note).filterMap Lifecycle.readied := by
  rw [List.filterMap_map]
  refine List.filterMap_congr fun h _ => ?_
  cases h <;> rfl

theorem sent_readyHooks (n : Nat) (ids : List NodeId) : (readyHooks n ids).filterMap Hook.sent = [] := by
  refine List.filterMap_eq_nil_iff.mpr fun h hh => ?_
  obtain ⟨id, width, rfl⟩ := ready_of_mem hh
  rfl

theorem WorkerMove.not_sent {w : Nat} {wk wk' : Worker O E ω} {new : List (TaskResult O E)} {seen : List (Event O E)}
    (h : WorkerMove w wk wk' new seen) : seen.filterMap Event.sent = [] := by
  cases h <;> rfl

/-- What has been pushed: what has started, then `rest`, which is with the scheduler while it loops. -/
structure InOrderAt (s : State K O E ω (List Hook)) (rest : List NodeId) : Prop where
  pushed : enqueued s.observer = popped s.observer ++ rest
  rest_eq : s.pc.looping = true → rest = s.held.map Task.id ++ s.ready
  sent : s.log.filterMap Event.sent = s.observer.filterMap Hook.sent

def InOrder (s : State K O E ω (List Hook)) : Prop := ∃ rest, InOrderAt s rest

namespace InOrder

/-- Steps that push and start nothing. -/
theorem frame (h : InOrder s) (ho : s'.observer = s.observer) (hlog : s'.log.filterMap Event.sent = s.log.filterMap Event.sent)
    (hl : s'.pc.looping = true → s.pc.looping = true ∧ s'.held.map Task.id ++ s'.ready = s.held.map Task.id ++ s.ready) :
    InOrder s' := by
  obtain ⟨rest, hpushed, hrest, hsent⟩ := h
  refine ⟨rest, by rw [ho]; exact hpushed, fun hl' => ?_, by rw [ho, hlog]; exact hsent⟩
  rw [(hl hl').2]
  exact hrest (hl hl').1

/-- The node at the front starts, if any does, and `rel` are pushed. -/
theorem advance (h : InOrder s) (hl : s.pc.looping = true) (started rel after : List NodeId) (hooks : List Hook)
    (events : List (Event O E)) (hhead : s.held.map Task.id ++ s.ready = started ++ after)
    (ho : s'.observer = s.observer ++ hooks) (hstarted : popped hooks = started) (hrel : enqueued hooks = rel)
    (hafter : s'.held.map Task.id ++ s'.ready = after ++ rel) (hlog : s'.log = s.log ++ events)
    (hevents : events.filterMap Event.sent = hooks.filterMap Hook.sent) : InOrder s' := by
  obtain ⟨rest, hpushed, hrest, hsent⟩ := h
  refine ⟨after ++ rel, ?_, fun _ => hafter.symm, ?_⟩
  · rw [ho, enqueued_append, popped_append, hpushed, hrest hl, hhead, hstarted, hrel]
    simp only [List.append_assoc]
  · rw [hlog, ho, List.filterMap_append, List.filterMap_append, hsent, hevents]

/-- A source at the front is processed in place. -/
theorem source (h : InOrder s) (hpc : s.pc = .inner) (hp : s.pending = none) {id : NodeId} {ready rel : List NodeId}
    (hr : s.ready = id :: ready) (ho : s'.observer = replay (readyHooks ready.length rel)
      (ExecObserver.markFinish id (ExecObserver.markStart id none s.observer)))
    (hheld : s'.held = []) (hready : s'.ready = ready ++ rel) (hlog : s'.log = s.log) : InOrder s' := by
  refine h.advance (by rw [hpc]; rfl) [id] rel ready ([.start id none, .finish id] ++ readyHooks ready.length rel) []
    ?_ ?_ ?_ ?_ ?_ ?_ ?_
  · rw [State.held_nil hpc hp, hr]
    rfl
  · rw [ho, replay_log]
    show s.observer ++ [Hook.start id none] ++ [Hook.finish id] ++ _ = _
    simp only [List.append_assoc, List.cons_append, List.nil_append]
  · rw [popped_append, popped_readyHooks]
    rfl
  · rw [enqueued_append, enqueued_readyHooks]
    rfl
  · rw [hheld, hready]
    rfl
  · rw [hlog, List.append_nil]
  · rw [List.filterMap_append, sent_readyHooks]
    rfl

/-- A result is received and its dependents are pushed. -/
theorem complete (h : InOrder s) (hpc : s.pc = .recv) {id : NodeId} {rel : List NodeId} {res : TaskResult O E}
    (ho : s'.observer = replay (readyHooks s.ready.length rel) (ExecObserver.markFinish id s.observer))
    (hheld : s'.held = s.held) (hready : s'.ready = s.ready ++ rel) (hlog : s'.log = s.log ++ [.received res]) :
    InOrder s' := by
  refine h.advance (by rw [hpc]; rfl) [] rel (s.held.map Task.id ++ s.ready)
    ([.finish id] ++ readyHooks s.ready.length rel) [.received res] rfl ?_ ?_ ?_ ?_ hlog ?_
  · rw [ho, replay_log]
    show s.observer ++ [Hook.finish id] ++ _ = _
    rw [List.append_assoc]
  · rw [popped_append, popped_readyHooks]
    rfl
  · rw [enqueued_append, enqueued_readyHooks]
    rfl
  · rw [hheld, hready, List.append_assoc]
  · rw [List.filterMap_append, sent_readyHooks]
    rfl

end InOrder

theorem Runs.inOrder (h : Runs dag cfg outs ([] : List Hook) ctx s) : InOrder s := by
  have hg := h.good
  refine h.induct_sched (P := InOrder) (fun s0 hs => ?_) (fun s s' hrun hin hs hm => ?_)
    fun s w wk wk' new seen hrun hin hwk hm => ?_
  · obtain ⟨-, hi⟩ := parStart_start hs
    obtain ⟨p, hp, -, -, -, hr, ho, -⟩ := parStart_prepared hs
    have hobs : s0.observer = readyHooks 0 s0.ready := by
      rw [← ho, prepare_hooks hp, hr, replay_log, List.nil_append]
    refine ⟨s0.ready, ?_, fun _ => ?_, ?_⟩
    · rw [hobs, enqueued_readyHooks, popped_readyHooks, List.nil_append]
    · rw [State.held_eq hi.pc, hi.pending]
      rfl
    · rw [hi.log, hobs, sent_readyHooks]
      rfl
  · have hinv := hrun.inv
    cases hm with
    | goto n hgoto =>
      refine hin.frame rfl rfl fun hl => ?_
      rcases hgoto.tasks with ⟨ht, hloop⟩ | ⟨task, -, -, hno⟩
      · refine ⟨hloop hl, ?_⟩
        rw [State.held, State.held, ht]
      · rw [hno] at hl
        cases hl
    | retry hpc hcap hp =>
      refine hin.frame rfl rfl fun _ => ⟨by rw [hpc]; rfl, ?_⟩
      rw [State.held_parked hpc hp]
      rfl
    | @pick task ready hpc hcap hp hr hok =>
      refine hin.frame rfl rfl fun _ => ⟨by rw [hpc]; rfl, ?_⟩
      show (s.pending.toList ++ [task]).map Task.id ++ ready = _
      rw [State.held_nil hpc hp, hp, hr]
      rfl
    | @source id v ready rel indeg observer hpc hcap hp hr hsrc hfin =>
      exact hin.source hpc hp hr (released_of_ok (hinv.source_release hg hpc hcap hp hr hsrc hs))
        (State.held_nil rfl hp) rfl rfl
    | @park task hpc =>
      have hnone := (hinv.dispatching hpc).1
      refine hin.frame rfl rfl fun _ => ⟨by rw [hpc]; rfl, ?_⟩
      rw [State.held_dispatch hpc hnone]
      rfl
    | @sent task left idx n wk observer hpc hwk hlive hroom =>
      have hnone := (hinv.dispatching hpc).1
      have hW : 0 < s.workers.length := hinv.pool.size.symm ▸ hg.valid.workers
      refine hin.advance (by rw [hpc]; rfl) [task.id] [] s.ready [.start task.id (some idx)] [.dispatched idx task.id] ?_
        (sent_observer hW hpc hs rfl) rfl rfl ?_ rfl rfl
      · rw [State.held_dispatch hpc hnone]
        rfl
      · show (s.pending.toList ++ []).map Task.id ++ s.ready = s.ready ++ []
        rw [hnone, List.append_nil s.ready]
        rfl
    | @complete res results v rel indeg observer hpc hr hout hfin =>
      refine hin.complete hpc (released_of_ok (hinv.complete_release hg hpc hr hout hs)) ?_ rfl rfl
      rw [State.held_eq hpc]
      rfl
    | @fail res results e nd observer hpc hr hout hnd =>
      obtain ⟨rest, hpushed, -, hsent⟩ := hin
      have hobs : observer = s.observer ++ [.finish res.id] := hinv.fail_observer hpc hr hout hs
      refine ⟨rest, ?_, fun hl => absurd hl Bool.false_ne_true, ?_⟩
      · have he : enqueued [Hook.finish res.id] = [] := rfl
        have hp : popped [Hook.finish res.id] = [] := rfl
        simp only [hobs, enqueued_append, popped_append, hpushed, he, hp, List.append_nil]
      · simp only [hobs, List.filterMap_append, hsent]
        rfl
    | closeTx hpc hwk => exact hin.frame rfl rfl fun hl => by cases hl
    | leave hpc hi => exact hin.frame rfl rfl fun hl => by cases hl
  · refine hin.frame rfl ?_ fun hl => ⟨hl, rfl⟩
    rw [List.filterMap_append, hm.not_sent, List.append_nil]

/-- **Tasks start in the order they became ready.** In every state of a parallel run no node has been pushed to the ready
queue twice; the nodes started so far are the first of those pushed, in the same order, and while the scheduler loops the
next ones are the task it holds, parked or being dispatched, and then the ready queue; and the starts on workers are
exactly the dispatches, in order. -/
theorem starts_in_order (dag : Dag K O E ω) (cfg : ExecutorConfig) (outs : List K) :
    ∀ (ctx : Ctx K O E ω) (s : State K O E ω (List Hook)), Runs dag cfg outs ([] : List Hook) ctx s →
      (enqueued s.observer).Nodup ∧ popped s.observer <+: enqueued s.observer ∧
      (s.pc.looping = true → enqueued s.observer = popped s.observer ++ (s.held.map Task.id ++ s.ready)) ∧
      s.log.filterMap Event.sent = s.observer.filterMap Hook.sent := by
  intro ctx s h
  obtain ⟨rest, hpushed, hrest, hsent⟩ := h.inOrder
  refine ⟨?_, ⟨rest, hpushed.symm⟩, fun hl => by rw [hpushed, hrest hl], hsent⟩
  obtain ⟨hooks, hh⟩ := h.hooked
  have hobs : s.observer = hooks := by rw [hh.observer, replay_log, List.nil_append]
  rw [hobs, enqueued_notes]
  exact hh.told.lawful.readied_nodup

/-- One task in flight at a time, the first received: it started after the source, and the second is next. -/
theorem starts_in_order_diamond :
    ∃ (ctx : Ctx Nat Nat Nat Unit) (s : State Nat Nat Nat Unit (List Hook)),
      Runs (Dag.diamond (.ok 6)) ⟨2, 1, 2⟩ [3] ([] : List Hook) ctx s ∧ s.vals = [some 5, some 6, none, none, none] ∧
        s.ready = [2] ∧ popped s.observer = [0, 1] ∧
        enqueued s.observer = popped s.observer ++ (s.held.map Task.id ++ s.ready) := by
  have hv : (⟨2, 1, 2⟩ : ExecutorConfig).Valid := ⟨by decide, by decide, by decide⟩
  obtain ⟨s, hrun, hs⟩ : ∃ s, Runs (Dag.diamond (.ok 6)) ⟨2, 1, 2⟩ [3] ([] : List Hook)
      ((Dag.diamondPrepared (.ok 6) ([] : List Hook)).ctx ⟨2, 1, 2⟩) s ∧
      (s.pc, s.vals, s.ready, popped s.observer) = (.outer, [some 5, some 6, none, none, none], [2], [0, 1]) :=
    exists_played hv (List.cons_ne_nil 3 []) (Dag.prepare_diamond (.ok 6) [])
      (List.replicate 6 .scheduler ++ [.worker 0 (), .worker 0 (), .scheduler]) _ rfl
  simp only [Prod.mk.injEq] at hs
  obtain ⟨hpc, hvals, hready, hpopped⟩ := hs
  exact ⟨_, s, hrun, hvals, hready, hpopped, (starts_in_order _ _ _ _ s hrun).2.2.1 (by rw [hpc]; rfl)⟩

end DagExec
