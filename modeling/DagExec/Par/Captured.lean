import DagExec.Common.Network
import DagExec.Par.Steps
import DagExec.Par.Calls

/-!
# Captured arguments stay right

A task takes its arguments from the value table when it is dispatched, and its result is recorded much later, after other
results. Values never change once stored, so from then on the table holds those arguments for the task's dependencies,
even when the task functions depend on more than their arguments (`Runs.captured`).
-/

namespace DagExec

open Outcome

variable {K O E ω R : Type} {ctx : Ctx K O E ω} {cfg : ExecutorConfig} {dag : Dag K O E ω} {outs : List K}
  {s s' : State K O E ω R}

/-- The arguments of the tasks and of the calls made so far are in the table, and the results are what the functions
returned on such arguments. -/
structure Captured (dag : Dag K O E ω) (s : State K O E ω R) : Prop where
  held : ∀ t ∈ s.held, Reads dag s.vals t.id t.args
  tasks : ∀ t ∈ s.tasks, Reads dag s.vals t.id t.args
  results : ∀ res ∈ s.results, ∃ f args w, dag.IsTask res.id f ∧ Reads dag s.vals res.id args ∧ f w args = res.call
  called : ∀ w id args, .called w id args ∈ s.log → Reads dag s.vals id args

theorem WorkerMove.called_task {w : Nat} {wk wk' : Worker O E ω} {new : List (TaskResult O E)} {seen : List (Event O E)}
    (h : WorkerMove w wk wk' new seen) {v : Nat} {id : NodeId} {args : List O} (hmem : .called v id args ∈ seen) :
    ∃ t ∈ wk.tasks, t.id = id ∧ t.args = args := by
  cases h with
  | @take task queue hs hq =>
    cases List.mem_singleton.mp hmem
    exact ⟨task, by simp [Worker.tasks, hq], rfl, rfl⟩
  | _ => cases hmem

namespace Captured

/-- Steps that only move tasks and results, or drop them. -/
theorem frame (h : Captured dag s) (hk : ∀ i args, Reads dag s.vals i args → Reads dag s'.vals i args)
    (hheld : ∀ t ∈ s'.held, t ∈ s.held) (htasks : ∀ t ∈ s'.tasks, t ∈ s.tasks ∨ t ∈ s.held)
    (hres : ∀ res ∈ s'.results, res ∈ s.results) (hlog : ∀ w id args, .called w id args ∈ s'.log → .called w id args ∈ s.log) :
    Captured dag s' where
  held := fun t ht => hk _ _ (h.held t (hheld t ht))
  tasks := fun t ht => hk _ _ ((htasks t ht).elim (h.tasks t) (h.held t))
  results := fun res hr => by
    obtain ⟨f, args, w, hf, ha, hc⟩ := h.results res (hres res hr)
    exact ⟨f, args, w, hf, hk _ _ ha, hc⟩
  called := fun w id args hmem => hk _ _ (h.called w id args (hlog w id args hmem))

theorem work (h : Captured dag s) (hacct : Account ctx s) (hdag : ctx.plan.dag = dag) {w : Nat} {wk wk' : Worker O E ω}
    {new : List (TaskResult O E)} {seen : List (Event O E)} (hwk : s.workers[w]? = some wk)
    (hm : WorkerMove w wk wk' new seen) :
    Captured dag { s with workers := s.workers.set w wk', results := s.results ++ new, log := s.log ++ seen } := by
  have hin : ∀ t ∈ wk.tasks, t ∈ s.tasks := fun t ht => State.mem_tasks.mpr ⟨wk, List.mem_of_getElem? hwk, ht⟩
  refine ⟨h.held, fun t ht => ?_, fun res hres => ?_, fun v id args hmem => ?_⟩
  · obtain ⟨wk₁, hwk₁, ht₁⟩ := State.mem_tasks.mp ht
    rcases List.mem_or_eq_of_mem_set hwk₁ with hold | rfl
    · exact h.tasks t (State.mem_tasks.mpr ⟨wk₁, hold, ht₁⟩)
    · exact h.tasks t (hin t (hm.tasks_sub t ht₁))
  · rcases List.mem_append.mp hres with hold | hnew
    · exact h.results res hold
    · obtain ⟨dropped, hacct, -⟩ := hacct
      cases hm with
      | @finish task res' env hs hid hf =>
        cases List.mem_singleton.mp hnew
        have hmem := hin task (by simp [Worker.tasks, hs, WorkerStatus.tasks])
        have htask := (hacct.tasks_ok task hmem).1
        rw [hdag] at htask
        exact ⟨task.func, task.args, env, hid ▸ htask, hid ▸ h.tasks task hmem, hf⟩
      | _ => cases hnew
  · rcases List.mem_append.mp hmem with hold | hnew
    · exact h.called v id args hold
    · obtain ⟨t, ht, rfl, rfl⟩ := hm.called_task hnew
      exact h.tasks t (hin t ht)

end Captured

section

variable [ExecObserver R] {observer : R}

/-- A task that is being dispatched has been given what the table holds. -/
theorem Inv.pick_reads (h : Inv ctx cfg s) (hpc : s.pc = .inner) (hcap : s.inFlight < ctx.effectiveCap)
    (hp : s.pending = none) {task : Task O E ω} {ready : List NodeId} (hr : s.ready = task.id :: ready)
    (hok : task.Ok ctx.plan.dag) (hs : s.schedule ctx = some s') (hpc' : s'.pc = .dispatch task s.workers.length) :
    Reads ctx.plan.dag s.vals task.id task.args := by
  obtain ⟨⟨nd, hnd, hk⟩, -⟩ := hok
  have hopen : 0 < s.openIds.count task.id :=
    List.count_pos_iff.mpr (State.ready_sub_open (by rw [hr]; exact List.mem_cons_self))
  obtain ⟨args, hargs, -⟩ := (h.acct (by rw [hpc]; rfl)).loop_books.gather hnd hopen
  simp only [State.schedule, hpc, if_pos hcap, pickNext_node hp hr, State.runNode, State.orLeave, index_of_get hnd, hk,
    hargs, State.enterDispatch, Option.some.injEq] at hs
  have hgiven : task.args = args := by
    cases hassert : (debugAssert (decide (0 < s.workers.length)) "n > 0" : Outcome (ExecError K E) Unit) with
    | ok u =>
      rw [hassert] at hs
      rw [← hs] at hpc'
      injection hpc' with ht
      exact (congrArg Task.args ht).symm
    | _ =>
      rw [hassert] at hs
      rw [← hs] at hpc'
      cases hpc'
  rw [Reads, Dag.depsOf_of_get hnd, hgiven]
  exact gatherArgs_eq_ok.mp hargs

/-- **Captured arguments stay right**, in every state of every run. -/
theorem Runs.captured (h : Runs dag cfg outs observer ctx s) : Captured dag s := by
  have hg := h.good
  obtain rfl := hg.dag_eq
  refine h.induct_sched (P := Captured ctx.plan.dag) (fun s0 hs => ?_) (fun s s' hrun hc hs hm => ?_)
    fun s w wk wk' new seen hrun hc hwk hm => hc.work hrun.inv.account rfl hwk hm
  · obtain ⟨-, hi⟩ := parStart_start hs
    refine ⟨fun t ht => ?_, fun t ht => ?_, fun res hres => ?_, fun w id args hmem => ?_⟩
    · rw [State.held_eq hi.pc, hi.pending] at ht
      cases ht
    · rw [hi.tasks] at ht
      cases ht
    · rw [hi.results] at hres
      cases hres
    · rw [hi.log] at hmem
      cases hmem
  · have hinv := hrun.inv
    have hsame : ∀ i args, Reads ctx.plan.dag s.vals i args → Reads ctx.plan.dag s.vals i args := fun _ _ h => h
    have hkept : ∀ w id args, Event.called w id args ∈ s.log → Event.called w id args ∈ s.log := fun _ _ _ h => h
    -- an event that is no call
    have hadded : ∀ ev : Event O E, ev.callId = none → ∀ w id args, .called w id args ∈ s.log ++ [ev] →
        .called w id args ∈ s.log := by
      intro ev hev w id args hmem
      rcases List.mem_append.mp hmem with hold | hnew
      · exact hold
      · rw [← List.mem_singleton.mp hnew] at hev
        cases hev
    cases hm with
    | goto n hgoto =>
      refine hc.frame hsame (fun t ht => ?_) (fun t ht => .inl ht) (fun res hr => hr) hkept
      rcases hgoto.tasks with ⟨hpc, -⟩ | ⟨task, -, hpc, -⟩
      · rw [State.held, hpc] at ht
        exact ht
      · rw [State.held, hpc, List.append_nil] at ht
        exact List.mem_append_left _ ht
    | retry hpc hcap hp =>
      refine hc.frame hsame (fun t ht => ?_) (fun t ht => .inl ht) (fun res hr => hr) hkept
      rw [State.held_parked hpc hp]
      exact ht
    | @pick task ready hpc hcap hp hr hok =>
      refine ⟨fun t ht => ?_, hc.tasks, hc.results, hc.called⟩
      replace ht : t ∈ s.pending.toList ++ [task] := ht
      rw [hp] at ht
      cases List.mem_singleton.mp ht
      exact hinv.pick_reads hpc hcap hp hr hok hs rfl
    | source hpc hcap hp hr hsrc hfin =>
      refine hc.frame (fun i args ha => ha.store hfin.lt hfin.fresh) (fun t ht => ?_) (fun t ht => .inl ht)
        (fun res hr => hr) hkept
      replace ht : t ∈ s.pending.toList ++ [] := ht
      rw [hp] at ht
      cases ht
    | park hpc =>
      refine hc.frame hsame (fun t ht => ?_) (fun t ht => .inl ht) (fun res hr => hr) hkept
      rw [State.held_dispatch hpc (hinv.dispatching hpc).1]
      exact ht
    | @sent task left idx n wk observer hpc hwk hlive hroom =>
      have hnone := (hinv.dispatching hpc).1
      refine hc.frame hsame (fun t ht => ?_) (fun t ht => ?_) (fun res hr => hr) (hadded _ rfl)
      · replace ht : t ∈ s.pending.toList ++ [] := ht
        rw [hnone] at ht
        cases ht
      · rw [State.held_dispatch hpc hnone]
        exact List.mem_append.mp ((State.tasks_sent hwk task).subset ht)
    | @complete res results v rel indeg observer hpc hr hout hfin =>
      refine hc.frame (fun i args ha => ha.store hfin.lt hfin.fresh) (fun t ht => ?_) (fun t ht => .inl ht)
        (fun res' hr' => ?_) (hadded _ rfl)
      · rw [State.held_eq hpc]
        exact ht
      · rw [hr]
        exact List.mem_cons_of_mem _ hr'
    | @fail res results e nd observer hpc hr hout hnd =>
      refine hc.frame hsame (fun t ht => ?_) (fun t ht => .inl ht) (fun res' hr' => ?_) (hadded _ rfl)
      · rw [State.held_eq hpc]
        exact ht
      · rw [hr]
        exact List.mem_cons_of_mem _ hr'
    | closeTx hpc hwk =>
      refine hc.frame hsame (fun t ht => ?_) (fun t ht => .inl ?_) (fun res hr => hr) hkept
      · rw [State.held_eq hpc]
        exact ht
      · rw [State.tasks, State.tasks_closed hwk] at ht
        exact ht
    | leave hpc hi =>
      refine hc.frame hsame (fun t ht => ?_) (fun t ht => .inl ht) (fun res hr => hr) hkept
      rw [State.held_eq hpc]
      exact ht

end

end DagExec
