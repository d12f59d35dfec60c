import DagExec.Par.Returns
import DagExec.Spec.Small

/-!
# The internal errors of the parallel executor cannot happen

Every failed index, assertion and subtraction of the model takes the scheduler to `Pc.panicked`, and every internal
error makes it leave with `InternalInvariant`. By the invariant the first is never reached, and the second only after
a task function has panicked, since a worker that is gone while its channel is open went down with a task. What is left
is `Ok`, with every output collected, `Cycle` and `TaskFailed`.
-/

namespace DagExec

open Outcome

variable {K O E ω R : Type} {ctx : Ctx K O E ω} {cfg : ExecutorConfig} {dag : Dag K O E ω} {outs : List K}

section

variable [ExecObserver R] {s : State K O E ω R} {observer : R}

theorem Runs.not_panicked (h : Runs dag cfg outs observer ctx s) (p : Panic) : s.pc ≠ .panicked p := by
  intro hpc
  have hok := h.inv.pc
  rw [hpc] at hok
  exact hok

/-- Without panicking tasks the scheduler never leaves with an internal error. -/
theorem Runs.not_internal (h : Runs dag cfg outs observer ctx s) (hno : s.panics = false) (msg : String) :
    s.pc.ret ≠ some (.error (.internalInvariant msg)) := by
  intro hret
  cases h.ret_verdict hret with
  | died _ hp =>
    rw [hno] at hp
    cases hp

end

variable [DecidableEq K]

/-- What a completed run without panics returns. -/
theorem RunParallel.ordinary (hv : cfg.Valid) (hne : outs ≠ []) (hk : dag.KeysExist outs)
    {r : Outcome (ExecError K E) (HashMap K O)} {log : List (Event O E)} (h : RunParallel dag cfg outs false r log) :
    (∃ m, r = .ok m) ∨ (∃ rem, r = .err (.cycle rem)) ∨ ∃ k e, r = .err (.taskFailed k e) := by
  rcases h.report with ⟨hrej, -⟩ | ⟨hp, -⟩ | ⟨-, vals, hrep⟩
  · exact absurd ⟨hv, hne, hk⟩ hrej
  · cases hp
  · cases hrep with
    | ok => exact .inl ⟨_, rfl⟩
    | cycle => exact .inr (.inl ⟨_, rfl⟩)
    | failed => exact .inr (.inr ⟨_, _, rfl⟩)

/-- **The internal errors are unreachable.** With positive knobs and a non-empty list of existing keys the run gets past
its preparation; in no state of any run has the scheduler panicked on an index, an assertion or a subtraction; without a
panicking task it never leaves with an internal error, and a completed run returns `Ok`, `Cycle` or `TaskFailed`: no
`InternalInvariant`, and no `OutputMissing` from `collect_outputs`. -/
theorem internal_errors_unreachable [ExecObserver R] (dag : Dag K O E ω) (cfg : ExecutorConfig) (hv : cfg.Valid)
    (outs : List K) (hne : outs ≠ []) (hk : dag.KeysExist outs) (observer : R) :
    (∃ (ctx : Ctx K O E ω) (s0 : State K O E ω R), parStart dag cfg outs observer = .ok (ctx, s0)) ∧
    (∀ (ctx : Ctx K O E ω) (s : State K O E ω R), Runs dag cfg outs observer ctx s →
      (∀ p, s.pc ≠ .panicked p) ∧ (s.panics = false → ∀ msg, s.pc.ret ≠ some (.error (.internalInvariant msg)))) ∧
    ∀ r log, RunParallel dag cfg outs false r log →
      (∃ m, r = .ok m) ∨ (∃ rem, r = .err (.cycle rem)) ∨ ∃ k e, r = .err (.taskFailed k e) := by
  refine ⟨?_, fun ctx s h => ⟨h.not_panicked, h.not_internal⟩, fun r log h => h.ordinary hv hne hk⟩
  obtain ⟨ctx, s0, hs, -⟩ := parStart_ok hv hne hk observer
  exact ⟨ctx, s0, hs⟩

/-- The first task fails: the run completes, with that error or another ordinary outcome. -/
theorem internal_errors_unreachable_diamond :
    ∃ (r : Outcome (ExecError Nat Nat) (HashMap Nat Nat)) (log : List (Event Nat Nat)),
      RunParallel (Dag.diamond (.err 7)) ⟨4, 8, 2⟩ [3] false r log ∧
      ((∃ m, r = .ok m) ∨ (∃ rem, r = .err (.cycle rem)) ∨ ∃ k e, r = .err (.taskFailed k e)) := by
  have hk : (Dag.diamond (.err 7)).KeysExist [3] := Dag.diamond_keysExist (by decide)
  have hs : TasksReturn (Dag.diamond (.err 7)) [3] := Dag.diamond_tasksReturn nofun
  obtain ⟨ctx, s, ret, hrun, hpc⟩ := exists_returned small_valid (by decide) hk hs ()
  have h := RunParallel.completed hrun hpc
  rw [hrun.no_panic hs] at h
  obtain ⟨-, -, hordinary⟩ := internal_errors_unreachable (Dag.diamond (.err 7)) ⟨4, 8, 2⟩ small_valid [3]
    (by decide) hk ()
  exact ⟨_, _, h, hordinary _ _ h⟩

end DagExec
