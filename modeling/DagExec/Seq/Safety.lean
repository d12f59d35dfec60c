import DagExec.Seq.Observed

/-!
# The sequential loop is safe

Every subtraction of the release loop is unchecked. It is safe because before each iteration the counter of a needed node
is the number of its dependency occurrences that have not been popped, and because no node is pushed twice, on any graph:
with cycles, self-dependencies and repeated dependencies.
-/

namespace DagExec

open Outcome

variable {K O E ω : Type} {dag : Dag K O E ω} {outs : List K} {env : Nat → ω}

/-- What holds before each iteration. -/
structure LoopSafe (dag : Dag K O E ω) (outs : List K) (plan : Plan K O E ω) (s : SeqState O (List Hook)) : Prop where
  queue : enqueued s.observer = popped s.observer ++ s.q
  once : (enqueued s.observer).Nodup
  needed : ∀ i ∈ enqueued s.observer, dag.Needed outs i
  pops : (popped s.observer).length ≤ plan.neededCount
  counter : ∀ i, dag.Needed outs i →
    s.indeg[i]? = some ((dag.depsOf i).countP fun d => decide (d ∉ popped s.observer))
  /-- What the iteration of a queued node subtracts from a counter, the counter has. -/
  enough : ∀ id ∈ s.q, ∃ dsts, plan.dependents[id]? = some dsts ∧
    ∀ dst ∈ dsts, ∃ n, s.indeg[dst]? = some n ∧ dsts.count dst ≤ n

theorem SeqReach.safe {plan : Plan K O E ω} {s : SeqState O (List Hook)}
    (h : SeqReach dag outs env ([] : List Hook) plan s) : LoopSafe dag outs plan s := by
  have hlog := h.logged
  obtain ⟨rfl, hg, inv⟩ := h.inv
  have hcounter : ∀ i, plan.dag.Needed outs i →
      s.indeg[i]? = some ((plan.dag.depsOf i).countP fun d => decide (d ∉ popped s.observer)) := by
    intro i hi
    have hlt : i < s.indeg.length := inv.books.indeg_length ▸ hi.lt
    have hmissing := inv.books.ledger.counter i ((hg.needed i).mpr hi)
    rw [← index_eq_ok (ε := ExecError K E), index_counter hlt, hmissing, Kahn.missing]
    congr 1
    refine List.countP_congr fun d _ => ?_
    rw [decide_eq_true_iff, ← hlog.done_iff]
    simp
  refine ⟨hlog.queue, hlog.once inv, fun i hi => ?_, ?_, hcounter, fun id hid => ?_⟩
  · rw [hlog.queue, List.mem_append] at hi
    rcases hi with hi | hi
    · exact inv.books.needed_of_done hg ((hlog.done_iff i).mpr hi)
    · exact inv.needed_of_queued hg hi
  · rw [← hlog.processed, inv.processed]
    exact inv.books.doneCount_le hg
  · refine ⟨_, hg.dependents id (inv.needed_of_queued hg hid).lt, fun dst hdst => ?_⟩
    have hcount := hg.dependents_count id dst
    have hpos := List.count_pos_iff.mpr hdst
    rw [hcount] at hpos ⊢
    by_cases hn : flag plan.needed dst = true
    · refine ⟨_, hcounter dst ((hg.needed dst).mp hn), ?_⟩
      rw [if_pos hn]
      refine List.countP_mono_left fun d _ hd => decide_eq_true fun hmem => ?_
      rw [beq_iff_eq.mp hd] at hmem
      exact hlog.not_popped inv hid hmem
    · rw [if_neg hn] at hpos
      exact absurd hpos (Nat.lt_irrefl 0)

/-- Over the whole run, too, no node is pushed twice. -/
theorem execute_once (dag : Dag K O E ω) (outs : List K) (env : Nat → ω) :
    (enqueued (execute dag outs env ([] : List Hook)).observer).Nodup := by
  rcases execute_log dag outs env with hnil | ⟨plan, s, hreach, henq, -⟩
  · rw [hnil]
    exact List.nodup_nil
  · rw [henq]
    exact hreach.safe.once

theorem execute_pops {p : Prepared K O E ω (List Hook)} (hp : seqStart dag outs ([] : List Hook) = ok p) :
    (popped (execute dag outs env ([] : List Hook)).observer).length ≤ p.plan.neededCount := by
  rcases execute_log dag outs env with hnil | ⟨plan, s, hreach, -, next, hnext, hone, hpopped⟩
  · rw [hnil]
    exact Nat.zero_le _
  · have hlog := hreach.logged
    obtain ⟨p', hp', rfl, -⟩ := id hreach
    rw [hp, ok.injEq] at hp'
    subst hp'
    obtain ⟨hdag, hg, inv⟩ := hreach.inv
    rw [hpopped, List.length_append, ← hlog.processed, inv.processed]
    cases next with
    | nil => exact inv.books.doneCount_le hg
    | cons id next =>
      have hopen : 0 < s.q.count id := List.count_pos_iff.mpr (hnext.subset List.mem_cons_self)
      have hlt := inv.books.doneCount_lt hg hopen
      omega

/-- How a run ends: it returns or some task function has panicked; and the only internal error is that for an empty
request. -/
theorem execute_ends {R : Type} [ExecObserver R] (dag : Dag K O E ω) (outs : List K) (env : Nat → ω) (observer : R) :
    (execute dag outs env observer).result ≠ .diverge ∧
    (∀ p, (execute dag outs env observer).result = .panic p → p = .taskPanicked) ∧
    ∀ msg, (execute dag outs env observer).result = .err (.internalInvariant msg) →
      outs = [] ∧ msg = "outputs must be non-empty" := by
  classical
  have hrun := runSequential_run dag outs env
  have hsame : (execute dag outs env ()).result = (execute dag outs env observer).result := by
    rw [execute_unobserved dag outs env observer]
  rw [← hsame]
  generalize (runSequential dag outs env).1 = r, (execute dag outs env ()).result = ex,
    (runSequential dag outs env).2 = calls at hrun
  cases hrun with
  | noOutputs h =>
    refine ⟨nofun, nofun, fun msg hmsg => ?_⟩
    cases hmsg
    exact ⟨h, rfl⟩
  | panicked =>
    refine ⟨nofun, fun p hp => ?_, nofun⟩
    cases hp
    rfl
  | _ => exact ⟨nofun, nofun, nofun⟩

/-- **The sequential loop is safe and ends, on every graph.** Before each iteration no node has been pushed twice, at
most `needed_count` have been popped, and the counter of each needed node is the number of its dependency occurrences
not popped yet, so the iteration subtracts from no counter more than it has. Over the whole run, whatever the observer:
the loop ends, no subtraction underflows and no index is out of range, since the only panics are those of task
functions, and no dependency is found missing. -/
theorem sequential_loop_safe (dag : Dag K O E ω) (outs : List K) (env : Nat → ω) :
    (∀ plan s, SeqReach dag outs env ([] : List Hook) plan s → LoopSafe dag outs plan s) ∧
    (enqueued (execute dag outs env ([] : List Hook)).observer).Nodup ∧
    (∀ p, seqStart dag outs ([] : List Hook) = ok p →
      (popped (execute dag outs env ([] : List Hook)).observer).length ≤ p.plan.neededCount) ∧
    ∀ (R : Type) [ExecObserver R] (observer : R), (execute dag outs env observer).result ≠ .diverge ∧
      (∀ p, (execute dag outs env observer).result = .panic p → p = .taskPanicked) ∧
      ∀ msg, (execute dag outs env observer).result = .err (.internalInvariant msg) →
        outs = [] ∧ msg = "outputs must be non-empty" :=
  ⟨fun _ _ h => h.safe, execute_once dag outs env, fun _ => execute_pops, fun _ _ observer =>
    execute_ends dag outs env observer⟩

end DagExec
