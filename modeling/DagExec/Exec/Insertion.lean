import DagExec.Build.Embedding
import DagExec.Seq.Reach
import DagExec.Seq.Runs
import Mathlib.Algebra.GroupWithZero.Nat

/-!
# The order of insertion

Inserting the same nodes in another order, or requesting the same keys in another order or several times, changes the
ids, the seeding and the order in which tasks run. What `run_sequential` returns stays the same up to the order of a
`Cycle` error's keys and the choice among failing tasks, because a graph built from a permutation of the calls is inside
the other (`Dag.BuiltFrom.embeds`) and the verdict depends on what the graph means only (`runSequential_verdicts`).

The choice among failing tasks is also one between a failing and a panicking task: which of them is called first
depends on the order (`panic_before_failure`).
-/

namespace DagExec

open Outcome DagBuilder

variable {K O E ω : Type} [DecidableEq K] {dag dag' : Dag K O E ω} {outs outs' : List K} {ρ : NodeId → NodeId}
  {env env' : Nat → ω}

/-! ## A graph inside a graph -/

omit [DecidableEq K] in
theorem Dag.keysExist_congr (h : ∀ k, k ∈ outs ↔ k ∈ outs') (hk : dag.KeysExist outs) : dag.KeysExist outs' := by
  intro k hmem
  exact hk k ((h k).mpr hmem)

omit [DecidableEq K] in
theorem Dag.acyclic_congr (h : ∀ k, k ∈ outs ↔ k ∈ outs') : dag.Acyclic outs ↔ dag.Acyclic outs' := by
  unfold Dag.Acyclic
  simp only [Dag.needed_congr h]

omit [DecidableEq K] in
theorem tasksSucceed_congr (h : ∀ k, k ∈ outs ↔ k ∈ outs') : TasksSucceed dag outs ↔ TasksSucceed dag outs' := by
  unfold TasksSucceed
  simp only [Dag.needed_congr h]

omit [DecidableEq K] in
theorem CyclicKeys.congr (h : ∀ k, k ∈ outs ↔ k ∈ outs') {rem : List K} (hrem : CyclicKeys dag outs rem) :
    CyclicKeys dag outs' rem := by
  obtain ⟨ids, hids, hsorted, hmem⟩ := hrem
  refine ⟨ids, hids, hsorted, fun i => ?_⟩
  rw [hmem, Dag.needed_congr h]

/-- The maps of two successful runs are the same: each requested key has its reference value. -/
theorem Dag.Embeds.ok_eq (h : dag'.Embeds dag ρ) (hdet : dag.Deterministic) (hsame : ∀ k, k ∈ outs ↔ k ∈ outs')
    (hk' : dag'.KeysExist outs') {m m' : HashMap K O} (hm : (runSequential dag outs env).1 = .ok m)
    (hm' : (runSequential dag' outs' env').1 = .ok m') : m = m' := by
  obtain ⟨vals, hrep⟩ := runSequential_report hm
  obtain ⟨vals', hrep'⟩ := runSequential_report hm'
  refine HashMap.ext fun k v => ?_
  rw [(hrep.ok_iff hdet rfl).2, (hrep'.ok_iff (h.deterministic hdet) rfl).2, hsame]
  refine and_congr_right fun hmem => ?_
  obtain ⟨i, hi⟩ := hk' k hmem
  constructor
  · rintro ⟨j, hj, hv⟩
    rw [h.index_get hi, Option.some.injEq] at hj
    subst hj
    exact ⟨i, hi, (h.evaluates_iff (Dag.index_lt hi)).mp hv⟩
  · rintro ⟨i, hi, hv⟩
    exact ⟨ρ i, h.index_get hi, h.evaluates hv⟩

/-- The reported keys of two runs are the same up to their order. -/
theorem Dag.Embeds.cycle_perm (h : dag'.Embeds dag ρ) (hsame : ∀ k, k ∈ outs ↔ k ∈ outs') (hk' : dag'.KeysExist outs')
    {rem rem' : List K} (hr : (runSequential dag outs env).1 = .err (.cycle rem))
    (hr' : (runSequential dag' outs' env').1 = .err (.cycle rem')) : rem.Perm rem' := by
  have hrem := (runSequential_cyclicKeys hr).congr hsame
  have hrem' := runSequential_cyclicKeys hr'
  exact (List.perm_ext_iff_of_nodup hrem.nodup hrem'.nodup).mpr (h.mem_cyclicKeys_iff hk' hrem hrem')

/-- **The order of insertion and of the request does not matter.** For two sequences of calls of which the same are
accepted, in any order, and two lists of the same existing keys, with deterministic task functions:

- `run_sequential` returns `Ok(m)` on the first exactly when it returns `Ok(m)` on the second;
- it returns `Cycle` on the first exactly when it does on the second, with the same keys up to their order;
- it returns `TaskFailed` or a task panics on the first exactly when this happens on the second, so if neither run
  panics, it returns `TaskFailed` on the first exactly when it does on the second. -/
theorem insertion_independent (calls calls' : List (AddCall K O E ω))
    (hperm : ((new : DagBuilder K O E ω).accepted calls).Perm ((new : DagBuilder K O E ω).accepted calls'))
    (dag dag' : Dag K O E ω) (hb : (ofCalls calls).build = .ok dag) (hb' : (ofCalls calls').build = .ok dag')
    (hdet : dag.Deterministic) (outs outs' : List K) (hne : outs ≠ []) (hsame : ∀ k, k ∈ outs ↔ k ∈ outs')
    (hk : dag.KeysExist outs) (env env' : Nat → ω) :
    (∀ m, (runSequential dag outs env).1 = .ok m ↔ (runSequential dag' outs' env').1 = .ok m) ∧
    ((∃ rem, (runSequential dag outs env).1 = .err (.cycle rem)) ↔
      ∃ rem', (runSequential dag' outs' env').1 = .err (.cycle rem')) ∧
    (∀ rem rem', (runSequential dag outs env).1 = .err (.cycle rem) →
      (runSequential dag' outs' env').1 = .err (.cycle rem') → rem.Perm rem') ∧
    (((∃ k e, (runSequential dag outs env).1 = .err (.taskFailed k e)) ∨ ∃ p, (runSequential dag outs env).1 = .panic p) ↔
      (∃ k e, (runSequential dag' outs' env').1 = .err (.taskFailed k e)) ∨
        ∃ p, (runSequential dag' outs' env').1 = .panic p) ∧
    ((∀ p, (runSequential dag outs env).1 ≠ .panic p) → (∀ p, (runSequential dag' outs' env').1 ≠ .panic p) →
      ((∃ k e, (runSequential dag outs env).1 = .err (.taskFailed k e)) ↔
        ∃ k e, (runSequential dag' outs' env').1 = .err (.taskFailed k e))) := by
  have hfrom := build_builtFrom (ofCalls_staging calls) hb
  have hfrom' := build_builtFrom (ofCalls_staging calls') hb'
  have h : dag'.Embeds dag (dag'.sameKey dag) := hfrom.embeds hfrom' hperm.symm.subset
  have hback : dag.Embeds dag' (dag.sameKey dag') := hfrom'.embeds hfrom hperm.subset
  have hk' : dag'.KeysExist outs' := Dag.keysExist_congr hsame (hback.keysExist hk)
  have hne' : outs' ≠ [] := by
    intro hnil
    obtain ⟨k, hmem⟩ := List.exists_mem_of_ne_nil _ hne
    rw [hsame, hnil] at hmem
    cases hmem
  have hacyc : dag.Acyclic outs ↔ dag'.Acyclic outs' := (Dag.acyclic_congr hsame).trans (h.acyclic_iff hk')
  have hsucc : TasksSucceed dag outs ↔ TasksSucceed dag' outs' := (tasksSucceed_congr hsame).trans (h.tasksSucceed_iff hk')
  obtain ⟨hok, hcycle, hfail⟩ := runSequential_verdicts hdet hne hk env
  obtain ⟨hok', hcycle', hfail'⟩ := runSequential_verdicts (h.deterministic hdet) hne' hk' env'
  rw [hacyc, hsucc] at hok hcycle
  rw [hsucc] at hfail
  refine ⟨fun m => ⟨fun hm => ?_, fun hm' => ?_⟩, hcycle.trans hcycle'.symm,
    fun rem rem' => h.cycle_perm hsame hk', hfail.trans hfail'.symm, fun hp hp' => ?_⟩
  · obtain ⟨m', hm'⟩ := hok'.mpr (hok.mp ⟨m, hm⟩)
    rw [h.ok_eq hdet hsame hk' hm hm']
    exact hm'
  · obtain ⟨m', hm⟩ := hok.mpr (hok'.mp ⟨m, hm'⟩)
    rw [← h.ok_eq hdet hsame hk' hm hm']
    exact hm
  · have hpanic : ¬ ∃ p, (runSequential dag outs env).1 = .panic p := fun ⟨p, hr⟩ => hp p hr
    have hpanic' : ¬ ∃ p, (runSequential dag' outs' env').1 = .panic p := fun ⟨p, hr⟩ => hp' p hr
    rw [or_iff_left hpanic] at hfail
    rw [or_iff_left hpanic'] at hfail'
    exact hfail.trans hfail'.symm

/-- A task inserted after the source it depends on, and before it; the keys requested once, and twice. -/
theorem insertion_forward_reference : ∃ dag dag' : Dag Nat Nat Nat Unit,
    (ofCalls [.source 0 5, .task 1 [0] fun _ args => .ok args.sum]).build = .ok dag ∧
    (ofCalls [.task 1 [0] fun _ args => .ok args.sum, .source 0 5]).build = .ok dag' ∧
    ∀ m, (runSequential dag [0, 1] fun _ => ()).1 = .ok m ↔ (runSequential dag' [1, 0, 1] fun _ => ()).1 = .ok m := by
  let first : AddCall Nat Nat Nat Unit := .source 0 5
  let second : AddCall Nat Nat Nat Unit := .task 1 [0] fun _ args => .ok args.sum
  have hperm : ((new : DagBuilder Nat Nat Nat Unit).accepted [first, second]).Perm
      ((new : DagBuilder Nat Nat Nat Unit).accepted [second, first]) := by
    show [first, second].Perm [second, first]
    exact .swap second first []
  refine ⟨_, _, rfl, rfl, ?_⟩
  refine (insertion_independent [first, second] [second, first] hperm _ _ rfl rfl (fun i f hf w w' args => rfl)
    [0, 1] [1, 0, 1] (by decide) ?_ ?_ (fun _ => ()) fun _ => ()).1
  · intro k
    simp only [List.mem_cons, List.not_mem_nil, or_false]
    omega
  · intro k hk
    simp only [List.mem_cons, List.not_mem_nil, or_false] at hk
    rcases hk with rfl | rfl
    · exact ⟨0, rfl⟩
    · exact ⟨1, rfl⟩

/-! ## Which task fails first -/

/-- When the first node inserted is a needed task without dependencies, it is called first. -/
theorem runSequential_first {nd : Node K O E ω} {f : TaskFn O E ω} (hne : outs ≠ []) (hkeys : dag.KeysExist outs)
    (h0 : dag.Needed outs 0) (hi : dag.nodes[0]? = some nd) (hk : nd.kind = .task f) (hdeps : nd.deps = []) :
    (∀ e, f (env 1) [] = .err e → (runSequential dag outs env).1 = .err (.taskFailed nd.key e)) ∧
      (f (env 1) [] = .panic → (runSequential dag outs env).1 = .panic .taskPanicked) := by
  obtain ⟨p, hstart⟩ := seqStart_ok hne hkeys ()
  obtain ⟨hd, hg, -, -, hready, -⟩ := seqStart_start hstart
  have hreach : SeqReach dag outs env () p.plan p.seqState := ⟨p, hstart, rfl, .start⟩
  subst hd
  have hmem : 0 ∈ p.plan.seeds := (mem_seeds hg).mpr ⟨h0, by rw [Dag.depsOf_of_get hi, hdeps]⟩
  obtain ⟨q, hq⟩ : ∃ q, p.seqState.q = 0 :: q := by
    -- the seeds are in insertion order
    have hsorted := seeds_sorted p.plan
    show ∃ q, p.ready = 0 :: q
    rw [hready]
    cases hseeds : p.plan.seeds with
    | nil => rw [hseeds] at hmem; cases hmem
    | cons i q =>
      rw [hseeds] at hmem hsorted
      rcases List.mem_cons.mp hmem with rfl | hin
      · exact ⟨q, rfl⟩
      · exact absurd (List.rel_of_pairwise_cons hsorted hin) (Nat.not_lt_zero i)
  have hargs : gatherArgs p.seqState.vals nd.deps = (ok [] : Outcome (ExecError K E) _) := by
    rw [hdeps]
    rfl
  constructor
  · intro e hf
    obtain ⟨s', hbody, -, -⟩ := (Leaves.failed hq hi hk hargs hf).body
    rw [runSequential, hreach.execute_eq hbody]
    rfl
  · intro hf
    obtain ⟨s', hbody, -, -⟩ := (Leaves.panicked hq hi hk hargs hf).body
    rw [runSequential, hreach.execute_eq hbody]
    rfl

/-- **A panicking and a failing task.** Inserted first, the panicking task unwinds through `run_sequential`; inserted
last, it is never called, and the run returns `TaskFailed`. -/
theorem panic_before_failure : ∃ dag dag' : Dag Nat Nat Nat Unit,
    (ofCalls [.task 0 [] fun _ _ => .panic, .task 1 [] fun _ _ => .err 7]).build = .ok dag ∧
    (ofCalls [.task 1 [] fun _ _ => .err 7, .task 0 [] fun _ _ => .panic]).build = .ok dag' ∧
    ((new : DagBuilder Nat Nat Nat Unit).accepted [.task 0 [] fun _ _ => .panic, .task 1 [] fun _ _ => .err 7]).Perm
      ((new : DagBuilder Nat Nat Nat Unit).accepted [.task 1 [] fun _ _ => .err 7, .task 0 [] fun _ _ => .panic]) ∧
    dag.Deterministic ∧ dag.KeysExist [0, 1] ∧
    (runSequential dag [0, 1] fun _ => ()).1 = .panic .taskPanicked ∧
    (runSequential dag' [0, 1] fun _ => ()).1 = .err (.taskFailed 1 7) ∧
    ¬ ((∃ k e, (runSequential dag [0, 1] fun _ => ()).1 = .err (.taskFailed k e)) ↔
      ∃ k e, (runSequential dag' [0, 1] fun _ => ()).1 = .err (.taskFailed k e)) := by
  have hkeys : ∀ {dag : Dag Nat Nat Nat Unit} {i j : NodeId}, dag.index.get 0 = some i → dag.index.get 1 = some j →
      dag.KeysExist [0, 1] := by
    intro dag i j hi hj k hk
    simp only [List.mem_cons, List.not_mem_nil, or_false] at hk
    rcases hk with rfl | rfl
    · exact ⟨i, hi⟩
    · exact ⟨j, hj⟩
  let panicking : AddCall Nat Nat Nat Unit := .task 0 [] fun _ _ => .panic
  let failing : AddCall Nat Nat Nat Unit := .task 1 [] fun _ _ => .err 7
  obtain ⟨dag, hb⟩ : ∃ dag, (ofCalls [panicking, failing]).build = .ok dag := ⟨_, rfl⟩
  obtain ⟨dag', hb'⟩ : ∃ dag, (ofCalls [failing, panicking]).build = .ok dag := ⟨_, rfl⟩
  have hpanic : (runSequential dag [0, 1] fun _ => ()).1 = .panic .taskPanicked := by
    cases hb
    exact (runSequential_first (by decide) (hkeys rfl rfl) (.base ⟨0, by decide, rfl⟩)
      (show _ = some (⟨0, [], .task fun _ _ => .panic⟩ : Node Nat Nat Nat Unit) from rfl) rfl rfl).2 rfl
  have hfail : (runSequential dag' [0, 1] fun _ => ()).1 = .err (.taskFailed 1 7) := by
    cases hb'
    exact (runSequential_first (by decide) (hkeys rfl rfl) (.base ⟨1, by decide, rfl⟩)
      (show _ = some (⟨1, [], .task fun _ _ => .err 7⟩ : Node Nat Nat Nat Unit) from rfl) rfl rfl).1 7 rfl
  refine ⟨dag, dag', hb, hb', ?_, fun i f hf w w' args => rfl, ?_, hpanic, hfail, fun hiff => ?_⟩
  · show [panicking, failing].Perm [failing, panicking]
    exact .swap failing panicking []
  · cases hb
    exact hkeys rfl rfl
  · obtain ⟨k, e, hr⟩ := hiff.mpr ⟨1, 7, hfail⟩
    rw [hpanic] at hr
    cases hr

end DagExec
