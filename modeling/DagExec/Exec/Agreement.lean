import DagExec.Seq.Runs
import DagExec.Par.Returns
import DagExec.Par.FalseCycle
import DagExec.Spec.Small

/-!
# Both executors

What holds of every run of `run_sequential` and of every completed run of `run_parallel`, whatever the configuration
and the interleaving:

- `runParallel_ok`: an `Ok` is the map of reference values that `run_sequential` returns;
- `taskFailed_exact`: `TaskFailed` is returned exactly when an evaluable needed task fails, and it is that of one;
- `cycle_exact`: a cycle among the needed nodes is reported by both, with the same keys;
- `called_exactly_once`: only needed tasks are called, each at most once, and all of them when the run returns `Ok`.
-/

namespace DagExec

variable {K O E ω : Type} [DecidableEq K]

/-- **Value soundness.** Whenever `run_parallel` returns `Ok`, the keys of the map are the requested ones and its values
their reference values; so every configuration and every schedule that returns `Ok` returns the same map, the one that
`run_sequential` returns. -/
theorem runParallel_ok (dag : Dag K O E ω) (hdet : dag.Deterministic) (cfg : ExecutorConfig) (outs : List K)
    (panics : Bool) (m : HashMap K O) (log : List (Event O E)) (h : RunParallel dag cfg outs panics (.ok m) log) :
    (∀ k, (∃ v, m.get k = some v) ↔ k ∈ outs) ∧
    (∀ k v, m.get k = some v ↔ k ∈ outs ∧ ∃ i, dag.index.get k = some i ∧ Evaluates dag i v) ∧
    (∀ cfg' panics' m' log', RunParallel dag cfg' outs panics' (.ok m') log' → m' = m) ∧
    ∀ env, (runSequential dag outs env).1 = .ok m := by
  have hreport : ∀ cfg panics m log, RunParallel dag cfg outs panics (.ok m) log →
      outs ≠ [] ∧ ∃ vals, Report dag outs vals (.ok m) := by
    intro cfg panics m log h
    rcases h.report with ⟨-, ⟨e, he, -⟩, -⟩ | ⟨-, msg, he⟩ | hrep
    · cases he
    · cases he
    · exact hrep
  obtain ⟨hne, vals, hrep⟩ := hreport cfg panics m log h
  obtain ⟨hkeys, hvals⟩ := hrep.ok_iff hdet rfl
  have hsame : ∀ m' vals', Report dag outs vals' (.ok m') → m' = m := fun m' vals' hrep' =>
    HashMap.ext fun k v => ((hrep'.ok_iff hdet rfl).2 k v).trans (hvals k v).symm
  refine ⟨hkeys, hvals, fun cfg' panics' m' log' h' => ?_, fun env => ?_⟩
  · obtain ⟨-, vals', hrep'⟩ := hreport cfg' panics' m' log' h'
    exact hsame m' vals' hrep'
  · have hv := hrep.evaluates rfl
    obtain ⟨m', hm'⟩ := runSequential_ok hne (hrep.keysExist rfl) (acyclic_of_evaluates hv)
      (tasksSucceed_of_evaluates hdet hv) env
    obtain ⟨vals', hrep'⟩ := runSequential_report hm'
    rw [hm', hsame m' vals' hrep']

omit [DecidableEq K] in
theorem runParallel_diamond : ∃ panics m log,
    RunParallel (Dag.diamond (.ok 6)) ⟨4, 8, 2⟩ [3] panics (.ok m) log ∧ m.get 3 = some 13 := by
  have hk : (Dag.diamond (.ok 6)).KeysExist [3] := Dag.diamond_keysExist (by decide)
  have hs : TasksSucceed (Dag.diamond (.ok 6)) [3] := Dag.diamond_tasksSucceed 6
  obtain ⟨ctx, s, ret, hrun, hpc⟩ := exists_returned small_valid (by decide) hk hs.returns ()
  have h := RunParallel.completed hrun hpc
  obtain ⟨m, hm⟩ := h.ok_of_not_falseCycle diamond_not_falseCycle small_valid (by decide) hk
    (Dag.diamond_acyclic 6 (by decide)) hs
  rw [hm] at h
  obtain ⟨-, hval, -⟩ := runParallel_ok _ Dag.diamond_deterministic ⟨4, 8, 2⟩ [3] _ m _ h
  obtain ⟨-, -, -, h3⟩ := Dag.diamond_evaluates 6
  exact ⟨_, m, _, h, (hval 3 13).mpr ⟨by decide, 3, rfl, h3⟩⟩

/-- **The task-failure verdict is exact** in both executors: `TaskFailed` is returned exactly when some evaluable needed
task's function returns `Err` on the reference values of its dependencies, and key and error are those of one such
task. -/
theorem taskFailed_exact (dag : Dag K O E ω) (hdet : dag.Deterministic) (cfg : ExecutorConfig) (hv : cfg.Valid)
    (outs : List K) (hne : outs ≠ []) (hk : dag.KeysExist outs) :
    (∀ env, (∀ p, (runSequential dag outs env).1 ≠ .panic p) →
      ((∃ k e, (runSequential dag outs env).1 = .err (.taskFailed k e)) ↔
        ∃ i e, dag.Needed outs i ∧ FailsWith dag i e) ∧
      ∀ k e, (runSequential dag outs env).1 = .err (.taskFailed k e) →
        ∃ i nd, dag.Needed outs i ∧ dag.nodes[i]? = some nd ∧ nd.key = k ∧ FailsWith dag i e) ∧
    ∀ r log, RunParallel dag cfg outs false r log →
      ((∃ k e, r = .err (.taskFailed k e)) ↔ ∃ i e, dag.Needed outs i ∧ FailsWith dag i e) ∧
      ∀ k e, r = .err (.taskFailed k e) →
        ∃ i nd, dag.Needed outs i ∧ dag.nodes[i]? = some nd ∧ nd.key = k ∧ FailsWith dag i e := by
  refine ⟨fun env hp => ?_, fun r log h => ?_⟩
  · rcases (runSequential_run dag outs env).report with ⟨hrej, -⟩ | ⟨p, hpanic⟩ | ⟨vals, hrep⟩
    · exact absurd ⟨hne, hk⟩ hrej
    · exact absurd hpanic (hp p)
    · exact ⟨hrep.taskFailed_iff hdet, fun k e hr => hrep.taskFailed hr⟩
  · rcases h.report with ⟨hrej, -⟩ | ⟨hp, -⟩ | ⟨-, vals, hrep⟩
    · exact absurd ⟨hv, hne, hk⟩ hrej
    · cases hp
    · exact ⟨hrep.taskFailed_iff hdet, fun k e hr => hrep.taskFailed hr⟩

omit [DecidableEq K] in
/-- The first task fails, beside the second one. -/
theorem taskFailed_diamond :
    (∀ env, (runSequential (Dag.diamond (.err 7)) [3] env).1 = .err (.taskFailed 1 7)) ∧
    ∃ log, RunParallel (Dag.diamond (.err 7)) ⟨4, 8, 2⟩ [3] false (.err (.taskFailed 1 7)) log := by
  have hk : (Dag.diamond (.err 7)).KeysExist [3] := Dag.diamond_keysExist (by decide)
  have hs : TasksReturn (Dag.diamond (.err 7)) [3] := Dag.diamond_tasksReturn nofun
  obtain ⟨hseq, hpar⟩ := taskFailed_exact (Dag.diamond (.err 7)) Dag.diamond_deterministic ⟨4, 8, 2⟩ small_valid [3]
    (by decide) hk
  have hfails : ∃ i e, (Dag.diamond (.err 7)).Needed [3] i ∧ FailsWith (Dag.diamond (.err 7)) i e :=
    ⟨1, 7, Dag.diamond_needed (by decide), Dag.diamond_failsWith 7⟩
  have hexact : ∀ {k e : Nat} {i : NodeId} {nd : Node Nat Nat Nat Unit}, (Dag.diamond (.err 7)).nodes[i]? = some nd →
      nd.key = k → FailsWith (Dag.diamond (.err 7)) i e → k = 1 ∧ e = 7 := by
    intro k e i nd hnd hk hf
    obtain ⟨rfl, rfl⟩ := Dag.diamond_of_failsWith hf
    cases hnd
    exact ⟨hk.symm, rfl⟩
  refine ⟨fun env => ?_, ?_⟩
  · obtain ⟨hiff, hwhich⟩ := hseq env (runSequential_no_panic hs env)
    obtain ⟨k, e, hr⟩ := hiff.mpr hfails
    obtain ⟨i, nd, -, hnd, hk, hf⟩ := hwhich k e hr
    obtain ⟨rfl, rfl⟩ := hexact hnd hk hf
    exact hr
  · obtain ⟨ctx, s, ret, hrun, hpc⟩ := exists_returned small_valid (by decide) hk hs ()
    have h := RunParallel.completed hrun hpc
    rw [h.no_panic hs] at h
    obtain ⟨hiff, hwhich⟩ := hpar _ _ h
    obtain ⟨k, e, hr⟩ := hiff.mpr hfails
    obtain ⟨i, nd, -, hnd, hk, hf⟩ := hwhich k e hr
    obtain ⟨rfl, rfl⟩ := hexact hnd hk hf
    rw [hr] at h
    exact ⟨_, h⟩

/-- **Cycle diagnosis is exact.** When no needed task fails or panics on the reference values of its dependencies,
`run_sequential` returns `Cycle` exactly when the needed subgraph has a directed cycle; and then both executors return
`Cycle` with the same keys: those of the needed nodes from which a cycle is reachable, in insertion order, each once,
and at least one. No node whose function has been called is listed. -/
theorem cycle_exact [Inhabited ω] (dag : Dag K O E ω) (outs : List K) (hne : outs ≠ []) (hk : dag.KeysExist outs)
    (hs : TasksSucceed dag outs) :
    (∀ env, (∃ rem, (runSequential dag outs env).1 = .err (.cycle rem)) ↔ ¬ dag.Acyclic outs) ∧
    (¬ dag.Acyclic outs → ∃ rem, CyclicKeys dag outs rem ∧ rem ≠ [] ∧ rem.Nodup ∧
      (∀ env, (runSequential dag outs env).1 = .err (.cycle rem) ∧
        ∀ c ∈ (runSequential dag outs env).2, ∀ nd, dag.nodes[c.id]? = some nd → nd.key ∉ rem) ∧
      ∀ cfg panics r log, cfg.Valid → RunParallel dag cfg outs panics r log →
        r = .err (.cycle rem) ∧ ∀ i ∈ log.filterMap Event.callId, ∀ nd, dag.nodes[i]? = some nd → nd.key ∉ rem) := by
  have hseq : ∀ env, ¬ dag.Acyclic outs →
      ∃ rem, (runSequential dag outs env).1 = .err (.cycle rem) ∧ CyclicKeys dag outs rem := fun env hc => by
    rcases (runSequential_run dag outs env).report with ⟨hrej, -⟩ | ⟨p, hp⟩ | ⟨vals, hrep⟩
    · exact absurd ⟨hne, hk⟩ hrej
    · exact absurd hp (runSequential_no_panic hs.returns env p)
    · exact hrep.cyclicKeys hs hc
  refine ⟨fun env => ⟨fun ⟨rem, hrem⟩ hacyc => ?_, fun hc => (hseq env hc).imp fun rem h => h.1⟩, fun hc => ?_⟩
  · obtain ⟨m, hm⟩ := runSequential_ok hne hk hacyc hs env
    rw [hrem] at hm
    cases hm
  obtain ⟨rem, -, hrem⟩ := hseq default hc
  refine ⟨rem, hrem, hrem.ne_nil hc, hrem.nodup, fun env => ?_, fun cfg panics r log hv h => ?_⟩
  · obtain ⟨rem', hres, hrem'⟩ := hseq env hc
    obtain rfl := hrem'.unique hrem
    refine ⟨hres, fun c hmem nd hnd => ?_⟩
    obtain ⟨v, hval⟩ := (runSequential_run dag outs env).called_value hres c hmem
    exact hrem.not_mem hnd hval
  · have hreport : ∃ rem', r = .err (.cycle rem') ∧ CyclicKeys dag outs rem' := by
      rcases h.report with ⟨hrej, -⟩ | ⟨hp, -⟩ | ⟨-, vals, hrep⟩
      · exact absurd ⟨hv, hne, hk⟩ hrej
      · exact absurd hp (by rw [h.no_panic hs.returns]; nofun)
      · exact hrep.cyclicKeys hs hc
    obtain ⟨rem', rfl, hrem'⟩ := hreport
    obtain rfl := hrem'.unique hrem
    refine ⟨rfl, fun i hi nd hnd => ?_⟩
    obtain ⟨v, hval⟩ := h.called_value rfl i hi
    exact hrem.not_mem hnd hval

omit [DecidableEq K] in
/-- A task that depends on itself is the cycle. -/
theorem cycle_selfDep :
    (∀ env, (runSequential (Dag.selfDep 0 fun _ _ => .ok 5 : Dag Nat Nat Nat Unit) [0] env).1 = .err (.cycle [0])) ∧
    ∃ panics log, RunParallel (Dag.selfDep 0 fun _ _ => .ok 5 : Dag Nat Nat Nat Unit) ⟨4, 8, 2⟩ [0] panics
      (.err (.cycle [0])) log := by
  have hv := small_valid
  have hs : TasksSucceed (Dag.selfDep 0 fun _ _ => .ok 5 : Dag Nat Nat Nat Unit) [0] := by
    intro i f args _ hf _ w
    cases hf.selfDep
    exact ⟨5, rfl⟩
  obtain ⟨-, hcycle⟩ := cycle_exact _ [0] (by decide) Dag.selfDep_keysExist hs
  obtain ⟨rem, hrem, -, -, hseq, hpar⟩ := hcycle Dag.selfDep_not_acyclic
  obtain rfl : rem = [0] := hrem.unique ⟨[0], rfl, List.pairwise_singleton _ _, fun i => Dag.selfDep_reachesCycle⟩
  refine ⟨fun env => (hseq env).1, ?_⟩
  obtain ⟨ctx, s, ret, hrun, hpc⟩ := exists_returned hv (by decide) Dag.selfDep_keysExist hs.returns ()
  have h := RunParallel.completed hrun hpc
  rw [(hpar _ _ _ _ hv h).1] at h
  exact ⟨_, _, h⟩

/-- **Exactly-once partial evaluation.** Both executors call the functions of needed tasks only, each at most once,
whatever they return; a run that is rejected calls none, and a run that returns `Ok` has called every needed task. -/
theorem called_exactly_once (dag : Dag K O E ω) (outs : List K) :
    (∀ env, ((runSequential dag outs env).2.map Invocation.id).Nodup ∧
      (∀ i ∈ (runSequential dag outs env).2.map Invocation.id, dag.Needed outs i ∧ ∃ f, dag.IsTask i f) ∧
      (¬ (outs ≠ [] ∧ dag.KeysExist outs) → (runSequential dag outs env).2 = []) ∧
      ∀ m, (runSequential dag outs env).1 = .ok m →
        ∀ i, i ∈ (runSequential dag outs env).2.map Invocation.id ↔ dag.Needed outs i ∧ ∃ f, dag.IsTask i f) ∧
    ∀ cfg panics r log, RunParallel dag cfg outs panics r log →
      (log.filterMap Event.callId).Nodup ∧
      (∀ i ∈ log.filterMap Event.callId, dag.Needed outs i ∧ ∃ f, dag.IsTask i f) ∧
      (¬ (cfg.Valid ∧ outs ≠ [] ∧ dag.KeysExist outs) → log.filterMap Event.callId = []) ∧
      ∀ m, r = .ok m → ∀ i, i ∈ log.filterMap Event.callId ↔ dag.Needed outs i ∧ ∃ f, dag.IsTask i f := by
  refine ⟨fun env => ?_, fun cfg panics r log h => ?_⟩
  · have hrun := runSequential_run dag outs env
    refine ⟨hrun.called_nodup, hrun.called_needed, fun hrej => ?_, fun m hm i => ⟨hrun.called_needed i, fun hi => ?_⟩⟩
    · exact hrun.not_called hrej
    · obtain ⟨hn, f, hf⟩ := hi
      exact hrun.called_of_ok hm hn hf
  · refine ⟨h.called_nodup, h.called_needed, fun hrej => ?_, fun m hm i => ⟨h.called_needed i, fun hi => ?_⟩⟩
    · exact h.not_called hrej
    · obtain ⟨hn, f, hf⟩ := hi
      exact h.called_of_ok hm hn hf

end DagExec
