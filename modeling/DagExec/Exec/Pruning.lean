import DagExec.Build.Embedding
import DagExec.Seq.Renaming

/-!
# Pruning

`Dag.pruneCalls dag outs calls`: the calls a graph is built from, without those of the nodes that the outputs do not
need. They build a graph that is inside the original one, in the same order (`pruneCalls_inside`), so `run_sequential`
does the same on both (`pruning_invisible`): nothing outside the needed subgraph has an influence on a run.
-/

namespace DagExec

open DagBuilder

variable {K O E ω : Type} {dag dag' : Dag K O E ω} {outs : List K} {calls : List (AddCall K O E ω)}

/-- The key names a needed node. -/
def Dag.NeedsKey (dag : Dag K O E ω) (outs : List K) (k : K) : Prop :=
  ∃ i, dag.index.get k = some i ∧ dag.Needed outs i

open Classical in
/-- The calls without those of nodes that are not needed. -/
noncomputable def Dag.pruneCalls (dag : Dag K O E ω) (outs : List K) (calls : List (AddCall K O E ω)) :
    List (AddCall K O E ω) := calls.filter fun c => decide (dag.NeedsKey outs c.key)

/-- What an invocation calls: the node's key, its function and the arguments. -/
def Dag.invoked (dag : Dag K O E ω) (c : Invocation O) : Option (K × NodeKind O E ω) × List O :=
  (dag.nodes[c.id]?.map fun nd => (nd.key, nd.kind), c.args)

theorem Dag.mem_pruneCalls {c : AddCall K O E ω} :
    c ∈ dag.pruneCalls outs calls ↔ c ∈ calls ∧ dag.NeedsKey outs c.key := by
  classical
  unfold pruneCalls
  rw [List.mem_filter, decide_eq_true_iff]

theorem Dag.needsKey_of_requested (hk : dag.KeysExist outs) {k : K} (hmem : k ∈ outs) : dag.NeedsKey outs k := by
  obtain ⟨i, hi⟩ := hk k hmem
  exact ⟨i, hi, .base ⟨k, hmem, hi⟩⟩

/-- The keys of the calls that are left are the needed ones. -/
theorem Dag.BuiltFrom.pruned_keys (h : dag.BuiltFrom calls) (k : K) :
    k ∈ keysOfCalls (dag.pruneCalls outs calls) ↔ dag.NeedsKey outs k := by
  unfold keysOfCalls
  rw [List.mem_map]
  constructor
  · rintro ⟨c, hc, rfl⟩
    exact (Dag.mem_pruneCalls.mp hc).2
  · intro hn
    obtain ⟨i, hi, -⟩ := id hn
    obtain ⟨c, hc, rfl⟩ := (h.index_iff k i).mp hi
    exact ⟨c, Dag.mem_pruneCalls.mpr ⟨List.mem_of_getElem? hc, hn⟩, rfl⟩

/-- The dependencies of a call that is left are left. -/
theorem Dag.BuiltFrom.pruned_deps (h : dag.BuiltFrom calls) {c : AddCall K O E ω} (hc : c ∈ dag.pruneCalls outs calls)
    {k : K} (hk : k ∈ c.deps) : dag.NeedsKey outs k := by
  obtain ⟨hmem, i, hi, hn⟩ := Dag.mem_pruneCalls.mp hc
  obtain ⟨j, hj⟩ := List.getElem?_of_mem hmem
  have hij : dag.index.get c.key = some j := (h.index_iff c.key j).mpr ⟨c, hj, rfl⟩
  rw [hi, Option.some.injEq] at hij
  subst hij
  obtain ⟨nd, hnd, -, -, hdeps⟩ := h.node i c hj
  have hsome : some k ∈ nd.deps.map fun d => dag.nodes[d]?.map Node.key := by
    rw [hdeps]
    exact List.mem_map_of_mem hk
  obtain ⟨d, hd, hkey⟩ := List.mem_map.mp hsome
  refine ⟨d, (dag.index_get k d).mpr hkey, hn.dep ?_⟩
  rwa [Dag.depsOf_of_get hnd]

variable [DecidableEq K]

/-- Pruning the calls prunes the accepted ones. -/
theorem accepted_pruneCalls (dag : Dag K O E ω) (outs : List K) (calls : List (AddCall K O E ω)) :
    (new : DagBuilder K O E ω).accepted (dag.pruneCalls outs calls) =
      dag.pruneCalls outs ((new : DagBuilder K O E ω).accepted calls) := by
  classical
  exact accepted_filter (fun k => decide (dag.NeedsKey outs k)) (fun k _ => Iff.rfl) calls

/-- **The calls that are left build a graph inside the original one.** -/
theorem pruneCalls_inside (hb : (ofCalls calls).build = .ok dag) (hne : outs ≠ []) (hk : dag.KeysExist outs) :
    ∃ dag', (ofCalls (dag.pruneCalls outs calls)).build = .ok dag' ∧ dag'.Inside dag (dag'.sameKey dag) outs := by
  have hfrom := build_builtFrom (ofCalls_staging calls) hb
  have hstaging := ofCalls_staging (dag.pruneCalls outs calls)
  rw [accepted_pruneCalls] at hstaging
  generalize (new : DagBuilder K O E ω).accepted calls = acc at hfrom hstaging
  have hleft : dag.pruneCalls outs acc ≠ [] := by
    obtain ⟨k, hmem⟩ := List.exists_mem_of_ne_nil _ hne
    intro hnil
    have hkeys := (hfrom.pruned_keys k).mpr (Dag.needsKey_of_requested hk hmem)
    rw [hnil] at hkeys
    cases hkeys
  have hdeps : ∀ c ∈ dag.pruneCalls outs acc, ∀ k ∈ c.deps, k ∈ keysOfCalls (dag.pruneCalls outs acc) :=
    fun c hc k hkd => (hfrom.pruned_keys k).mpr (hfrom.pruned_deps hc hkd)
  obtain ⟨dag', hb'⟩ := (build_ok_iff hstaging).mpr ⟨hleft, hdeps⟩
  have hfrom' := build_builtFrom hstaging hb'
  have hsub : (dag.pruneCalls outs acc).Sublist acc := List.filter_sublist
  refine ⟨dag', hb', hfrom.embeds hfrom' hsub.subset, fun i j => hfrom.sameKey_mono hfrom' hsub, fun k hmem => ?_⟩
  obtain ⟨c, hc, rfl⟩ := List.mem_map.mp ((hfrom.pruned_keys k).mpr (Dag.needsKey_of_requested hk hmem))
  obtain ⟨i, hi⟩ := List.getElem?_of_mem hc
  exact ⟨i, (hfrom'.index_iff _ i).mpr ⟨c, hi, rfl⟩⟩

/-- **Pruning is invisible.** Let a graph be built from some calls, and let the outputs be existing keys. The calls
without those of nodes that are not needed build a graph too, and on both `run_sequential` returns the same: the same
map, the same failed task and error, the same keys of a cycle in the same order. It calls the same task functions with
the same arguments in the same order. -/
theorem pruning_invisible (calls : List (AddCall K O E ω)) (dag : Dag K O E ω) (hb : (ofCalls calls).build = .ok dag)
    (outs : List K) (hne : outs ≠ []) (hk : dag.KeysExist outs) :
    ∃ dag', (ofCalls (dag.pruneCalls outs calls)).build = .ok dag' ∧
      ∀ env, (runSequential dag' outs env).1 = (runSequential dag outs env).1 ∧
        (runSequential dag' outs env).2.map dag'.invoked = (runSequential dag outs env).2.map dag.invoked := by
  obtain ⟨dag', hb', hin⟩ := pruneCalls_inside hb hne hk
  refine ⟨dag', hb', fun env => ?_⟩
  obtain ⟨hres, hcalls⟩ := hin.same_run hne env
  refine ⟨hres.symm, ?_⟩
  rw [hcalls, List.map_map]
  refine List.map_congr_left fun c hc => ?_
  -- a called node is a node of the pruned graph, and its image has the same key and function
  have hlt := ((runSequential_run dag' outs env).called_needed c.id (List.mem_map_of_mem hc)).1.lt
  obtain ⟨nd, hnd, hren⟩ := hin.embeds.get hlt
  simp only [Function.comp_apply, Dag.invoked, Invocation.rename, hnd, hren]
  rfl

omit [DecidableEq K] in
/-- A source, next to a failing task that depends on itself. -/
theorem pruning_junk : ∃ dag dag' : Dag Nat Nat Nat Unit,
    (ofCalls [.source 0 5, .task 1 [1] fun _ _ => .err 7]).build = .ok dag ∧
    (ofCalls (dag.pruneCalls [0] [.source 0 5, .task 1 [1] fun _ _ => .err 7])).build = .ok dag' ∧
    (runSequential dag' [0] fun _ => ()).1 = (runSequential dag [0] fun _ => ()).1 := by
  obtain ⟨dag, hb⟩ : ∃ dag : Dag Nat Nat Nat Unit,
      (ofCalls [.source 0 5, .task 1 [1] fun _ _ => .err 7]).build = .ok dag := ⟨_, rfl⟩
  have hk : dag.KeysExist [0] := by
    intro k hmem
    rw [List.mem_singleton] at hmem
    cases hb
    exact ⟨0, by rw [hmem]; rfl⟩
  obtain ⟨dag', hb', hrun⟩ := pruning_invisible _ dag hb [0] (by decide) hk
  exact ⟨dag, dag', hb, hb', (hrun fun _ => ()).1⟩

end DagExec
