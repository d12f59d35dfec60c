import DagExec.Common.Report
import DagExec.Lib.GraphEmbedding

/-!
# A DAG inside a DAG

`dag'.Embeds dag ρ`: each node of `dag'` is also in `dag`, at the position `ρ` takes it to, with the same key and kind,
and its dependencies are at the positions `ρ` takes them to. What a DAG means does not depend on the positions:

- `Embeds.evaluates_iff`, `Embeds.refArgs_iff`, `Embeds.isTask_iff`: a node and its image have the same values;
- `Embeds.needed_iff`: when the requested keys are in `dag'`, the needed nodes of `dag` are the images of those of `dag'`;
- `Embeds.acyclic_iff`, `Embeds.tasksSucceed_iff`: so both are acyclic or not, and in both a task fails or none does;
- `Embeds.mem_cyclicKeys_iff`: and on a cycle the same keys are reported.
-/

namespace DagExec

open DepGraph ListFacts

variable {K O E ω : Type}

def Node.rename (ρ : NodeId → NodeId) (nd : Node K O E ω) : Node K O E ω := { nd with deps := nd.deps.map ρ }

structure Dag.Embeds (dag' dag : Dag K O E ω) (ρ : NodeId → NodeId) : Prop where
  node : ∀ i nd, dag'.nodes[i]? = some nd → dag.nodes[ρ i]? = some (nd.rename ρ)

/-- The needed nodes are those of any list that requests the same keys. -/
theorem Dag.needed_congr {dag : Dag K O E ω} {outs outs' : List K} (h : ∀ k, k ∈ outs ↔ k ∈ outs') (i : NodeId) :
    dag.Needed outs i ↔ dag.Needed outs' i := by
  have hreq : dag.Requested outs = dag.Requested outs' := by
    ext j
    unfold Dag.Requested
    simp only [h]
  unfold Dag.Needed
  rw [hreq]

namespace Dag.Embeds

variable {dag' dag : Dag K O E ω} {ρ : NodeId → NodeId} {outs : List K} {i : NodeId}

theorem get (h : dag'.Embeds dag ρ) (hi : i < dag'.nodes.length) :
    ∃ nd, dag'.nodes[i]? = some nd ∧ dag.nodes[ρ i]? = some (nd.rename ρ) := by
  have hnd := List.getElem?_eq_getElem hi
  exact ⟨_, hnd, h.node i _ hnd⟩

/-- Keys are distinct, so two nodes have different images. -/
theorem injective (h : dag'.Embeds dag ρ) : Set.InjOn ρ { i | i < dag'.nodes.length } := by
  intro i hi j hj heq
  obtain ⟨nd, hnd, hnd'⟩ := h.get hi
  obtain ⟨me, hme, hme'⟩ := h.get hj
  rw [heq, hme'] at hnd'
  refine Dag.key_injective hnd hme ?_
  exact (congrArg Node.key (Option.some.inj hnd')).symm

theorem depsOf (h : dag'.Embeds dag ρ) (hi : i < dag'.nodes.length) : dag.depsOf (ρ i) = (dag'.depsOf i).map ρ := by
  obtain ⟨nd, hnd, hnd'⟩ := h.get hi
  rw [Dag.depsOf_of_get hnd, Dag.depsOf_of_get hnd']
  rfl

/-- The dependency graphs embed. -/
theorem graph (h : dag'.Embeds dag ρ) :
    DepGraph.Embeds dag'.depsOf dag.depsOf { i | i < dag'.nodes.length } ρ where
  closed := fun _ _ _ hd => Dag.lt_of_mem_depsOf hd
  injective := h.injective
  deps_eq := fun _ hi => h.depsOf hi

/-! ## Values -/

theorem isTask_iff (h : dag'.Embeds dag ρ) (hi : i < dag'.nodes.length) {f : TaskFn O E ω} :
    dag.IsTask (ρ i) f ↔ dag'.IsTask i f := by
  obtain ⟨nd, hnd, hnd'⟩ := h.get hi
  constructor
  · intro hf
    have hk := hf.get hnd'
    exact ⟨nd, hnd, hk⟩
  · intro hf
    have hk := hf.get hnd
    exact ⟨_, hnd', hk⟩

theorem deterministic (h : dag'.Embeds dag ρ) (hdet : dag.Deterministic) : dag'.Deterministic := by
  intro i f hf
  exact hdet (ρ i) f ((h.isTask_iff hf.lt).mpr hf)

theorem evaluates (h : dag'.Embeds dag ρ) {v : O} (hv : Evaluates dag' i v) : Evaluates dag (ρ i) v := by
  induction hv with
  | source hi hk => exact .source (h.node _ _ hi) hk
  | task hi hk hlen hargs hf ih =>
    refine .task (h.node _ _ hi) hk (hlen.trans (List.length_map _).symm) (fun j d a hd ha => ?_) hf
    obtain ⟨d', hd', rfl⟩ := List.mem_map.mp (List.mem_of_getElem? hd)
    simp only [Node.rename, List.getElem?_map, Option.map_eq_some_iff] at hd
    obtain ⟨d'', hd'', heq⟩ := hd
    rw [← heq]
    exact ih j d'' a hd'' ha

theorem evaluates_iff (h : dag'.Embeds dag ρ) (hi : i < dag'.nodes.length) {v : O} :
    Evaluates dag (ρ i) v ↔ Evaluates dag' i v := by
  refine ⟨fun hv => ?_, h.evaluates⟩
  generalize hj : ρ i = j at hv
  induction hv generalizing i with
  | source hnd hk =>
    obtain ⟨nd', hnd', hren⟩ := h.get hi
    rw [hj, hnd, Option.some.injEq] at hren
    subst hren
    exact .source hnd' hk
  | task hnd hk hlen hargs hf ih =>
    obtain ⟨nd', hnd', hren⟩ := h.get hi
    rw [hj, hnd, Option.some.injEq] at hren
    subst hren
    refine .task hnd' hk (hlen.trans (List.length_map _)) (fun p d a hd ha => ?_) hf
    have hd' : (nd'.rename ρ).deps[p]? = some (ρ d) := by simp only [Node.rename, List.getElem?_map, hd, Option.map_some]
    exact ih p (ρ d) a hd' ha (dag'.deps_lt nd' (List.mem_of_getElem? hnd') d (List.mem_of_getElem? hd)) rfl

theorem refArgs_iff (h : dag'.Embeds dag ρ) (hi : i < dag'.nodes.length) {args : List O} :
    RefArgs dag (ρ i) args ↔ RefArgs dag' i args := by
  unfold RefArgs
  rw [h.depsOf hi]
  exact forall₂_map_congr fun d hd v => h.evaluates_iff (Dag.lt_of_mem_depsOf hd)

/-! ## The needed nodes -/

theorem index_iff (h : dag'.Embeds dag ρ) (hi : i < dag'.nodes.length) (k : K) :
    dag.index.get k = some (ρ i) ↔ dag'.index.get k = some i := by
  obtain ⟨nd, hnd, hnd'⟩ := h.get hi
  rw [dag.index_get, dag'.index_get, hnd, hnd']
  rfl

/-- A key of `dag'` names in `dag` the image of the node it names in `dag'`. -/
theorem index_get (h : dag'.Embeds dag ρ) {k : K} (hk : dag'.index.get k = some i) : dag.index.get k = some (ρ i) :=
  (h.index_iff (Dag.index_lt hk) k).mpr hk

theorem keysExist (h : dag'.Embeds dag ρ) (hk : dag'.KeysExist outs) : dag.KeysExist outs := by
  intro k hmem
  obtain ⟨i, hi⟩ := hk k hmem
  exact ⟨ρ i, h.index_get hi⟩

theorem requested (h : dag'.Embeds dag ρ) (hk : dag'.KeysExist outs) :
    dag.Requested outs = ρ '' dag'.Requested outs := by
  ext j
  constructor
  · rintro ⟨k, hmem, hj⟩
    obtain ⟨i, hi⟩ := hk k hmem
    rw [h.index_get hi, Option.some.injEq] at hj
    exact ⟨i, ⟨k, hmem, hi⟩, hj⟩
  · rintro ⟨i, ⟨k, hmem, hi⟩, rfl⟩
    exact ⟨k, hmem, h.index_get hi⟩

/-- **The needed nodes** are the images of the needed nodes. -/
theorem needed_iff (h : dag'.Embeds dag ρ) (hk : dag'.KeysExist outs) {j : NodeId} :
    dag.Needed outs j ↔ ∃ i, dag'.Needed outs i ∧ ρ i = j := by
  unfold Dag.Needed
  rw [h.requested hk]
  refine h.graph.closure_iff ?_
  rintro i ⟨k, -, hi⟩
  exact Dag.index_lt hi

/-! ## Cycles and failures -/

theorem acyclic_iff (h : dag'.Embeds dag ρ) (hk : dag'.KeysExist outs) : dag.Acyclic outs ↔ dag'.Acyclic outs := by
  constructor
  · intro hc i hi hcyc
    exact hc (ρ i) ((h.needed_iff hk).mpr ⟨i, hi, rfl⟩) ((h.graph.onCycle_iff hi.lt).mpr hcyc)
  · intro hc j hj hcyc
    obtain ⟨i, hi, rfl⟩ := (h.needed_iff hk).mp hj
    exact hc i hi ((h.graph.onCycle_iff hi.lt).mp hcyc)

theorem tasksSucceed_iff (h : dag'.Embeds dag ρ) (hk : dag'.KeysExist outs) :
    TasksSucceed dag outs ↔ TasksSucceed dag' outs := by
  constructor
  · intro hs i f args hi hf ha
    exact hs (ρ i) f args ((h.needed_iff hk).mpr ⟨i, hi, rfl⟩) ((h.isTask_iff hi.lt).mpr hf)
      ((h.refArgs_iff hi.lt).mpr ha)
  · intro hs j f args hj hf ha
    obtain ⟨i, hi, rfl⟩ := (h.needed_iff hk).mp hj
    exact hs i f args hi ((h.isTask_iff hi.lt).mp hf) ((h.refArgs_iff hi.lt).mp ha)

/-- A key is reported in `dag` exactly when it is reported in `dag'`. -/
theorem mem_cyclicKeys_iff (h : dag'.Embeds dag ρ) (hk : dag'.KeysExist outs) {rem rem' : List K}
    (hrem : CyclicKeys dag outs rem) (hrem' : CyclicKeys dag' outs rem') (k : K) : k ∈ rem ↔ k ∈ rem' := by
  obtain ⟨ids, rfl, -, hids⟩ := hrem
  obtain ⟨ids', rfl, -, hids'⟩ := hrem'
  rw [Dag.mem_keysOf, Dag.mem_keysOf]
  constructor
  · rintro ⟨j, hj, nd, hnd, rfl⟩
    obtain ⟨hn, hc⟩ := (hids j).mp hj
    obtain ⟨i, hi, rfl⟩ := (h.needed_iff hk).mp hn
    obtain ⟨nd', hnd', hren⟩ := h.get hi.lt
    rw [hnd, Option.some.injEq] at hren
    subst hren
    exact ⟨i, (hids' i).mpr ⟨hi, (h.graph.reachesCycle_iff hi.lt).mp hc⟩, nd', hnd', rfl⟩
  · rintro ⟨i, hi, nd, hnd, rfl⟩
    obtain ⟨hn, hc⟩ := (hids' i).mp hi
    refine ⟨ρ i, (hids _).mpr ⟨(h.needed_iff hk).mpr ⟨i, hn, rfl⟩, (h.graph.reachesCycle_iff hn.lt).mpr hc⟩, _,
      h.node i nd hnd, rfl⟩

end Dag.Embeds

end DagExec
