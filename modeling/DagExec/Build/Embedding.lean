import DagExec.Build.Calls
import DagExec.Spec.Embedding
import Mathlib.Data.List.NodupEquivFin

/-!
# Calls among calls

A graph built from some of the calls another graph is built from is inside it: a node is found at the position of its
key (`BuiltFrom.embeds`). For this the order of the calls does not matter; when it is the same, the nodes are in the
same order too (`BuiltFrom.sameKey_mono`).
-/

namespace DagExec

variable {K O E ω : Type} {dag dag' : Dag K O E ω} {calls calls' : List (AddCall K O E ω)}

/-- The position in `dag` of the key at position `i` of `dag'`. -/
def Dag.sameKey (dag' dag : Dag K O E ω) (i : NodeId) : NodeId :=
  ((dag'.nodes[i]?.map Node.key).bind dag.index.get).getD 0

theorem Dag.sameKey_of_get {i j : NodeId} {nd : Node K O E ω} (hi : dag'.nodes[i]? = some nd)
    (hj : dag.index.get nd.key = some j) : dag'.sameKey dag i = j := by
  unfold sameKey
  rw [hi, Option.map_some, Option.bind_some, hj, Option.getD_some]

/-- In the graph itself, a key is at its position. -/
theorem Dag.sameKey_self {i : NodeId} (hi : i < dag.nodes.length) : dag.sameKey dag i = i := by
  have hnd := List.getElem?_eq_getElem hi
  refine sameKey_of_get hnd ?_
  rw [dag.index_get, hnd]
  rfl

/-- The node of a call, by the keys of its dependencies. -/
theorem Dag.BuiltFrom.rename_eq (h : dag.BuiltFrom calls) (h' : dag'.BuiltFrom calls') {i j : NodeId}
    {c : AddCall K O E ω} (hi : calls'[i]? = some c) (hj : calls[j]? = some c) :
    ∃ nd, dag'.nodes[i]? = some nd ∧ dag.nodes[j]? = some (nd.rename (dag'.sameKey dag)) := by
  obtain ⟨nd', hnd', hkey', hkind', hdeps'⟩ := h'.node i c hi
  obtain ⟨nd, hnd, hkey, hkind, hdeps⟩ := h.node j c hj
  refine ⟨nd', hnd', hnd.trans (congrArg some ?_)⟩
  have hlist : nd.deps = nd'.deps.map (dag'.sameKey dag) := by
    let position : Option K → NodeId := fun o => (o.bind dag.index.get).getD 0
    have hself : nd.deps.map (dag.sameKey dag) = nd.deps := by
      refine (List.map_congr_left fun d hd => ?_).trans (List.map_id _)
      exact Dag.sameKey_self (dag.deps_lt nd (List.mem_of_getElem? hnd) d hd)
    calc nd.deps = nd.deps.map (dag.sameKey dag) := hself.symm
      _ = (nd.deps.map fun d => dag.nodes[d]?.map Node.key).map position := by rw [List.map_map]; rfl
      _ = (nd'.deps.map fun d => dag'.nodes[d]?.map Node.key).map position := by rw [hdeps, hdeps']
      _ = nd'.deps.map (dag'.sameKey dag) := by rw [List.map_map]; rfl
  obtain ⟨key, deps, kind⟩ := nd
  simp only [Node.rename, Node.mk.injEq]
  exact ⟨hkey.trans hkey'.symm, hlist, hkind.trans hkind'.symm⟩

/-- A call is at the position of its key. -/
theorem Dag.BuiltFrom.sameKey_eq (h : dag.BuiltFrom calls) (h' : dag'.BuiltFrom calls') {i j : NodeId}
    {c : AddCall K O E ω} (hi : calls'[i]? = some c) (hj : calls[j]? = some c) : dag'.sameKey dag i = j := by
  obtain ⟨nd, hnd, hkey, -⟩ := h'.node i c hi
  refine Dag.sameKey_of_get hnd ?_
  rw [h.index_iff]
  exact ⟨c, hj, hkey.symm⟩

/-- **A graph built from some of the calls is inside the graph built from all of them.** -/
theorem Dag.BuiltFrom.embeds (h : dag.BuiltFrom calls) (h' : dag'.BuiltFrom calls') (hsub : calls' ⊆ calls) :
    dag'.Embeds dag (dag'.sameKey dag) := by
  refine ⟨fun i nd' hnd' => ?_⟩
  have hlt : i < calls'.length := h'.length ▸ (List.getElem?_eq_some_iff.mp hnd').1
  have hi := List.getElem?_eq_getElem hlt
  obtain ⟨j, hj⟩ := List.getElem?_of_mem (hsub (List.getElem_mem hlt))
  obtain ⟨nd, hnd, hren⟩ := h.rename_eq h' hi hj
  rw [hnd', Option.some.injEq] at hnd
  subst hnd
  rw [h.sameKey_eq h' hi hj]
  exact hren

/-- If the calls are in the same order, so are the nodes. -/
theorem Dag.BuiltFrom.sameKey_mono (h : dag.BuiltFrom calls) (h' : dag'.BuiltFrom calls') (hsub : calls'.Sublist calls)
    {i j : NodeId} (hij : i < j) (hj : j < dag'.nodes.length) : dag'.sameKey dag i < dag'.sameKey dag j := by
  obtain ⟨f, hf⟩ := List.sublist_iff_exists_orderEmbedding_getElem?_eq.mp hsub
  have hpos : ∀ i < calls'.length, dag'.sameKey dag i = f i := by
    intro i hi
    have hget := List.getElem?_eq_getElem hi
    exact h.sameKey_eq h' hget ((hf i).symm.trans hget)
  rw [h'.length] at hj
  rw [hpos i (Nat.lt_trans hij hj), hpos j hj]
  exact f.lt_iff_lt.mpr hij

end DagExec
