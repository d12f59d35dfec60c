import DagExec.Trace.Finalize

/-!
# What a trace says

Read off the stamps and the laws of the log of calls, for any run whose calls are `Complete`:

- `Traced.wellTraced`: the entries are those of the needed nodes, each once, dependencies first, and times are in order;
- `Traced.roots_le`, `Traced.width_le`: the bounds of the frontier width;
- `Traced.criticalPath`: the critical path, by the reported durations;
- `Traced.pathsInTime`: for a monotone clock, no path takes longer than the time to the finish of its last node.
-/

namespace DagExec

open Outcome Lifecycle LongestPath

variable {K O E ω : Type}

/-- The run duration that a trace reports for a node. -/
def ExecutionTrace.runDuration (tr : ExecutionTrace K) (i : NodeId) : Nat :=
  ((tr.nodes.find? fun e => e.nodeId == i).map NodeTrace.runDuration).getD 0

/-- The lengths of the dependency paths of the needed subgraph: of nonempty lists of needed nodes each of which is a
dependency of the next, the sums of the weights. -/
def Dag.PathTimes (dag : Dag K O E ω) (outs : List K) (w : NodeId → Nat) : Set Nat :=
  { t | ∃ path : List NodeId, path ≠ [] ∧ (∀ i ∈ path, dag.Needed outs i) ∧
    path.IsChain (fun d i => d ∈ dag.depsOf i) ∧ t = (path.map w).sum }

/-- A trace is complete, topological and, for a monotone clock, consistent in time. -/
structure WellTraced (dag : Dag K O E ω) (outs : List K) (clock : Nat → Nat) (tr : ExecutionTrace K) : Prop where
  complete : ∀ i, i ∈ tr.nodes.map NodeTrace.nodeId ↔ dag.Needed outs i
  nodup : (tr.nodes.map NodeTrace.nodeId).Nodup
  executed : tr.executedNodes = { i | dag.Needed outs i }.ncard
  node : ∀ e ∈ tr.nodes, ∃ nd, dag.nodes[e.nodeId]? = some nd ∧ e.key = nd.key ∧ e.deps = nd.deps ∧
    e.kind = nd.kind.traceKind
  topological : ∀ pre e post, tr.nodes = pre ++ e :: post → ∀ d ∈ e.deps, ∃ e' ∈ pre, e'.nodeId = d
  timely : Monotone clock → ∀ e ∈ tr.nodes, e.readyAt ≤ e.startedAt ∧ e.startedAt ≤ e.finishedAt ∧
    e.finishedAt ≤ tr.wallTime ∧ ∀ d ∈ e.deps, ∀ e' ∈ tr.nodes, e'.nodeId = d → e'.finishedAt ≤ e.readyAt

/-- A trace made from complete calls. -/
structure Traced (dag : Dag K O E ω) (outs : List K) (clock : Nat → Nat) (needed : List Bool) (hooks : List Hook)
    (r : TraceObserver) (tr : ExecutionTrace K) : Prop where
  complete : Complete dag outs needed hooks
  stamps : Stamps clock dag.nodes.length hooks r
  reported : Reported dag outs r tr

/-- The loop of `finalize` that makes the trace leaves a table of longest paths in which the path to each needed node is
over when the node has finished, and the critical path is over at the end. -/
structure PathsInTime (dag : Dag K O E ω) (outs : List K) (r : TraceObserver) (needed : List Bool)
    (tr : ExecutionTrace K) : Prop where
  finalized : r.finalize dag needed = (ok tr : Outcome (ExecError K E) _)
  longest : ∃ longest, r.executionOrder.foldlM (r.finalizeBody dag needed) ([], List.replicate dag.nodes.length 0, 0) =
      (ok (tr.nodes, longest, tr.criticalPathTime) : Outcome (ExecError K E) _) ∧
    ∀ i, dag.Needed outs i → ∃ e ∈ tr.nodes, ∃ path, e.nodeId = i ∧ longest[i]? = some path ∧
      path ≤ e.finishedAt ∧ e.finishedAt ≤ tr.wallTime
  critical : tr.criticalPathTime ≤ tr.wallTime

namespace Traced

variable {dag : Dag K O E ω} {outs : List K} {clock : Nat → Nat} {needed : List Bool} {hooks : List Hook}
  {r : TraceObserver} {tr : ExecutionTrace K} (h : Traced dag outs clock needed hooks r tr)
include h

theorem nodeIds : tr.nodes.map NodeTrace.nodeId = (hooks.map Hook.note).filterMap started := by
  rw [← h.stamps.order]
  have hnodes := h.reported.nodes
  generalize r.executionOrder = order, tr.nodes = es at hnodes
  induction hnodes with
  | nil => rfl
  | cons he _ ih => rw [List.map_cons, he.nodeId, ih]

theorem mem_nodeIds (i : NodeId) : i ∈ tr.nodes.map NodeTrace.nodeId ↔ dag.Needed outs i := by
  rw [h.nodeIds, mem_starts, h.complete.all]

theorem entry {e : NodeTrace K} (he : e ∈ tr.nodes) : Entry dag r e.nodeId e := by
  obtain ⟨i, -, hentry⟩ := ListFacts.forall₂_mem_right h.reported.nodes he
  rw [hentry.nodeId]
  exact hentry

theorem needed_of_mem {e : NodeTrace K} (he : e ∈ tr.nodes) : dag.Needed outs e.nodeId :=
  (h.mem_nodeIds _).mp (List.mem_map_of_mem he)

theorem deps_of_mem {e : NodeTrace K} (he : e ∈ tr.nodes) : e.deps = dag.depsOf e.nodeId := by
  obtain ⟨nd, hnd, -, hdeps, -⟩ := (h.entry he).node
  rw [hdeps, Dag.depsOf_of_get hnd]

/-- The moments of an entry, by their positions among the calls. -/
theorem moments {e : NodeTrace K} (he : e ∈ tr.nodes) : ∃ p q t : ℕ,
    (hooks.map Hook.note)[p]? = some (.ready, e.nodeId) ∧ (hooks.map Hook.note)[q]? = some (.start, e.nodeId) ∧
    (hooks.map Hook.note)[t]? = some (.finish, e.nodeId) ∧ e.readyAt = clock p ∧ e.startedAt = clock q ∧
    e.finishedAt = clock t := by
  have hentry := h.entry he
  obtain ⟨p, hp, hcp⟩ := (h.stamps.ready.stamp _ _).mp hentry.ready
  obtain ⟨q, hq, hcq⟩ := (h.stamps.start.stamp _ _).mp hentry.start
  obtain ⟨t, ht, hct⟩ := (h.stamps.finish.stamp _ _).mp hentry.finish
  exact ⟨p, q, t, hp, hq, ht, hcp.symm, hcq.symm, hct.symm⟩

theorem wallTime : tr.wallTime = clock hooks.length := by
  rw [h.reported.wallTime, h.stamps.now, List.length_map]

theorem wellTraced : WellTraced dag outs clock tr := by
  have hlawful := h.complete.lawful
  have hnd : (tr.nodes.map NodeTrace.nodeId).Nodup := by
    rw [h.nodeIds]
    exact hlawful.starts_nodup
  refine ⟨h.mem_nodeIds, hnd, ?_, fun e he => (h.entry he).node, fun pre e post hsplit d hd => ?_, fun hclock e he => ?_⟩
  · have hset : { i | dag.Needed outs i } = ((tr.nodes.map NodeTrace.nodeId).toFinset : Set NodeId) :=
      Set.ext fun i => by simpa using (h.mem_nodeIds i).symm
    rw [hset, Set.ncard_coe_finset, List.toFinset_card_of_nodup hnd, List.length_map, h.reported.executedNodes]
  · have he : e ∈ tr.nodes := by rw [hsplit]; simp
    rw [h.deps_of_mem he] at hd
    have hids := h.nodeIds
    rw [hsplit, List.map_append, List.map_cons] at hids
    exact List.mem_map.mp (hlawful.starts_topological hids.symm d hd)
  · obtain ⟨p, q, t, hp, hq, ht, hready, hstart, hfinish⟩ := h.moments he
    have hpq := hlawful.ready_lt_start hp hq
    have hqt := hlawful.start_lt_finish hq ht
    have htl : t < hooks.length := by simpa using (List.getElem?_eq_some_iff.mp ht).1
    rw [hready, hstart, hfinish, h.wallTime]
    refine ⟨hclock (by omega), hclock (by omega), hclock (by omega), fun d hd e' he' hid => ?_⟩
    obtain ⟨-, -, t', -, -, ht', -, -, hfinish'⟩ := h.moments he'
    rw [h.deps_of_mem he, ← hid] at hd
    have hlt := hlawful.finish_lt_ready hd ht' hp
    rw [hfinish']
    exact hclock (by omega)

/-! ## The frontier -/

/-- The seeded nodes are told of first, so the widest frontier is at least as wide as they are many. -/
theorem roots_le : (dag.Roots outs).ncard ≤ tr.maxFrontierWidth := by
  obtain ⟨ids, hpre, hlen⟩ := h.complete.seeded
  rw [← hlen, h.reported.maxFrontierWidth]
  by_cases hids : ids = []
  · rw [hids]
    exact Nat.zero_le _
  · obtain ⟨id, hid⟩ := last_mem_readyHooks 0 hids
    have := h.stamps.width id _ (hpre.subset hid)
    omega

theorem width_le : tr.maxFrontierWidth ≤ dag.antichainWidth outs := by
  rw [h.reported.maxFrontierWidth]
  rcases h.stamps.width_reached with h0 | ⟨id, hid⟩
  · rw [h0]
    exact Nat.zero_le _
  · obtain ⟨T, hT, hcard⟩ := h.complete.width id _ hid
    exact Nat.le_trans hcard hT.card_le_width

/-! ## The critical path -/

theorem runDuration_eq {i : NodeId} (hi : dag.Needed outs i) : tr.runDuration i = r.duration i := by
  obtain ⟨e, he, hid⟩ := List.mem_map.mp ((h.mem_nodeIds i).mpr hi)
  unfold ExecutionTrace.runDuration
  cases hfind : tr.nodes.find? fun e => e.nodeId == i with
  | none =>
    have := List.find?_eq_none.mp hfind e he
    simp [hid] at this
  | some e' =>
    have hid' : e'.nodeId = i := by simpa using List.find?_some hfind
    have hentry := h.entry (List.mem_of_find?_eq_some hfind)
    rw [hid'] at hentry
    exact hentry.duration

/-- The critical path time is the length of a longest dependency path, by the reported durations. -/
theorem criticalPath : IsGreatest (dag.PathTimes outs tr.runDuration) tr.criticalPathTime := by
  have hsum : ∀ path : List NodeId, (∀ i ∈ path, dag.Needed outs i) →
      (path.map tr.runDuration).sum = (path.map r.duration).sum := fun path hpath => by
    rw [List.map_congr_left fun i hi => h.runDuration_eq (hpath i hi)]
  obtain ⟨⟨i, hi, hreached⟩, hupper⟩ := h.reported.criticalPathTime
  constructor
  · obtain ⟨path, hchain, hlen⟩ := pathTo_iff.mp hreached
    have hall := forall_mem_of_chain (P := dag.Needed outs) (fun j hj d hd => hj.dep hd) hchain hi
    exact ⟨path ++ [i], by simp, hall, hchain, hlen.trans (hsum _ hall).symm⟩
  · rintro t ⟨path, hne, hall, hchain, rfl⟩
    obtain ⟨init, last, rfl⟩ := List.eq_nil_or_concat path |>.resolve_left hne
    rw [List.concat_eq_append] at hall hchain ⊢
    rw [hsum _ hall]
    exact hupper ⟨last, hall last (by simp), pathTo_iff.mpr ⟨init, hchain, rfl⟩⟩

/-! ## Paths in time -/

theorem finalized : r.finalize dag needed = (ok tr : Outcome (ExecError K E) _) := by
  obtain ⟨tr', htr, hrep⟩ := finalize_ok (ε := ExecError K E) h.complete h.stamps
  rw [htr, hrep.unique h.reported]

/-- The slots of an entry's node. -/
theorem slots {e : NodeTrace K} (he : e ∈ tr.nodes) : (valAt r.startedAt e.nodeId).getD 0 = e.startedAt ∧
    (valAt r.finishedAt e.nodeId).getD 0 = e.finishedAt := by
  have hentry := h.entry he
  rw [valAt_eq_some.mpr hentry.start, valAt_eq_some.mpr hentry.finish]
  exact ⟨rfl, rfl⟩

/-- A path is over when its last node has finished: the run intervals along it are disjoint, since a node starts after
its dependencies have finished, however many other nodes run at the same time. -/
theorem path_le_finish (hclock : Monotone clock) {e : NodeTrace K} (he : e ∈ tr.nodes) {t : ℕ}
    (ht : PathTo dag.depsOf r.duration e.nodeId t) : t ≤ e.finishedAt := by
  have htimely := h.wellTraced.timely hclock
  have hentry : ∀ i, dag.Needed outs i → ∃ e ∈ tr.nodes, e.nodeId = i := fun i hi =>
    List.mem_map.mp ((h.mem_nodeIds i).mpr hi)
  let start : NodeId → ℕ := fun i => (valAt r.startedAt i).getD 0
  let finish : NodeId → ℕ := fun i => (valAt r.finishedAt i).getD 0
  have hrun : ∀ i, dag.Needed outs i → start i + r.duration i ≤ finish i := by
    intro i hi
    obtain ⟨e, he, rfl⟩ := hentry i hi
    obtain ⟨-, hrun, -⟩ := htimely e he
    simp only [start, finish, TraceObserver.duration, h.slots he]
    omega
  have hdep : ∀ i, dag.Needed outs i → ∀ d ∈ dag.depsOf i, finish d ≤ start i := by
    intro i hi d hd
    obtain ⟨e, he, rfl⟩ := hentry i hi
    obtain ⟨e', he', rfl⟩ := hentry d (hi.dep hd)
    obtain ⟨hready, -, -, hdeps⟩ := htimely e he
    have hfinished := hdeps e'.nodeId (h.deps_of_mem he ▸ hd) e' he' rfl
    simp only [start, finish, h.slots he, h.slots he']
    omega
  have hle := ht.le_finish (fun i hi d hd => hi.dep hd) hrun hdep (h.needed_of_mem he)
  rwa [show finish e.nodeId = e.finishedAt from (h.slots he).2] at hle

theorem pathsInTime (hclock : Monotone clock) : PathsInTime dag outs r needed tr := by
  have htimely := h.wellTraced.timely hclock
  obtain ⟨acc, hfold, hf⟩ := finalize_loop (ε := ExecError K E) h.complete h.stamps
  have hfin := h.finalized
  rw [TraceObserver.finalize, hfold, ok_bind, pure_eq, ok.injEq] at hfin
  have hentry : ∀ i, dag.Needed outs i → ∃ e ∈ tr.nodes, e.nodeId = i := fun i hi =>
    List.mem_map.mp ((h.mem_nodeIds i).mpr hi)
  refine ⟨h.finalized, ⟨acc.2.1, ?_, fun i hi => ?_⟩, ?_⟩
  · rw [hfold, ← hfin]
  · obtain ⟨e, he, rfl⟩ := hentry i hi
    have hlt : e.nodeId < acc.2.1.length := hf.length.symm ▸ hi.lt
    have hpath := (hf.longest e.nodeId ((h.complete.mem_order h.stamps e.nodeId).mpr hi)).1
    refine ⟨e, he, counter acc.2.1 e.nodeId, rfl, ?_, h.path_le_finish hclock he hpath, (htimely e he).2.2.1⟩
    exact (index_eq_ok (ε := ExecError K E)).mp (index_counter hlt)
  · obtain ⟨i, hi, hpath⟩ := h.reported.criticalPathTime.1
    obtain ⟨e, he, rfl⟩ := hentry i hi
    exact Nat.le_trans (h.path_le_finish hclock he hpath) (htimely e he).2.2.1

end Traced

end DagExec
