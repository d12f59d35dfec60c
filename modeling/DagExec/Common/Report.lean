import DagExec.Common.Books
import Mathlib.Data.List.Sort

/-!
# What an executor reports

`Report dag outs vals r`: with the value table `vals`, an executor that got past its checks may report `r`. Both
executors only report such results, so what a result says is settled here once for both:

- `Report.ok_iff`: `Ok` carries the reference values of exactly the requested keys;
- `Report.taskFailed_iff`: a task failure is reported exactly when an evaluable needed task fails, and it is that of one;
- `Report.cyclicKeys`: with a cycle and no failing task, the nodes that reach a cycle are reported, in insertion order.
-/

namespace DagExec

open Outcome

variable {K O E ω : Type} {dag : Dag K O E ω} {outs : List K}

/-! ## Reference values in the table -/

/-- In a successful run every needed node has a value, so the needed subgraph is acyclic. -/
theorem acyclic_of_evaluates (h : ∀ i, dag.Needed outs i → ∃ v, Evaluates dag i v) : dag.Acyclic outs := by
  intro i hi hc
  obtain ⟨v, hv⟩ := h i hi
  exact evaluates_not_reachesCycle hv ⟨i, .refl, hc⟩

/-- A task with a value returns it on reference values of its dependencies, in every environment. -/
theorem Evaluates.call_eq (hdet : dag.Deterministic) {i : NodeId} {f : TaskFn O E ω} {args : List O} {v : O}
    (hv : Evaluates dag i v) (hf : dag.IsTask i f) (ha : RefArgs dag i args) (w : ω) : f w args = .ok v := by
  cases hv with
  | source hi' hk => rw [hf.get hi'] at hk; cases hk
  | @task _ nd f' args' w' _ hi' hk hlen hargs hf' =>
    rw [hf.get hi'] at hk
    cases hk
    rw [RefArgs.unique hdet ha (refArgs_of_get hi' hlen hargs), hdet i f hf w w']
    exact hf'

/-- If every needed node has a value, every needed task succeeds on reference values. -/
theorem tasksSucceed_of_evaluates (hdet : dag.Deterministic) (h : ∀ i, dag.Needed outs i → ∃ v, Evaluates dag i v) :
    TasksSucceed dag outs := by
  intro i f args hi hf ha w
  obtain ⟨v, hv⟩ := h i hi
  exact ⟨v, hv.call_eq hdet hf ha w⟩

/-- The entry of a processed node is its reference value. -/
theorem valAt_iff_evaluates {plan : Plan K O E ω} {vals : List (Option O)} {indeg : List Nat} {opn : NodeId → Nat}
    (hb : Books plan vals indeg opn) (hdet : plan.dag.Deterministic) {i : NodeId} (hd : isDone vals i = true) {v : O} :
    valAt vals i = some v ↔ Evaluates plan.dag i v := by
  obtain ⟨w, hw⟩ := isDone_iff.mp hd
  refine ⟨hb.value i v, fun hv => ?_⟩
  rw [hw, (hb.value i w hw).unique hdet hv]

section

variable [DecidableEq K]

/-- When all needed nodes are processed, the outputs can be collected. -/
theorem collect_of_done {vals : List (Option O)} (hkeys : dag.KeysExist outs)
    (hall : ∀ i, dag.Needed outs i → isDone vals i = true) : ∃ m, collectOutputs dag outs vals = ok m ∧
      ∀ k v, m.get k = some v ↔ k ∈ outs ∧ ∃ i, dag.index.get k = some i ∧ valAt vals i = some v := by
  have hvals : ∀ k ∈ outs, ∃ i v, dag.index.get k = some i ∧ vals[i]? = some (some v) := fun k hk => by
    obtain ⟨i, hi⟩ := hkeys k hk
    obtain ⟨v, hv⟩ := isDone_iff.mp (hall i (DepGraph.Closure.base ⟨k, hk, hi⟩))
    exact ⟨i, v, hi, valAt_eq_some.mp hv⟩
  obtain ⟨m, hm, hget⟩ := collectOutputs_ok hvals
  exact ⟨m, hm, fun k v => by rw [hget]; simp only [valAt_eq_some]⟩

/-- What is collected once every needed node is processed: the reference values of the requested keys. -/
theorem collect_reference {plan : Plan K O E ω} {vals : List (Option O)} {indeg : List Nat} {opn : NodeId → Nat}
    (hb : Books plan vals indeg opn) (hd : plan.dag = dag) (hdet : dag.Deterministic) (hkeys : dag.KeysExist outs)
    (hall : ∀ i, dag.Needed outs i → isDone vals i = true) {m : HashMap K O} (hm : collectOutputs dag outs vals = ok m) :
    (∀ k, (∃ v, m.get k = some v) ↔ k ∈ outs) ∧
      ∀ k v, m.get k = some v ↔ k ∈ outs ∧ ∃ i, dag.index.get k = some i ∧ Evaluates dag i v := by
  subst hd
  obtain ⟨m', hm', hget⟩ := collect_of_done hkeys hall
  rw [hm] at hm'
  cases hm'
  have hneeded : ∀ k ∈ outs, ∀ i, plan.dag.index.get k = some i → isDone vals i = true := fun k hk i hi =>
    hall i (DepGraph.Closure.base ⟨k, hk, hi⟩)
  refine ⟨fun k => ⟨fun ⟨v, hv⟩ => ((hget k v).mp hv).1, fun hk => ?_⟩, fun k v => ?_⟩
  · obtain ⟨i, hi⟩ := hkeys k hk
    obtain ⟨v, hv⟩ := isDone_iff.mp (hneeded k hk i hi)
    exact ⟨v, (hget k v).mpr ⟨hk, i, hi, hv⟩⟩
  · rw [hget]
    refine and_congr_right fun hk => exists_congr fun i => and_congr_right fun hi => ?_
    exact valAt_iff_evaluates hb hdet (hneeded k hk i hi)

end

/-- `rem` lists the keys of precisely the needed nodes from which a cycle is reachable, in insertion order, each once. -/
def CyclicKeys (dag : Dag K O E ω) (outs : List K) (rem : List K) : Prop :=
  ∃ ids : List NodeId, rem = dag.keysOf ids ∧ ids.Pairwise (· < ·) ∧
    ∀ i, i ∈ ids ↔ dag.Needed outs i ∧ DepGraph.ReachesCycle dag.depsOf i

theorem Dag.mem_keysOf {ids : List NodeId} {k : K} :
    k ∈ dag.keysOf ids ↔ ∃ i ∈ ids, ∃ nd, dag.nodes[i]? = some nd ∧ nd.key = k := by
  simp [Dag.keysOf]

namespace CyclicKeys

variable {rem rem' : List K}

theorem unique (h : CyclicKeys dag outs rem) (h' : CyclicKeys dag outs rem') : rem = rem' := by
  obtain ⟨ids, rfl, hs, hmem⟩ := h
  obtain ⟨ids', rfl, hs', hmem'⟩ := h'
  rw [hs.eq_of_mem_iff hs' fun i => (hmem i).trans (hmem' i).symm]

/-- Each key is listed once: keys are distinct. -/
theorem nodup (h : CyclicKeys dag outs rem) : rem.Nodup := by
  obtain ⟨ids, rfl, hs, -⟩ := h
  refine List.Nodup.filterMap (fun i j k hi hj => ?_) (hs.imp fun h => Nat.ne_of_lt h)
  obtain ⟨nd, hnd, hk⟩ := Option.map_eq_some_iff.mp hi
  obtain ⟨nd', hnd', hk'⟩ := Option.map_eq_some_iff.mp hj
  exact Dag.key_injective hnd hnd' (hk.trans hk'.symm)

theorem ne_nil (h : CyclicKeys dag outs rem) (hc : ¬ dag.Acyclic outs) : rem ≠ [] := by
  obtain ⟨ids, rfl, -, hmem⟩ := h
  obtain ⟨i, hi⟩ := not_forall.mp hc
  rw [Classical.not_imp, not_not] at hi
  have hkey : _ ∈ dag.keysOf ids := Dag.mem_keysOf.mpr
    ⟨i, (hmem i).mpr ⟨hi.1, i, .refl, hi.2⟩, _, List.getElem?_eq_getElem hi.1.lt, rfl⟩
  exact List.ne_nil_of_mem hkey

theorem eq_nil (h : CyclicKeys dag outs rem) (hc : dag.Acyclic outs) : rem = [] := by
  obtain ⟨ids, rfl, -, hmem⟩ := h
  have hids : ids = [] := List.eq_nil_iff_forall_not_mem.mpr fun i hi =>
    hc.not_reachesCycle ((hmem i).mp hi).1 ((hmem i).mp hi).2
  rw [hids]
  rfl

/-- A node with a value is not listed. -/
theorem not_mem (h : CyclicKeys dag outs rem) {i : NodeId} {nd : Node K O E ω} {v : O}
    (hnd : dag.nodes[i]? = some nd) (hv : Evaluates dag i v) : nd.key ∉ rem := by
  obtain ⟨ids, rfl, -, hmem⟩ := h
  rw [Dag.mem_keysOf]
  rintro ⟨j, hj, nd', hnd', hk⟩
  rw [Dag.key_injective hnd' hnd hk] at hj
  exact evaluates_not_reachesCycle hv ((hmem i).mp hj).2

end CyclicKeys

/-! ## Reports -/

/-- What an executor may report. -/
inductive Report [DecidableEq K] (dag : Dag K O E ω) (outs : List K) (vals : List (Option O)) :
    Outcome (ExecError K E) (HashMap K O) → Prop
  | ok {plan : Plan K O E ω} {indeg : List Nat} {opn : NodeId → Nat} {m : HashMap K O} (hd : plan.dag = dag)
      (hb : Books plan vals indeg opn) (hkeys : dag.KeysExist outs)
      (hall : ∀ i, dag.Needed outs i → isDone vals i = true) (hm : collectOutputs dag outs vals = .ok m) :
      Report dag outs vals (.ok m)
  | cycle {plan : Plan K O E ω} {indeg : List Nat} (hd : plan.dag = dag) (hg : plan.Good outs)
      (hb : Books plan vals indeg fun _ => 0) : Report dag outs vals (.err (.cycle (plan.report indeg)))
  | failed {id : NodeId} {nd : Node K O E ω} {f : TaskFn O E ω} {args : List O} {w : ω} {e : E}
      (hn : dag.Needed outs id) (hi : dag.nodes[id]? = some nd) (hk : nd.kind = .task f) (ha : RefArgs dag id args)
      (hf : f w args = .err e) : Report dag outs vals (.err (.taskFailed nd.key e))

namespace Report

variable [DecidableEq K] {vals : List (Option O)} {r : Outcome (ExecError K E) (HashMap K O)}

theorem keysExist (h : Report dag outs vals r) {m : HashMap K O} (hr : r = .ok m) : dag.KeysExist outs := by
  cases h with
  | ok hd hb hkeys => exact hkeys
  | _ => cases hr

/-- In a successful report every needed node has a value. -/
theorem evaluates (h : Report dag outs vals r) {m : HashMap K O} (hr : r = .ok m) :
    ∀ i, dag.Needed outs i → ∃ v, Evaluates dag i v := by
  cases h with
  | ok hd hb hkeys hall hm =>
    subst hd
    exact fun i hi => (isDone_iff.mp (hall i hi)).imp fun v hv => hb.value i v hv
  | _ => cases hr

/-- **`Ok` is right**: the keys are the requested ones and the values their reference values. -/
theorem ok_iff (h : Report dag outs vals r) (hdet : dag.Deterministic) {m : HashMap K O} (hr : r = .ok m) :
    (∀ k, (∃ v, m.get k = some v) ↔ k ∈ outs) ∧
      ∀ k v, m.get k = some v ↔ k ∈ outs ∧ ∃ i, dag.index.get k = some i ∧ Evaluates dag i v := by
  cases h with
  | ok hd hb hkeys hall hm => cases hr; exact collect_reference hb hd hdet hkeys hall hm
  | _ => cases hr

/-- **A task failure is reported exactly when an evaluable needed task fails.** -/
theorem taskFailed_iff (h : Report dag outs vals r) (hdet : dag.Deterministic) :
    (∃ k e, r = .err (.taskFailed k e)) ↔ ∃ i e, dag.Needed outs i ∧ FailsWith dag i e := by
  constructor
  · rintro ⟨k, e, hr⟩
    cases h with
    | failed hn hi hk ha hf =>
      exact ⟨_, _, hn, evaluable_iff.mpr ⟨_, ha⟩, _, _, _, ⟨_, hi, hk⟩, ha, hf⟩
    | _ => cases hr
  · rintro ⟨i, e, hn, hfail⟩
    cases h with
    | ok hd hb hkeys hall hm =>
      subst hd
      obtain ⟨v, hv⟩ := isDone_iff.mp (hall i hn)
      exact absurd ⟨v, hb.value i v hv⟩ (hfail.not_evaluates hdet)
    | cycle hd hg hb =>
      -- nothing is open, so the failing task would be processed: its arguments have values
      subst hd
      obtain ⟨args, ha⟩ := evaluable_iff.mp hfail.1
      obtain ⟨v, hv⟩ := isDone_iff.mp (hb.done_of_refArgs hg (fun _ => rfl) ha hn)
      exact absurd ⟨v, hb.value i v hv⟩ (hfail.not_evaluates hdet)
    | failed => exact ⟨_, _, rfl⟩

/-- The reported failure is that of an evaluable needed task, with the error its function returned. -/
theorem taskFailed (h : Report dag outs vals r) {k : K} {e : E} (hr : r = .err (.taskFailed k e)) :
    ∃ i nd, dag.Needed outs i ∧ dag.nodes[i]? = some nd ∧ nd.key = k ∧ FailsWith dag i e := by
  cases h with
  | failed hn hi hk ha hf =>
    cases hr
    exact ⟨_, _, hn, hi, rfl, evaluable_iff.mpr ⟨_, ha⟩, _, _, _, ⟨_, hi, hk⟩, ha, hf⟩
  | _ => cases hr

/-- With no failing task, what is reported is `Ok` or `Cycle`. -/
theorem ok_or_cycle (h : Report dag outs vals r) (hs : TasksSucceed dag outs) :
    (∃ m, r = .ok m) ∨ ∃ rem, r = .err (.cycle rem) := by
  cases h with
  | ok => exact .inl ⟨_, rfl⟩
  | cycle => exact .inr ⟨_, rfl⟩
  | failed hn hi hk ha hf =>
    obtain ⟨v, hv⟩ := hs _ _ _ hn ⟨_, hi, hk⟩ ha _
    rw [hf] at hv
    cases hv

/-- What a `Cycle` error lists. -/
theorem cyclicKeys_of_cycle (h : Report dag outs vals r) {rem : List K} (hr : r = .err (.cycle rem)) :
    CyclicKeys dag outs rem := by
  cases h with
  | cycle hd hg hb =>
    cases hr
    subst hd
    refine ⟨_, rfl, pickIds_sorted _ _, fun i => ?_⟩
    rw [mem_pickIds, hg.needed]
    refine and_congr_right fun hi => ?_
    rw [decide_eq_true_iff, hb.blocked_iff (fun _ => rfl) ((hg.needed i).mpr hi)]
    exact hb.not_done_iff hg (fun _ => rfl) hi
  | _ => cases hr

/-- A run that reports a cycle has called every task whose arguments have values, and none has failed. -/
theorem tasksSucceed_of_cycle (h : Report dag outs vals r) (hdet : dag.Deterministic) {rem : List K}
    (hr : r = .err (.cycle rem)) : TasksSucceed dag outs := by
  cases h with
  | cycle hd hg hb =>
    subst hd
    intro i f args hi hf ha w
    obtain ⟨v, hv⟩ := isDone_iff.mp (hb.done_of_refArgs hg (fun _ => rfl) ha hi)
    exact ⟨v, (hb.value i v hv).call_eq hdet hf ha w⟩
  | _ => cases hr

/-- **A cycle is diagnosed exactly**: with a cycle among the needed nodes and no failing task, the report is `Cycle`
with the keys of the needed nodes that reach a cycle. -/
theorem cyclicKeys (h : Report dag outs vals r) (hs : TasksSucceed dag outs) (hc : ¬ dag.Acyclic outs) :
    ∃ rem, r = .err (.cycle rem) ∧ CyclicKeys dag outs rem := by
  rcases h.ok_or_cycle hs with ⟨m, hm⟩ | ⟨rem, hrem⟩
  · exact absurd (acyclic_of_evaluates (h.evaluates hm)) hc
  · exact ⟨rem, hrem, h.cyclicKeys_of_cycle hrem⟩

end Report

end DagExec
