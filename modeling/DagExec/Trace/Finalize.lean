import DagExec.Trace.Stamps
import DagExec.Lib.LongestPath

/-!
# `finalize`

When every needed node has been through all its moments (`Complete`), the execution order lists the needed nodes,
dependencies first, so the loop of `finalize` finds each slot filled and the longest paths of all dependencies computed.
`Finalizing` is its invariant; `finalize_ok` is what it returns.
-/

namespace DagExec

open Outcome Lifecycle LongestPath TraceObserver

variable {K O E ω ε : Type} {dag : Dag K O E ω} {outs : List K} {needed : List Bool} {hooks : List Hook}
  {clock : Nat → Nat} {r : TraceObserver}

/-- The calls an observer has had when every needed node has finished. -/
structure Complete (dag : Dag K O E ω) (outs : List K) (needed : List Bool) (hooks : List Hook) : Prop where
  flags : ∀ i, flag needed i = true ↔ dag.Needed outs i
  lawful : Lawful dag.depsOf (hooks.map Hook.note)
  all : ∀ phase i, (phase, i) ∈ hooks.map Hook.note ↔ dag.Needed outs i
  outputs : ∃ i, dag.Needed outs i
  seeded : ∃ ids, readyHooks 0 ids <+: hooks ∧ ids.length = (dag.Roots outs).ncard
  width : ∀ id width, .ready id width ∈ hooks → ∃ T, dag.Independent outs T ∧ width ≤ T.card

/-- The run duration of a node by its slots. -/
def TraceObserver.duration (r : TraceObserver) (i : NodeId) : Nat :=
  (valAt r.finishedAt i).getD 0 - (valAt r.startedAt i).getD 0

/-- `e` is the entry of node `i`, with its stamps. -/
structure Entry (dag : Dag K O E ω) (r : TraceObserver) (i : NodeId) (e : NodeTrace K) : Prop where
  nodeId : e.nodeId = i
  node : ∃ nd, dag.nodes[i]? = some nd ∧ e.key = nd.key ∧ e.deps = nd.deps ∧ e.kind = nd.kind.traceKind
  ready : r.readyAt[i]? = some (some e.readyAt)
  start : r.startedAt[i]? = some (some e.startedAt)
  finish : r.finishedAt[i]? = some (some e.finishedAt)
  duration : e.runDuration = r.duration i
  worker : r.workerId[i]? = some e.workerId

/-! ## One node -/

/-- The longest path to a dependency, from the table. -/
theorem parents_ok (needed : List Bool) (longest : List Nat) : ∀ (ds : List NodeId) (best : Option Nat),
    (∀ d ∈ ds, flag needed d = true ∧ d < longest.length) → ∃ best', ds.foldlM (parentBody needed longest) best =
      (ok best' : Outcome ε _) ∧ best.getD 0 ≤ best'.getD 0 ∧ (∀ d ∈ ds, counter longest d ≤ best'.getD 0) ∧
      (best'.getD 0 = best.getD 0 ∨ ∃ d ∈ ds, counter longest d = best'.getD 0)
  | [], best, _ => ⟨best, rfl, Nat.le_refl _, nofun, .inl rfl⟩
  | d :: ds, best, h => by
    obtain ⟨hf, hlt⟩ := h d List.mem_cons_self
    let path := counter longest d
    have hbody : parentBody needed longest best d = (ok (some (best.elim path (max · path))) : Outcome ε _) := by
      simp only [parentBody, index_of_get (flag_eq_true.mp hf), ok_bind, if_true, index_counter hlt, pure_eq, path]
    obtain ⟨best', hfold, hle, hall, hmax⟩ := parents_ok needed longest ds (some (best.elim path (max · path))) fun d' hd' =>
      h d' (List.mem_cons_of_mem _ hd')
    have hstep : best.getD 0 ≤ best.elim path (max · path) ∧ path ≤ best.elim path (max · path) ∧
        (best.elim path (max · path) = best.getD 0 ∨ best.elim path (max · path) = path) := by
      cases best with
      | none => simp
      | some b =>
        simp only [Option.getD_some, Option.elim_some]
        omega
    rw [Option.getD_some] at hle hmax
    refine ⟨best', ?_, by omega, fun d' hd' => ?_, ?_⟩
    · rw [List.foldlM_cons, hbody, ok_bind, hfold]
    · rcases List.mem_cons.mp hd' with rfl | hd'
      · show path ≤ _
        omega
      · exact hall d' hd'
    · rcases hmax with hmax | ⟨d', hd', hmax⟩
      · rcases hstep.2.2 with hb | hb
        · exact .inl (hmax.trans hb)
        · exact .inr ⟨d, List.mem_cons_self, (hmax.trans hb).symm⟩
      · exact .inr ⟨d', List.mem_cons_of_mem _ hd', hmax⟩

/-- The moments of a needed node are stamped. -/
theorem Complete.slot (h : Complete dag outs needed hooks) {phase : Phase} {slots : List (Option Nat)} {n : Nat}
    (hs : Stamped clock n (hooks.map Hook.note) phase slots) {i : NodeId} (hi : dag.Needed outs i) :
    ∃ t, slots[i]? = some (some t) := by
  obtain ⟨p, hp⟩ := List.getElem?_of_mem ((h.all phase i).mpr hi)
  exact ⟨clock p, (hs.stamp i _).mpr ⟨p, hp, rfl⟩⟩

/-- One iteration, when the longest paths to the dependencies are in the table. -/
theorem finalizeBody_ok (h : Complete dag outs needed hooks) (hs : Stamps clock dag.nodes.length hooks r)
    {acc : List (NodeTrace K) × List Nat × Nat} (hlen : acc.2.1.length = dag.nodes.length) {i : NodeId}
    (hi : dag.Needed outs i)
    (hdeps : ∀ d ∈ dag.depsOf i, IsGreatest { t | PathTo dag.depsOf r.duration d t } (counter acc.2.1 d)) :
    ∃ e path, finalizeBody r dag needed acc i = (ok (acc.1 ++ [e], acc.2.1.set i path, max acc.2.2 path) : Outcome ε _) ∧
      Entry dag r i e ∧ IsGreatest { t | PathTo dag.depsOf r.duration i t } path := by
  obtain ⟨nd, hnd⟩ : ∃ nd, dag.nodes[i]? = some nd := ⟨_, List.getElem?_eq_getElem hi.lt⟩
  have hdepsOf := Dag.depsOf_of_get hnd
  obtain ⟨ready, hready⟩ := h.slot hs.ready hi
  obtain ⟨start, hstart⟩ := h.slot hs.start hi
  obtain ⟨finish, hfinish⟩ := h.slot hs.finish hi
  obtain ⟨worker, hworker⟩ : ∃ worker, r.workerId[i]? = some worker :=
    ⟨_, List.getElem?_eq_getElem (hs.worker_length.symm ▸ hi.lt)⟩
  have hdur : finish - start = r.duration i := by
    unfold TraceObserver.duration
    rw [valAt_eq_some.mpr hstart, valAt_eq_some.mpr hfinish]
    rfl
  obtain ⟨best, hfold, -, hle, hmax⟩ := parents_ok (ε := ε) needed acc.2.1 nd.deps none
    fun d hd => by
      rw [← hdepsOf] at hd
      exact ⟨(h.flags d).mpr (hi.dep hd), hlen ▸ (hi.dep hd).lt⟩
  have hlt : i < acc.2.1.length := hlen.symm ▸ hi.lt
  let path := best.getD 0 + (finish - start)
  have hstore : (index (acc.2.1.set i path) i : Outcome ε Nat) = ok path := index_of_get (by simp [hlt])
  let e : NodeTrace K := ⟨i, nd.key, nd.kind.traceKind, nd.deps, ready, start, finish, finish - start, worker⟩
  refine ⟨e, path, ?_, ⟨rfl, ⟨nd, hnd, rfl, rfl, rfl⟩, hready, hstart, hfinish, hdur, hworker⟩, ?_⟩
  · simp only [finalizeBody, index_of_get (flag_eq_true.mp ((h.flags i).mpr hi)), ok_bind, if_true, index_of_get hstart,
      index_of_get hfinish, index_of_get hnd, Option.getD_some, hfold, store_of_lt _ hlt, index_of_get hready,
      index_of_get hworker, pure_eq]
    show (index (acc.2.1.set i path) i >>= _) = _
    rw [hstore]
    rfl
  · show IsGreatest _ (best.getD 0 + (finish - start))
    rw [hdur]
    rw [← hdepsOf] at hle hmax
    exact greatest_pathTo hdeps hle hmax

/-! ## The loop -/

/-- The invariant, after the nodes `pre` of the execution order. -/
structure Finalizing (dag : Dag K O E ω) (r : TraceObserver) (pre : List NodeId)
    (acc : List (NodeTrace K) × List Nat × Nat) : Prop where
  nodes : List.Forall₂ (Entry dag r) pre acc.1
  length : acc.2.1.length = dag.nodes.length
  longest : ∀ i ∈ pre, IsGreatest { t | PathTo dag.depsOf r.duration i t } (counter acc.2.1 i)
  upper : ∀ i ∈ pre, counter acc.2.1 i ≤ acc.2.2
  reached : (pre = [] ∧ acc.2.2 = 0) ∨ ∃ i ∈ pre, counter acc.2.1 i = acc.2.2

/-- **The step lemma.** -/
theorem Finalizing.step (h : Complete dag outs needed hooks) (hs : Stamps clock dag.nodes.length hooks r)
    {pre : List NodeId} {acc : List (NodeTrace K) × List Nat × Nat} (hf : Finalizing dag r pre acc) {i : NodeId}
    (hi : dag.Needed outs i) (hnew : i ∉ pre) (hdeps : ∀ d ∈ dag.depsOf i, d ∈ pre) :
    ∃ acc', finalizeBody r dag needed acc i = (ok acc' : Outcome ε _) ∧ Finalizing dag r (pre ++ [i]) acc' := by
  obtain ⟨e, path, hbody, he, hpath⟩ := finalizeBody_ok (ε := ε) h hs hf.length hi fun d hd => hf.longest d (hdeps d hd)
  have hlt : i < acc.2.1.length := hf.length.symm ▸ hi.lt
  have hset : ∀ j ∈ pre, counter (acc.2.1.set i path) j = counter acc.2.1 j := fun j hj => by
    rw [counter_set hlt, if_neg fun hc : j = i => hnew (hc ▸ hj)]
  have hself : counter (acc.2.1.set i path) i = path := by rw [counter_set hlt, if_pos rfl]
  refine ⟨_, hbody, ?_, ?_, fun j hj => ?_, fun j hj => ?_, .inr ?_⟩
  · exact List.rel_append hf.nodes (.cons he .nil)
  · show (acc.2.1.set i path).length = _
    rw [List.length_set, hf.length]
  · show IsGreatest _ (counter (acc.2.1.set i path) j)
    rcases List.mem_append.mp hj with hj | hj
    · rw [hset j hj]
      exact hf.longest j hj
    · rw [List.mem_singleton.mp hj, hself]
      exact hpath
  · show counter (acc.2.1.set i path) j ≤ max acc.2.2 path
    rcases List.mem_append.mp hj with hj | hj
    · have := hf.upper j hj
      rw [hset j hj]
      omega
    · rw [List.mem_singleton.mp hj, hself]
      omega
  · show ∃ j ∈ pre ++ [i], counter (acc.2.1.set i path) j = max acc.2.2 path
    rcases Nat.le_total acc.2.2 path with hle | hle
    · exact ⟨i, by simp, by rw [hself]; omega⟩
    · rcases hf.reached with ⟨-, h0⟩ | ⟨j, hj, hmax⟩
      · exact ⟨i, by simp, by rw [hself]; omega⟩
      · exact ⟨j, List.mem_append_left _ hj, by rw [hset j hj]; omega⟩

/-- **The run lemma.** -/
theorem Finalizing.run (h : Complete dag outs needed hooks) (hs : Stamps clock dag.nodes.length hooks r) :
    ∀ {post pre : List NodeId} {acc : List (NodeTrace K) × List Nat × Nat},
      r.executionOrder = pre ++ post → Finalizing dag r pre acc →
      ∃ acc', post.foldlM (finalizeBody r dag needed) acc = (ok acc' : Outcome ε _) ∧ Finalizing dag r (pre ++ post) acc'
  | [], pre, acc, _, hf => ⟨acc, rfl, by rwa [List.append_nil]⟩
  | i :: post, pre, acc, hsplit, hf => by
    have horder := hs.order
    rw [hsplit] at horder
    have hi : dag.Needed outs i := (h.all .start i).mp (mem_starts.mp (horder ▸ by simp))
    have hnew : i ∉ pre := by
      have hnd := h.lawful.starts_nodup
      rw [← horder] at hnd
      intro hpre
      exact (List.nodup_append.mp hnd).2.2 i hpre i List.mem_cons_self rfl
    obtain ⟨acc', hbody, hf'⟩ := hf.step (ε := ε) h hs hi hnew (h.lawful.starts_topological horder.symm)
    obtain ⟨acc'', hfold, hf''⟩ := Finalizing.run h hs (by rw [hsplit, List.append_cons]) hf'
    rw [← List.append_cons] at hf''
    exact ⟨acc'', by rw [List.foldlM_cons, hbody, ok_bind, hfold], hf''⟩

/-- What a trace reports. -/
structure Reported (dag : Dag K O E ω) (outs : List K) (r : TraceObserver) (tr : ExecutionTrace K) : Prop where
  nodes : List.Forall₂ (Entry dag r) r.executionOrder tr.nodes
  wallTime : tr.wallTime = r.elapsed
  maxFrontierWidth : tr.maxFrontierWidth = r.maxFrontierWidth
  executedNodes : tr.executedNodes = tr.nodes.length
  criticalPathTime : IsGreatest { t | ∃ i, dag.Needed outs i ∧ PathTo dag.depsOf r.duration i t } tr.criticalPathTime

/-- The loop of `finalize` comes to its end, with the longest paths in the table. -/
theorem finalize_loop (h : Complete dag outs needed hooks) (hs : Stamps clock dag.nodes.length hooks r) :
    ∃ acc, r.executionOrder.foldlM (finalizeBody r dag needed) ([], List.replicate dag.nodes.length 0, 0) =
      (ok acc : Outcome ε _) ∧ Finalizing dag r r.executionOrder acc := by
  have h0 : Finalizing dag r [] ([], List.replicate dag.nodes.length 0, 0) :=
    ⟨.nil, List.length_replicate, nofun, nofun, .inl ⟨rfl, rfl⟩⟩
  obtain ⟨acc, hfold, hf⟩ := Finalizing.run (ε := ε) h hs (List.nil_append r.executionOrder).symm h0
  exact ⟨acc, hfold, by rwa [List.nil_append] at hf⟩

theorem Complete.mem_order (h : Complete dag outs needed hooks) (hs : Stamps clock dag.nodes.length hooks r)
    (i : NodeId) : i ∈ r.executionOrder ↔ dag.Needed outs i := by
  rw [hs.order, mem_starts, h.all]

/-- **`finalize` succeeds, and reports the longest path.** -/
theorem finalize_ok (h : Complete dag outs needed hooks) (hs : Stamps clock dag.nodes.length hooks r) :
    ∃ tr, r.finalize dag needed = (ok tr : Outcome ε _) ∧ Reported dag outs r tr := by
  obtain ⟨acc, hfold, hf⟩ := finalize_loop (ε := ε) h hs
  have hmem := h.mem_order hs
  refine ⟨_, by rw [TraceObserver.finalize, hfold]; rfl, hf.nodes, rfl, rfl, rfl, ?_, ?_⟩
  · show ∃ i, dag.Needed outs i ∧ PathTo dag.depsOf r.duration i acc.2.2
    rcases hf.reached with ⟨hnil, -⟩ | ⟨i, hi, hmax⟩
    · obtain ⟨i, hi⟩ := h.outputs
      have := (hmem i).mpr hi
      rw [hnil] at this
      cases this
    · exact ⟨i, (hmem i).mp hi, hmax ▸ (hf.longest i hi).1⟩
  · rintro t ⟨i, hi, ht⟩
    show t ≤ acc.2.2
    have hle := (hf.longest i ((hmem i).mpr hi)).2 ht
    exact Nat.le_trans hle (hf.upper i ((hmem i).mpr hi))

/-! ## What is reported is determined -/

theorem Entry.unique {i : NodeId} {e e' : NodeTrace K} (h : Entry dag r i e) (h' : Entry dag r i e') : e = e' := by
  obtain ⟨nd, hnd, hkey, hdeps, hkind⟩ := h.node
  obtain ⟨nd', hnd', hkey', hdeps', hkind'⟩ := h'.node
  rw [hnd, Option.some.injEq] at hnd'
  subst hnd'
  have hready := h.ready.symm.trans h'.ready
  have hstart := h.start.symm.trans h'.start
  have hfinish := h.finish.symm.trans h'.finish
  have hworker := h.worker.symm.trans h'.worker
  simp only [Option.some.injEq] at hready hstart hfinish hworker
  cases e
  cases e'
  simp only [NodeTrace.mk.injEq]
  exact ⟨h.nodeId.trans h'.nodeId.symm, hkey.trans hkey'.symm, hkind.trans hkind'.symm, hdeps.trans hdeps'.symm, hready,
    hstart, hfinish, h.duration.trans h'.duration.symm, hworker⟩

theorem Reported.unique {tr tr' : ExecutionTrace K} (h : Reported dag outs r tr) (h' : Reported dag outs r tr') :
    tr = tr' := by
  have hnodes : tr.nodes = tr'.nodes := by
    have hl := h.nodes
    have hl' := h'.nodes
    generalize r.executionOrder = order, tr.nodes = es, tr'.nodes = es' at hl hl'
    induction hl generalizing es' with
    | nil => exact (List.forall₂_nil_left_iff.mp hl').symm
    | cons he _ ih =>
      cases hl' with
      | cons he' hl' => rw [he.unique he', ih _ hl']
  have hexecuted : tr.executedNodes = tr'.executedNodes := by rw [h.executedNodes, h'.executedNodes, hnodes]
  have hcritical := h.criticalPathTime.unique h'.criticalPathTime
  have hwall := h.wallTime.trans h'.wallTime.symm
  have hwidth := h.maxFrontierWidth.trans h'.maxFrontierWidth.symm
  cases tr
  cases tr'
  simp only [ExecutionTrace.mk.injEq]
  exact ⟨hnodes, hwall, hcritical, hwidth, hexecuted⟩

end DagExec
