import DagExec.Exec.Composition
import DagExec.Exec.Pruning

/-!
# Requests, key by key

For a graph that is built from some calls, values (`Dag.HasValue`) and needs (`Dag.NeedsKey`) are read off the calls, by key. A
request whose keys have values is answered, by either executor (`answered_of_hasValue`), and how often it calls functions of
some kind is the number of needed keys of that kind (`Answers.countP_called`).
-/

namespace DagExec

open Outcome DagBuilder DepGraph ListFacts

variable {K O E ω : Type} {dag : Dag K O E ω} {outs : List K} {calls : List (AddCall K O E ω)}

/-- The node of the key has the value. -/
def Dag.HasValue (dag : Dag K O E ω) (k : K) (v : O) : Prop := ∃ i, dag.index.get k = some i ∧ Evaluates dag i v

/-- A requested key with a value is needed. -/
theorem Dag.HasValue.needsKey {k : K} {v : O} (h : dag.HasValue k v) (hk : k ∈ outs) : dag.NeedsKey outs k := by
  obtain ⟨i, hi, -⟩ := h
  exact ⟨i, hi, .base ⟨k, hk, hi⟩⟩

/-- If the requested keys have values, all that they need have. -/
theorem Dag.answerable_of_hasValue (h : ∀ k ∈ outs, ∃ v, dag.HasValue k v) : dag.Answerable outs := by
  constructor
  · intro k hk
    obtain ⟨v, i, hi, -⟩ := h k hk
    exact ⟨i, hi⟩
  · refine Closure.least (T := { i | ∃ v, Evaluates dag i v }) ?_ fun i ⟨v, hv⟩ d hd => hv.dep hd
    rintro i ⟨k, hk, hi⟩
    obtain ⟨v, j, hj, hv⟩ := h k hk
    rw [hi] at hj
    cases hj
    exact ⟨v, hv⟩

section

variable (h : dag.BuiltFrom calls)
include h

theorem Dag.BuiltFrom.hasValue_source {k : K} {v : O} (hc : .source k v ∈ calls) : dag.HasValue k v := by
  obtain ⟨i, hi⟩ := List.getElem?_of_mem hc
  obtain ⟨nd, hnd, -, hkind, -⟩ := h.node i _ hi
  exact ⟨i, (h.index_iff k i).mpr ⟨_, hi, rfl⟩, .source hnd hkind⟩

theorem Dag.BuiltFrom.hasValue_task {k : K} {deps : List K} {f : TaskFn O E ω} {args : List O} {w : ω} {v : O}
    (hc : .task k deps f ∈ calls) (hargs : List.Forall₂ dag.HasValue deps args) (hf : f w args = .ok v) :
    dag.HasValue k v := by
  obtain ⟨i, hi⟩ := List.getElem?_of_mem hc
  obtain ⟨nd, hnd, -, hkind, hdeps⟩ := h.node i _ hi
  refine ⟨i, (h.index_iff k i).mpr ⟨_, hi, rfl⟩, .of_refArgs ⟨nd, hnd, hkind⟩ ?_ hf⟩
  rw [RefArgs, Dag.depsOf_of_get hnd]
  change nd.deps.map (fun d => dag.nodes[d]?.map Node.key) = deps.map some at hdeps
  -- the ids of the dependencies name the keys
  clear hnd hkind hc hi hf
  generalize nd.deps = ds at hdeps
  induction hargs generalizing ds with
  | nil =>
    rw [List.map_nil, List.map_eq_nil_iff] at hdeps
    rw [hdeps]
    exact .nil
  | cons hval _ ih =>
    obtain ⟨d, ds, rfl, hd, hrest⟩ := List.map_eq_cons_iff.mp hdeps
    obtain ⟨j, hj, hv⟩ := hval
    have hjd := (dag.index_get _ d).mpr hd
    rw [hj] at hjd
    cases hjd
    exact .cons hv (ih ds hrest)

theorem Dag.BuiltFrom.deterministic (hf : ∀ c ∈ calls, ∀ f, c.kind = .task f → ∀ w w' args, f w args = f w' args) :
    dag.Deterministic := by
  rintro i f ⟨nd, hnd, hkind⟩ w w' args
  have hlt : i < calls.length := h.length ▸ (List.getElem?_eq_some_iff.mp hnd).1
  obtain ⟨nd', hnd', -, hkind', -⟩ := h.node i _ (List.getElem?_eq_getElem hlt)
  rw [hnd] at hnd'
  cases hnd'
  exact hf _ (List.getElem_mem hlt) f (hkind'.symm.trans hkind) w w' args

theorem Dag.BuiltFrom.needsKey_dep {c : AddCall K O E ω} (hc : c ∈ calls) (hn : dag.NeedsKey outs c.key) {k : K}
    (hk : k ∈ c.deps) : dag.NeedsKey outs k :=
  h.pruned_deps (Dag.mem_pruneCalls.mpr ⟨hc, hn⟩) hk

/-- What holds of the requested keys and goes down to dependencies holds of the needed keys. -/
theorem Dag.BuiltFrom.needsKey_induct {P : K → Prop} (hbase : ∀ k ∈ outs, P k)
    (hstep : ∀ c ∈ calls, P c.key → ∀ k ∈ c.deps, P k) {k : K} (hn : dag.NeedsKey outs k) : P k := by
  obtain ⟨i, hi, hneed⟩ := hn
  have hall : Closure dag.depsOf (dag.Requested outs) ⊆ { i | ∀ k, dag.index.get k = some i → P k } := by
    refine Closure.least ?_ fun i hP d hd k hk => ?_
    · rintro i ⟨k, hmem, hi⟩ k' hk'
      obtain ⟨c, hc, rfl⟩ := (h.index_iff k i).mp hi
      obtain ⟨c', hc', rfl⟩ := (h.index_iff k' i).mp hk'
      rw [hc] at hc'
      cases hc'
      exact hbase _ hmem
    · have hlt : i < calls.length := by
        by_contra hge
        rw [Dag.depsOf, List.getElem?_eq_none (h.length ▸ Nat.le_of_not_lt hge)] at hd
        cases hd
      have hc := List.getElem?_eq_getElem hlt
      obtain ⟨nd, hnd, -, -, hdeps⟩ := h.node i _ hc
      rw [Dag.depsOf_of_get hnd] at hd
      have hkd : some k ∈ nd.deps.map fun d => dag.nodes[d]?.map Node.key :=
        List.mem_map.mpr ⟨d, hd, (dag.index_get k d).mp hk⟩
      rw [hdeps] at hkd
      obtain ⟨k', hk', he⟩ := List.mem_map.mp hkd
      cases he
      exact hstep _ (List.getElem_mem hlt) (hP _ ((h.index_iff _ i).mpr ⟨_, hc, rfl⟩)) k hk'
  exact hall hneed k hi

/-- A needed key with a dependency keeps the request from being a false cycle. -/
theorem Dag.BuiltFrom.not_falseCycle {c : AddCall K O E ω} (hc : c ∈ calls) (hn : dag.NeedsKey outs c.key)
    (hdeps : c.deps ≠ []) (cfg : ExecutorConfig) : ¬ FalseCycle dag cfg outs := by
  rintro ⟨hall, -, -⟩
  obtain ⟨i, hi, hneed⟩ := hn
  obtain ⟨c', hc', hkey⟩ := (h.index_iff c.key i).mp hi
  obtain ⟨j, hj⟩ := List.getElem?_of_mem hc
  have hij := (h.index_iff c.key j).mpr ⟨c, hj, rfl⟩
  rw [hi] at hij
  cases hij
  obtain ⟨nd, hnd, -, -, hd⟩ := h.node i c hj
  have hnone := hall i hneed
  rw [Dag.depsOf_of_get hnd] at hnone
  rw [hnone, List.map_nil, eq_comm, List.map_eq_nil_iff] at hd
  exact hdeps hd

end

variable [DecidableEq K]

/-- **A request for keys with values is answered**, by either executor, with these values. -/
theorem answered_of_hasValue (hdet : dag.Deterministic) (hne : outs ≠ []) {vals : List O}
    (hvals : List.Forall₂ dag.HasValue outs vals) (hno : ∀ cfg, ¬ FalseCycle dag cfg outs) :
    (∀ env, ∃ m, (runSequential dag outs env).1 = .ok m) ∧
    (∀ cfg panics r log, cfg.Valid → RunParallel dag cfg outs panics r log → ∃ m, r = .ok m) ∧
    ∀ m called, Answers dag outs m called → List.Forall₂ (fun k v => m.get k = some v) outs vals := by
  have hans : dag.Answerable outs := Dag.answerable_of_hasValue fun k hk => by
    obtain ⟨i, hi⟩ := List.getElem?_of_mem hk
    obtain ⟨v, -, hv⟩ := forall₂_get_left hvals hi
    exact ⟨v, hv⟩
  refine ⟨hans.runSequential hdet hne, fun cfg panics r log hv => hans.runParallel hdet hne hv (hno cfg), fun m called h => ?_⟩
  refine ((List.forall₂_and_left (p := (· ∈ outs)) outs vals).mpr ⟨fun _ hk => hk, hvals⟩).imp fun k v ⟨hk, hv⟩ => ?_
  exact (h.get_iff hdet k v).mpr ⟨hk, hv⟩

/-- **How often a request calls functions of some kind**: as often as there are needed keys of that kind. -/
theorem Answers.countP_called {m : HashMap K O} {called : List NodeId} (h : Answers dag outs m called)
    (hb : dag.BuiltFrom calls) {p : NodeId → Bool} {ks : List K} (hnodup : ks.Nodup)
    (htask : ∀ (i : NodeId) c, calls[i]? = some c → p i = true → ∃ f, c.kind = .task f)
    (hks : ∀ k, k ∈ ks ↔ ∃ (i : NodeId) (c : AddCall K O E ω), calls[i]? = some c ∧ c.key = k ∧ dag.NeedsKey outs k ∧
      p i = true) :
    called.countP p = ks.length := by
  have hperm : ((called.filter p).map fun i => calls[i]?.map AddCall.key).Perm (ks.map some) := by
    have hkey : ∀ i ∈ called, ∃ c, calls[i]? = some c ∧ dag.index.get c.key = some i := fun i hi => by
      have hlt := ((h.called_iff.2 i).mp hi).1.lt
      rw [hb.length] at hlt
      exact ⟨_, List.getElem?_eq_getElem hlt, (hb.index_iff _ i).mpr ⟨_, List.getElem?_eq_getElem hlt, rfl⟩⟩
    refine (List.perm_ext_iff_of_nodup ?_ (hnodup.map (Option.some_injective K))).mpr fun o => ?_
    · refine List.Nodup.map_on (fun i hi j hj he => ?_) (h.called_iff.1.filter _)
      obtain ⟨c, hc, hci⟩ := hkey i (List.mem_of_mem_filter hi)
      obtain ⟨c', hc', hcj⟩ := hkey j (List.mem_of_mem_filter hj)
      rw [hc, hc', Option.map_some, Option.map_some, Option.some.injEq] at he
      rw [he, hcj] at hci
      exact (Option.some.inj hci).symm
    · rw [List.mem_map, List.mem_map]
      constructor
      · rintro ⟨i, hi, rfl⟩
        obtain ⟨hmem, hp⟩ := List.mem_filter.mp hi
        obtain ⟨c, hc, hci⟩ := hkey i hmem
        refine ⟨c.key, (hks c.key).mpr ⟨i, c, hc, rfl, ⟨i, hci, ((h.called_iff.2 i).mp hmem).1⟩, hp⟩, ?_⟩
        rw [hc, Option.map_some]
      · rintro ⟨k, hk, rfl⟩
        obtain ⟨i, c, hc, rfl, ⟨j, hj, hneed⟩, hp⟩ := (hks k).mp hk
        have hij := (hb.index_iff c.key i).mpr ⟨c, hc, rfl⟩
        rw [hj] at hij
        cases hij
        obtain ⟨f, hf⟩ := htask i c hc hp
        obtain ⟨nd, hnd, -, hkind, -⟩ := hb.node i c hc
        refine ⟨i, List.mem_filter.mpr ⟨(h.called_iff.2 i).mpr ⟨hneed, f, nd, hnd, hkind.trans hf⟩, hp⟩, ?_⟩
        rw [hc, Option.map_some]
  have hlen := hperm.length_eq
  rwa [List.length_map, List.length_map, ← List.countP_eq_length_filter] at hlen

end DagExec
