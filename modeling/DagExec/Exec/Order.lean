import DagExec.Build.Calls
import DagExec.Lib.Levels
import DagExec.Par.Returns
import DagExec.Seq.Runs
import Mathlib.Data.List.Sort

/-!
# The order of the calls and cycles

The builder accepts forward references, and with them cycles. Calls that depend on keys of earlier calls only (`Ordered`)
always build, and what they build has no cycle; a graph without cycles is one whose calls can be put in such an order
(`build_order`).
-/

namespace DagExec

open DepGraph DagBuilder

variable {K O E ω : Type} {dag : Dag K O E ω} {calls calls' : List (AddCall K O E ω)}

/-- Each call depends on keys of earlier calls only. -/
def Ordered (calls : List (AddCall K O E ω)) : Prop :=
  ∀ pre c post, calls = pre ++ c :: post → ∀ k ∈ c.deps, k ∈ keysOfCalls pre

/-- In an ordered list a key that is used is one of the list's. -/
theorem Ordered.deps (h : Ordered calls) {c : AddCall K O E ω} (hc : c ∈ calls) {k : K} (hk : k ∈ c.deps) :
    k ∈ keysOfCalls calls := by
  obtain ⟨pre, post, rfl⟩ := List.append_of_mem hc
  obtain ⟨c', hc', hkey⟩ := List.mem_map.mp (h pre c post rfl k hk)
  exact List.mem_map.mpr ⟨c', List.mem_append_left _ hc', hkey⟩

variable [DecidableEq K]

/-! ## Accepted calls -/

/-- A key is taken after some calls if it was before, or one of them has it. -/
theorem DagBuilder.accepted_keys (b : DagBuilder K O E ω) (calls : List (AddCall K O E ω)) (k : K) :
    (k ∈ b.staging.map StagedNode.key ∨ k ∈ keysOfCalls (b.accepted calls)) ↔
      (k ∈ b.staging.map StagedNode.key ∨ k ∈ keysOfCalls calls) := by
  induction calls generalizing b with
  | nil => rfl
  | cons c cs ih =>
    rcases b.accepted_cons c cs with ⟨hmem, -, hacc⟩ | ⟨-, hstaging, hacc⟩
    · rw [hacc, ih b]
      simp only [keysOfCalls, List.map_cons, List.mem_cons]
      constructor
      · exact fun h => h.imp_right .inr
      · rintro (h | rfl | h)
        · exact .inl h
        · exact .inl hmem
        · exact .inr h
    · have hrec := ih (b.add c).2
      rw [hacc]
      simp only [hstaging, List.map_append, List.map_cons, List.map_nil, List.mem_append, List.not_mem_nil, false_or,
        AddCall.staged_key, keysOfCalls, List.mem_cons, or_assoc] at hrec ⊢
      exact hrec

variable (calls) in
theorem keysOfCalls_accepted (k : K) :
    k ∈ keysOfCalls ((new : DagBuilder K O E ω).accepted calls) ↔ k ∈ keysOfCalls calls := by
  have h := (new : DagBuilder K O E ω).accepted_keys calls k
  simpa [new] using h

/-- The accepted calls before an accepted call are the accepted ones of those before it. -/
theorem DagBuilder.accepted_split (b : DagBuilder K O E ω) {pre post : List (AddCall K O E ω)} {c : AddCall K O E ω}
    (h : b.accepted calls = pre ++ c :: post) : ∃ before after, calls = before ++ c :: after ∧ b.accepted before = pre := by
  induction calls generalizing b pre with
  | nil => exact absurd (congrArg List.length h) (by simp [accepted])
  | cons c' cs ih =>
    rcases b.accepted_cons c' cs with ⟨hmem, hsame, hacc⟩ | ⟨hno, hstaging, hacc⟩
    · obtain ⟨before, after, rfl, hpre⟩ := ih b (hacc.symm.trans h)
      refine ⟨c' :: before, after, rfl, ?_⟩
      rcases b.accepted_cons c' before with ⟨-, -, hacc'⟩ | ⟨hno, -⟩
      · rw [hacc', hpre]
      · exact absurd hmem hno
    · rw [hacc] at h
      cases pre with
      | nil =>
        cases h
        exact ⟨[], cs, rfl, rfl⟩
      | cons x pre =>
        obtain ⟨rfl, htail⟩ := List.cons.inj h
        obtain ⟨before, after, rfl, hpre⟩ := ih (b.add c').2 htail
        refine ⟨c' :: before, after, rfl, ?_⟩
        rcases b.accepted_cons c' before with ⟨hmem, -⟩ | ⟨-, -, hacc'⟩
        · exact absurd hmem hno
        · rw [hacc', hpre]

/-- Rejecting calls keeps the order. -/
theorem Ordered.accepted (h : Ordered calls) : Ordered ((new : DagBuilder K O E ω).accepted calls) := by
  intro pre c post hsplit k hk
  obtain ⟨before, after, rfl, rfl⟩ := (new : DagBuilder K O E ω).accepted_split hsplit
  exact (keysOfCalls_accepted _ k).mpr (h before c after rfl k hk)

/-! ## Cycles -/

/-- **Ordered calls build no cycle**: a dependency comes earlier in the order. -/
theorem Dag.BuiltFrom.no_cycle (h : dag.BuiltFrom calls) (hnd : (keysOfCalls calls).Nodup) (hperm : calls'.Perm calls)
    (ho : Ordered calls') : ∀ i, ¬ OnCycle dag.depsOf i := by
  let place : NodeId → ℕ := fun i => (dag.nodes[i]?.map Node.key).elim 0 fun k => (keysOfCalls calls').idxOf k
  have hdown : ∀ i d, d ∈ dag.depsOf i → place d < place i := by
    intro i d hd
    have hlt : i < dag.nodes.length := by
      by_contra hge
      rw [Dag.depsOf, List.getElem?_eq_none (Nat.le_of_not_lt hge)] at hd
      cases hd
    obtain ⟨nd, hnd', hkey, -, hdeps⟩ := h.node i _ (List.getElem?_eq_getElem (h.length ▸ hlt))
    rw [Dag.depsOf_of_get hnd'] at hd
    -- the dependency's key is one of an earlier call
    have hmem : dag.nodes[d]?.map Node.key ∈ (nd.deps.map fun d => dag.nodes[d]?.map Node.key) :=
      List.mem_map_of_mem hd
    rw [hdeps] at hmem
    obtain ⟨k, hk, hkd⟩ := List.mem_map.mp hmem
    have hcall := hperm.mem_iff.mpr (List.getElem_mem (h.length ▸ hlt))
    obtain ⟨pre, post, hsplit⟩ := List.append_of_mem hcall
    have hpre := ho pre _ post hsplit k hk
    have hnodup : (keysOfCalls calls').Nodup := (hperm.map AddCall.key).nodup_iff.mpr hnd
    have hkeys : keysOfCalls calls' = keysOfCalls pre ++ nd.key :: keysOfCalls post := by
      rw [hsplit, keysOfCalls, List.map_append, List.map_cons, ← hkey]
      rfl
    have hnot : nd.key ∉ keysOfCalls pre := by
      rw [hkeys] at hnodup
      exact fun hin => (List.nodup_append.mp hnodup).2.2 _ hin _ List.mem_cons_self rfl
    show (dag.nodes[d]?.map Node.key).elim 0 _ < (dag.nodes[i]?.map Node.key).elim 0 _
    rw [← hkd, hnd', Option.map_some, Option.elim_some, Option.elim_some, hkeys, List.idxOf_append_of_mem hpre,
      List.idxOf_append_of_notMem hnot]
    exact Nat.lt_of_lt_of_le (List.idxOf_lt_length_of_mem hpre) (Nat.le_add_right _ _)
  have hpath : ∀ i j, Relation.TransGen (Edge dag.depsOf) i j → place j < place i := by
    intro i j hij
    induction hij with
    | single hd => exact hdown _ _ hd
    | tail _ hd ih => exact Nat.lt_trans (hdown _ _ hd) ih
  exact fun i hi => Nat.lt_irrefl _ (hpath i i hi)

omit [DecidableEq K] in
theorem Dag.BuiltFrom.keys_nodup (h : dag.BuiltFrom calls) : (keysOfCalls calls).Nodup := by
  refine List.nodup_iff_getElem?_ne_getElem?.mpr fun i j hij hj hsame => ?_
  rw [keysOfCalls, List.length_map] at hj
  have hi := Nat.lt_trans hij hj
  rw [keysOfCalls, List.getElem?_map, List.getElem?_map, List.getElem?_eq_getElem hi, List.getElem?_eq_getElem hj] at hsame
  -- both calls are at the position of the one key
  have hpos := (h.index_iff calls[j].key j).mpr ⟨_, List.getElem?_eq_getElem hj, rfl⟩
  rw [(h.index_iff calls[j].key i).mpr ⟨_, List.getElem?_eq_getElem hi, Option.some.inj hsame⟩] at hpos
  exact Nat.ne_of_lt hij (Option.some.inj hpos)

omit [DecidableEq K] in
/-- **The calls of a graph without cycles can be ordered**: by depth. -/
theorem Dag.BuiltFrom.exists_ordered (h : dag.BuiltFrom calls) (hdeps : ∀ c ∈ calls, ∀ k ∈ c.deps, k ∈ keysOfCalls calls)
    (hc : ∀ i, ¬ OnCycle dag.depsOf i) : ∃ calls', calls'.Perm calls ∧ Ordered calls' := by
  classical
  have hfin : { i | dag.depsOf i ≠ [] }.Finite := by
    refine (Set.finite_lt_nat dag.nodes.length).subset fun i hi => ?_
    by_contra hge
    exact hi (by rw [Dag.depsOf, List.getElem?_eq_none (Nat.le_of_not_lt hge)]; rfl)
  have hdepth : ∀ i, ∃ n, Depth dag.depsOf i n := by
    refine fun i => (exists_depth_iff hfin).mpr ?_
    rintro ⟨j, -, hj⟩
    exact hc j hj
  let rank : AddCall K O E ω → ℕ := fun c => (dag.index.get c.key).elim 0 (depth dag.depsOf)
  have hperm := List.perm_insertionSort (fun a b => rank a ≤ rank b) calls
  have hsorted := List.pairwise_insertionSort (fun a b => rank a ≤ rank b) calls
  refine ⟨_, hperm, fun pre c post hsplit k hk => ?_⟩
  rw [hsplit] at hsorted
  have hmem : c ∈ calls := hperm.mem_iff.mp (by rw [hsplit]; simp)
  obtain ⟨i, hi⟩ := List.getElem?_of_mem hmem
  obtain ⟨nd, hnd, hkey, -, hkeys⟩ := h.node i c hi
  -- the call of the dependency is less deep, so it is not behind
  have hkd : some k ∈ nd.deps.map fun d => dag.nodes[d]?.map Node.key := by
    rw [hkeys]
    exact List.mem_map_of_mem hk
  obtain ⟨d, hd, hdk⟩ := List.mem_map.mp hkd
  have hedge : d ∈ dag.depsOf i := by rwa [Dag.depsOf_of_get hnd]
  obtain ⟨n, hn⟩ := hdepth i
  obtain ⟨m, hlt, hm⟩ := hn.dep hedge
  have hrank : rank c = n := by
    have hci : dag.index.get c.key = some i := (h.index_iff c.key i).mpr ⟨c, hi, rfl⟩
    show (dag.index.get c.key).elim 0 _ = n
    rw [hci]
    exact hn.depth_eq
  have hin : k ∈ keysOfCalls (pre ++ c :: post) := by
    have hall := hdeps c hmem k hk
    rw [← hsplit]
    exact ((hperm.map AddCall.key).mem_iff).mpr hall
  rw [keysOfCalls, List.map_append, List.map_cons] at hin
  refine (List.mem_append.mp hin).resolve_right fun hbehind => ?_
  have hrest : ∃ c' ∈ c :: post, c'.key = k := List.mem_map.mp (by rwa [List.map_cons])
  obtain ⟨c', hc', rfl⟩ := hrest
  have hle : rank c ≤ rank c' := by
    rcases List.mem_cons.mp hc' with rfl | hpost
    · exact Nat.le_refl _
    · exact (List.pairwise_cons.mp (List.pairwise_append.mp hsorted).2.1).1 c' hpost
  have hrank' : rank c' = m := by
    have hcd : dag.index.get c'.key = some d := (dag.index_get c'.key d).mpr hdk
    show (dag.index.get c'.key).elim 0 _ = m
    rw [hcd]
    exact hm.depth_eq
  omega

/-! ## Runs -/

/-- Without a cycle `run_sequential` reports none. -/
theorem runSequential_no_cycle {outs : List K} (hc : dag.Acyclic outs) (env : Nat → ω) (rem : List K) :
    (runSequential dag outs env).1 ≠ .err (.cycle rem) := by
  have hrun := runSequential_run dag outs env
  generalize (runSequential dag outs env).1 = r, (execute dag outs env ()).result = ex,
    (runSequential dag outs env).2 = called at hrun
  intro hr
  cases hrun with
  | cycle hd hg inv hpre hq hstuck =>
    subst hd
    obtain ⟨i, hn, hdone⟩ := hstuck
    refine hc.not_reachesCycle hn ((inv.books.not_done_iff hg (fun j => ?_) hn).mp hdone)
    rw [hq]
    rfl
  | _ => cases hr

/-- A run that reports a cycle was not rejected. -/
theorem RunParallel.started_of_cycle {cfg : ExecutorConfig} {outs rem : List K} {panics : Bool} {log : List (Event O E)}
    (h : RunParallel dag cfg outs panics (.err (.cycle rem)) log) : cfg.Valid ∧ outs ≠ [] ∧ dag.KeysExist outs := by
  generalize hr : (.err (.cycle rem) : Outcome (ExecError K E) (HashMap K O)) = r at h
  cases h with
  | rejected hs =>
    cases hr
    by_contra hno
    rcases parStart_err hno () with ⟨msg, he⟩ | ⟨k, -, -, he⟩
    · rw [hs] at he
      cases he
    · rw [hs] at he
      cases he
  | completed hrun => exact ⟨hrun.good.valid, hrun.good.nonempty, hrun.good.keys⟩

/-- **Ordered calls and graphs without cycles are the same.** If there is a call and each call depends on keys of earlier
calls only, `build` succeeds, and the graph has no cycle. A graph that is built has no cycle exactly when its accepted
calls can be put in such an order. On a graph without cycles no request makes `run_sequential` report one, and where a run
of `run_parallel` does, it lists no node. -/
theorem build_order (calls : List (AddCall K O E ω)) :
    (Ordered calls → calls ≠ [] → ∃ dag, (ofCalls calls).build = .ok dag ∧ ∀ i, ¬ OnCycle dag.depsOf i) ∧
    ∀ dag, (ofCalls calls).build = .ok dag →
      ((∀ i, ¬ OnCycle dag.depsOf i) ↔
        ∃ calls', calls'.Perm ((new : DagBuilder K O E ω).accepted calls) ∧ Ordered calls') ∧
      ((∀ i, ¬ OnCycle dag.depsOf i) → ∀ outs,
        (∀ env rem, (runSequential dag outs env).1 ≠ .err (.cycle rem)) ∧
        ∀ cfg panics rem log, RunParallel dag cfg outs panics (.err (.cycle rem)) log → rem = []) := by
  have hstaging := ofCalls_staging calls
  refine ⟨fun ho hne => ?_, fun dag hb => ⟨⟨fun hc => ?_, ?_⟩, fun hc outs => ⟨?_, fun cfg panics rem log h => ?_⟩⟩⟩
  · have hacc := ho.accepted
    have hne' : (new : DagBuilder K O E ω).accepted calls ≠ [] := by
      obtain ⟨c, hc⟩ := List.exists_mem_of_ne_nil _ hne
      have hkey := (keysOfCalls_accepted calls c.key).mpr (List.mem_map_of_mem hc)
      intro hnil
      rw [hnil] at hkey
      cases hkey
    obtain ⟨dag, hb⟩ := (build_ok_iff hstaging).mpr ⟨hne', fun c hc k hk => hacc.deps hc hk⟩
    have hfrom := build_builtFrom hstaging hb
    exact ⟨dag, hb, hfrom.no_cycle hfrom.keys_nodup (List.Perm.refl _) hacc⟩
  · exact (build_builtFrom hstaging hb).exists_ordered ((build_ok_iff hstaging).mp ⟨dag, hb⟩).2 hc
  · rintro ⟨calls', hperm, ho⟩
    have hfrom := build_builtFrom hstaging hb
    exact hfrom.no_cycle hfrom.keys_nodup hperm ho
  · exact runSequential_no_cycle fun i _ => hc i
  · have hacyc : dag.Acyclic outs := fun i _ => hc i
    rcases h.report with ⟨hno, -⟩ | ⟨-, msg, he⟩ | ⟨-, vals, hr⟩
    · exact absurd h.started_of_cycle hno
    · cases he
    · exact (hr.cyclicKeys_of_cycle rfl).eq_nil hacyc

end DagExec
