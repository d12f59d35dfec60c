import DagExec.Model.Builder

/-!
# What a sequence of builder calls builds

The staging list is the list of accepted calls (`addAll_staging`), and a call is accepted exactly when its key is not
that of an earlier accepted one (`add_eq`). So `build` sees the accepted calls, in order: `Dag.BuiltFrom dag acc` says
that `dag` has one node for each of them, with its key, its value or function, and dependency ids that name the keys it
was declared with.
-/

namespace DagExec

open Outcome ListFacts

variable {K O E ω : Type}

/-- The node of an accepted call is staged. -/
def AddCall.staged : AddCall K O E ω → StagedNode K O E ω
  | source key value => ⟨key, [], .source value⟩
  | task key deps f => ⟨key, deps, .task f⟩

@[simp] theorem AddCall.staged_key (c : AddCall K O E ω) : c.staged.key = c.key := by
  cases c <;> rfl

@[simp] theorem AddCall.staged_deps (c : AddCall K O E ω) : c.staged.deps = c.deps := by
  cases c <;> rfl

@[simp] theorem AddCall.staged_kind (c : AddCall K O E ω) : c.staged.kind.toNodeKind = c.kind := by
  cases c <;> rfl

/-- The keys of some calls. -/
def keysOfCalls (calls : List (AddCall K O E ω)) : List K := calls.map AddCall.key

/-- `dag` has one node for each call, in order. -/
structure Dag.BuiltFrom (dag : Dag K O E ω) (calls : List (AddCall K O E ω)) : Prop where
  length : dag.nodes.length = calls.length
  node : ∀ (i : NodeId) (c : AddCall K O E ω), calls[i]? = some c → ∃ nd, dag.nodes[i]? = some nd ∧ nd.key = c.key ∧
    nd.kind = c.kind ∧ nd.deps.map (fun d => dag.nodes[d]?.map Node.key) = c.deps.map some

namespace DagBuilder

variable [DecidableEq K] {b : DagBuilder K O E ω} {calls : List (AddCall K O E ω)}

omit [DecidableEq K] in
/-- A key is in the builder's map exactly when a node with it is staged. -/
theorem containsKey_iff (b : DagBuilder K O E ω) (k : K) :
    b.index.containsKey k = true ↔ k ∈ b.staging.map StagedNode.key := by
  rw [HashMap.containsKey, Option.isSome_iff_exists]
  constructor
  · rintro ⟨i, hi⟩
    obtain ⟨n, hn, rfl⟩ := Option.map_eq_some_iff.mp ((b.index_get k i).mp hi)
    exact List.mem_map_of_mem (List.mem_of_getElem? hn)
  · intro hk
    obtain ⟨n, hn, rfl⟩ := List.mem_map.mp hk
    obtain ⟨i, hi⟩ := List.getElem?_of_mem hn
    exact ⟨i, (b.index_get n.key i).mpr (by rw [hi]; rfl)⟩

/-- **One call**: a key that is taken is rejected and the builder stays as it is, any other is staged. -/
theorem add_eq (b : DagBuilder K O E ω) (c : AddCall K O E ω) :
    (c.key ∈ b.staging.map StagedNode.key ∧ b.add c = (.err (.duplicateKey c.key), b)) ∨
      (c.key ∉ b.staging.map StagedNode.key ∧ (b.add c).1 = .ok () ∧
        (b.add c).2.staging = b.staging ++ [c.staged]) := by
  rw [← b.containsKey_iff]
  cases c with
  | source key value =>
    simp only [add, addSource, insertNode, AddCall.key]
    split
    · rename_i h
      exact .inl ⟨h, rfl⟩
    · rename_i h
      exact .inr ⟨h, rfl, rfl⟩
  | task key deps f =>
    simp only [add, addTask, insertNode, AddCall.key]
    split
    · rename_i h
      exact .inl ⟨h, rfl⟩
    · rename_i h
      exact .inr ⟨h, rfl, rfl⟩

/-- What the next call does to the accepted calls. -/
theorem accepted_cons (b : DagBuilder K O E ω) (c : AddCall K O E ω) (cs : List (AddCall K O E ω)) :
    (c.key ∈ b.staging.map StagedNode.key ∧ (b.add c).2 = b ∧ b.accepted (c :: cs) = b.accepted cs) ∨
      (c.key ∉ b.staging.map StagedNode.key ∧ (b.add c).2.staging = b.staging ++ [c.staged] ∧
        b.accepted (c :: cs) = c :: (b.add c).2.accepted cs) := by
  rcases b.add_eq c with ⟨hmem, hadd⟩ | ⟨hno, hok, hstaging⟩
  · refine .inl ⟨hmem, by rw [hadd], ?_⟩
    rw [accepted, accepted, addAll, List.zip_cons_cons, List.filter_cons_of_neg (by rw [hadd]; nofun), hadd]
  · refine .inr ⟨hno, hstaging, ?_⟩
    rw [accepted, accepted, addAll, List.zip_cons_cons, List.filter_cons_of_pos (by rw [hok]; rfl), List.map_cons]

/-- The staging list after some calls: what was staged before, and the accepted calls. -/
theorem addAll_staging_append (b : DagBuilder K O E ω) (calls : List (AddCall K O E ω)) :
    (b.addAll calls).2.staging = b.staging ++ (b.accepted calls).map AddCall.staged := by
  induction calls generalizing b with
  | nil => simp [addAll, accepted]
  | cons c cs ih =>
    have hrec := ih (b.add c).2
    rcases b.accepted_cons c cs with ⟨-, hsame, hacc⟩ | ⟨-, hstaging, hacc⟩
    · rw [addAll, hacc, hrec, hsame]
    · rw [addAll, hacc, hrec, hstaging, List.map_cons, List.append_assoc]
      rfl

/-- Acceptance is decided key by key: among the calls with certain keys, the same are accepted. -/
theorem accepted_filter (p : K → Bool) {b b' : DagBuilder K O E ω}
    (h : ∀ k, p k = true → (k ∈ b.staging.map StagedNode.key ↔ k ∈ b'.staging.map StagedNode.key))
    (calls : List (AddCall K O E ω)) :
    b'.accepted (calls.filter fun c => p c.key) = (b.accepted calls).filter fun c => p c.key := by
  induction calls generalizing b b' with
  | nil => rfl
  | cons c cs ih =>
    by_cases hp : p c.key = true
    · rw [List.filter_cons, if_pos hp]
      rcases b.accepted_cons c cs with ⟨hmem, -, hacc⟩ | ⟨hno, hstaging, hacc⟩ <;>
        rcases b'.accepted_cons c (cs.filter fun c => p c.key) with ⟨hmem', -, hacc'⟩ | ⟨hno', hstaging', hacc'⟩
      · rw [hacc, hacc', ih h]
      · exact absurd ((h c.key hp).mp hmem) hno'
      · exact absurd ((h c.key hp).mpr hmem') hno
      · rw [hacc, hacc', List.filter_cons, if_pos hp, ih fun k hk => ?_]
        rw [hstaging, hstaging', List.map_append, List.map_append, List.mem_append, List.mem_append, h k hk]
    · rw [List.filter_cons, if_neg hp]
      rcases b.accepted_cons c cs with ⟨-, -, hacc⟩ | ⟨-, hstaging, hacc⟩
      · rw [hacc, ih h]
      · rw [hacc, List.filter_cons, if_neg hp, ih fun k hk => ?_]
        have hne : k ≠ c.key := by
          rintro rfl
          exact hp hk
        rw [hstaging, List.map_append, List.mem_append, h k hk]
        simp [hne]

/-- Later calls do not change what earlier ones returned. -/
theorem addAll_append (b : DagBuilder K O E ω) (xs ys : List (AddCall K O E ω)) : b.addAll (xs ++ ys) =
    ((b.addAll xs).1 ++ ((b.addAll xs).2.addAll ys).1, ((b.addAll xs).2.addAll ys).2) := by
  induction xs generalizing b with
  | nil => rfl
  | cons x xs ih => simp only [List.cons_append, addAll, ih]

theorem addAll_length (b : DagBuilder K O E ω) (calls : List (AddCall K O E ω)) :
    (b.addAll calls).1.length = calls.length := by
  induction calls generalizing b with
  | nil => rfl
  | cons c cs ih => simp only [addAll, List.length_cons, ih]

/-- The staging list of a builder that started empty. -/
theorem ofCalls_staging (calls : List (AddCall K O E ω)) :
    (ofCalls calls).staging = (new.accepted calls).map AddCall.staged :=
  addAll_staging_append new calls

theorem ofCalls_keys (calls : List (AddCall K O E ω)) :
    (ofCalls calls).staging.map StagedNode.key = keysOfCalls (new.accepted calls) := by
  rw [ofCalls_staging, List.map_map, keysOfCalls]
  exact List.map_congr_left fun c _ => c.staged_key

/-! ## Building -/

/-- The first dependency key, in insertion order and then in dependency order, that no call has. -/
def FirstMissing (calls : List (AddCall K O E ω)) (task missing : K) : Prop :=
  ∃ pre c post dpre dpost, calls = pre ++ c :: post ∧ c.deps = dpre ++ missing :: dpost ∧ c.key = task ∧
    missing ∉ keysOfCalls calls ∧ (∀ k ∈ dpre, k ∈ keysOfCalls calls) ∧
    ∀ c' ∈ pre, ∀ k ∈ c'.deps, k ∈ keysOfCalls calls

omit [DecidableEq K] in
theorem resolveNode_eq (ids : HashMap K NodeId) (c : AddCall K O E ω) : resolveNode ids c.staged =
    c.deps.mapM (fun depKey => okOr (ids.get depKey) (.missingDependency c.key depKey)) >>= fun depIds =>
      pure ⟨c.key, depIds, c.kind⟩ := by
  rw [resolveNode, c.staged_deps, c.staged_key, c.staged_kind]
  congr 2
  funext depKey
  cases ids.get depKey <;> rfl

omit [DecidableEq K] in
theorem resolveNode_returns (ids : HashMap K NodeId) (c : AddCall K O E ω) :
    (∃ nd, resolveNode ids c.staged = .ok nd) ∨ ∃ e, resolveNode ids c.staged = .err e := by
  rw [resolveNode_eq]
  rcases mapM_returns fun k (_ : k ∈ c.deps) => okOr_returns (ids.get k) (BuildError.missingDependency c.key k)
    with ⟨ds, hds⟩ | ⟨e, he⟩
  · exact .inl ⟨_, by rw [hds, ok_bind, pure_eq]⟩
  · exact .inr ⟨e, by rw [he, err_bind]⟩

section Build

variable {dag : Dag K O E ω} (h : b.staging = calls.map AddCall.staged)
include h

omit [DecidableEq K] in
theorem index_iff (k : K) : (∃ i, b.index.get k = some i) ↔ k ∈ keysOfCalls calls := by
  have hkeys : b.staging.map StagedNode.key = keysOfCalls calls := by
    rw [h, List.map_map, keysOfCalls]
    exact List.map_congr_left fun c _ => c.staged_key
  rw [← hkeys, ← b.containsKey_iff, HashMap.containsKey, Option.isSome_iff_exists]
  rfl

omit [DecidableEq K] in
theorem okOr_index (c : AddCall K O E ω) (k : K) :
    (∃ i, (okOr (b.index.get k) (.missingDependency c.key k) : Outcome (BuildError K) NodeId) = .ok i) ↔
      k ∈ keysOfCalls calls := by
  simp only [okOr_eq_ok]
  exact index_iff h k

omit [DecidableEq K] in
/-- Resolving a staged call succeeds when its dependency keys exist. -/
theorem resolveNode_ok_iff (c : AddCall K O E ω) :
    (∃ nd, resolveNode b.index c.staged = .ok nd) ↔ ∀ k ∈ c.deps, k ∈ keysOfCalls calls := by
  have hids : (∃ ids, c.deps.mapM (fun k => okOr (b.index.get k) (BuildError.missingDependency c.key k)) = .ok ids) ↔
      ∀ k ∈ c.deps, k ∈ keysOfCalls calls := by
    simp only [mapM_ok_iff, okOr_index h c]
  rw [resolveNode_eq, ← hids]
  constructor
  · rintro ⟨nd, hnd⟩
    obtain ⟨ids, hmap, -⟩ := bind_eq_ok.mp hnd
    exact ⟨ids, hmap⟩
  · rintro ⟨ids, hmap⟩
    exact ⟨_, bind_eq_ok.mpr ⟨ids, hmap, rfl⟩⟩

omit [DecidableEq K] in
/-- Otherwise it reports the call's first dependency key that no call has. -/
theorem resolveNode_err_iff (c : AddCall K O E ω) (e : BuildError K) : resolveNode b.index c.staged = .err e ↔
    ∃ dpre k dpost, c.deps = dpre ++ k :: dpost ∧ e = .missingDependency c.key k ∧ k ∉ keysOfCalls calls ∧
      ∀ k' ∈ dpre, k' ∈ keysOfCalls calls := by
  have hone : ∀ k, (okOr (b.index.get k) (.missingDependency c.key k) : Outcome (BuildError K) NodeId) = .err e ↔
      k ∉ keysOfCalls calls ∧ e = .missingDependency c.key k := fun k => by
    rw [← index_iff h k]
    cases b.index.get k with
    | some i => simp [okOr]
    | none => simp [okOr, eq_comm]
  rw [resolveNode_eq, bind_eq_err]
  simp only [pure_eq, reduceCtorEq, and_false, exists_false, or_false]
  rw [mapM_eq_err]
  constructor
  · rintro ⟨dpre, k, dpost, hsplit, hpre, hk⟩
    obtain ⟨hno, he⟩ := (hone k).mp hk
    exact ⟨dpre, k, dpost, hsplit, he, hno, fun k' hk' => (okOr_index h c k').mp (hpre k' hk')⟩
  · rintro ⟨dpre, k, dpost, hsplit, he, hno, hpre⟩
    exact ⟨dpre, k, dpost, hsplit, fun k' hk' => (okOr_index h c k').mpr (hpre k' hk'), (hone k).mpr ⟨hno, he⟩⟩

omit [DecidableEq K] in
/-- The nodes that the staged calls resolve to. -/
theorem builtFrom_of_resolved {nodes : List (Node K O E ω)}
    (hr : b.staging.mapM (resolveNode b.index) = .ok nodes) (hd : dag.nodes = nodes) :
    dag.BuiltFrom calls := by
  have hr := mapM_eq_ok.mp hr
  rw [h] at hr
  refine ⟨by rw [hd, ← hr.length_eq, List.length_map], fun i c hc => ?_⟩
  obtain ⟨nd, hnd, hres⟩ := forall₂_get_left hr (i := i) (x := c.staged) (by rw [List.getElem?_map, hc]; rfl)
  obtain ⟨hkey, hkind, hdeps⟩ := resolveNode_ok hres
  refine ⟨nd, hd ▸ hnd, hkey.trans c.staged_key, hkind.trans c.staged_kind, ?_⟩
  -- the id of a dependency is the position its key is staged at
  rw [c.staged_deps] at hdeps
  clear hkind
  generalize c.deps = deps, nd.deps = ds at hdeps
  have hname : ∀ k d, b.index.get k = some d → dag.nodes[d]?.map Node.key = some k := fun k d hkd => by
    obtain ⟨n, hn, hnk⟩ := Option.map_eq_some_iff.mp ((b.index_get k d).mp hkd)
    rw [h] at hn
    obtain ⟨nd', hnd', hres'⟩ := forall₂_get_left hr hn
    rw [hd, hnd', Option.map_some, (resolveNode_ok hres').1, hnk]
  induction hdeps with
  | nil => rfl
  | cons hk _ ih => rw [List.map_cons, List.map_cons, ih, hname _ _ hk]

omit h in
theorem build_of_ok (hne : b.staging ≠ []) {nodes : List (Node K O E ω)}
    (hr : b.staging.mapM (resolveNode b.index) = .ok nodes) : ∃ dag, b.build = .ok dag ∧ dag.nodes = nodes := by
  have hstaged : ¬ b.staging.isEmpty := by simpa using hne
  unfold build
  rw [if_neg hstaged]
  split <;> rename_i hr' <;> rw [b.keyToId_get, hr] at hr' <;> cases hr'
  exact ⟨_, rfl, rfl⟩

omit h in
theorem build_of_err (hne : b.staging ≠ []) {e : BuildError K} (hr : b.staging.mapM (resolveNode b.index) = .err e) :
    b.build = .err e := by
  have hstaged : ¬ b.staging.isEmpty := by simpa using hne
  unfold build
  rw [if_neg hstaged]
  split <;> rename_i hr' <;> rw [b.keyToId_get, hr] at hr' <;> cases hr'
  rfl

/-- **`build` on the staged calls**: nothing staged is an empty graph, a dependency key that no call has is reported,
the first one first, and otherwise the calls are built. -/
theorem build_eq : (calls = [] ∧ b.build = .err .emptyGraph) ∨
    (∃ task missing, FirstMissing calls task missing ∧ b.build = .err (.missingDependency task missing)) ∨
    (calls ≠ [] ∧ (∀ c ∈ calls, ∀ k ∈ c.deps, k ∈ keysOfCalls calls) ∧
      ∃ dag, b.build = .ok dag ∧ dag.BuiltFrom calls) := by
  by_cases hne : calls = []
  · exact .inl ⟨hne, by rw [build, if_pos (by rw [h, hne]; rfl)]⟩
  refine .inr ?_
  have hstaged : b.staging ≠ [] := by
    rw [h]
    simpa using hne
  have hreturns : ∀ n ∈ b.staging, (∃ nd, resolveNode b.index n = .ok nd) ∨ ∃ e, resolveNode b.index n = .err e := by
    intro n hn
    rw [h] at hn
    obtain ⟨c, -, rfl⟩ := List.mem_map.mp hn
    exact resolveNode_returns b.index c
  rcases mapM_returns hreturns with ⟨nodes, hr⟩ | ⟨e, hr⟩
  · obtain ⟨dag, hdag, hnodes⟩ := build_of_ok hstaged hr
    refine .inr ⟨hne, fun c hc => ?_, dag, hdag, builtFrom_of_resolved h hr hnodes⟩
    have hmem : c.staged ∈ b.staging := by
      rw [h]
      exact List.mem_map_of_mem hc
    exact (resolveNode_ok_iff h c).mp (mapM_ok_iff.mp ⟨nodes, hr⟩ _ hmem)
  · have hbuild := build_of_err hstaged hr
    obtain ⟨pre, n, post, hsplit, hpre, hn⟩ := mapM_eq_err.mp hr
    rw [h] at hsplit
    obtain ⟨cpre, crest, rfl, rfl, hrest⟩ := List.map_eq_append_iff.mp hsplit
    obtain ⟨c, cpost, rfl, rfl, rfl⟩ := List.map_eq_cons_iff.mp hrest
    obtain ⟨dpre, k, dpost, hdeps, rfl, hno, hdpre⟩ := (resolveNode_err_iff h c e).mp hn
    refine .inl ⟨c.key, k, ⟨cpre, c, cpost, dpre, dpost, rfl, hdeps, rfl, hno, hdpre, fun c' hc' => ?_⟩, hbuild⟩
    exact (resolveNode_ok_iff h c').mp (hpre c'.staged (List.mem_map_of_mem hc'))

end Build

omit [DecidableEq K] in
/-- The first missing pair is unique. -/
theorem FirstMissing.unique {task task' missing missing' : K} (h : FirstMissing calls task missing)
    (h' : FirstMissing calls task' missing') : task = task' ∧ missing = missing' := by
  obtain ⟨pre, c, post, dpre, dpost, hsplit, hdeps, rfl, hno, hdpre, hpre⟩ := h
  obtain ⟨pre', c', post', dpre', dpost', hsplit', hdeps', rfl, hno', hdpre', hpre'⟩ := h'
  have hbad : ∀ {c : AddCall K O E ω} {ds ds' : List K} {k : K}, c.deps = ds ++ k :: ds' → k ∉ keysOfCalls calls →
      ¬ ∀ k ∈ c.deps, k ∈ keysOfCalls calls := fun hd hk hall => hk (hall _ (by rw [hd]; simp))
  obtain rfl : c = c' := first_unique (P := fun c : AddCall K O E ω => ∀ k ∈ c.deps, k ∈ keysOfCalls calls)
    (hsplit.symm.trans hsplit') hpre (hbad hdeps hno) hpre' (hbad hdeps' hno')
  exact ⟨rfl, first_unique (P := (· ∈ keysOfCalls calls)) (hdeps.symm.trans hdeps') hdpre hno hdpre' hno'⟩

omit [DecidableEq K] in
theorem FirstMissing.exists_missing {task missing : K} (h : FirstMissing calls task missing) :
    calls ≠ [] ∧ ∃ c ∈ calls, ∃ k ∈ c.deps, k ∉ keysOfCalls calls := by
  obtain ⟨pre, c, post, dpre, dpost, hsplit, hdeps, -, hno, -⟩ := h
  exact ⟨by rw [hsplit]; simp, c, by rw [hsplit]; simp, missing, by rw [hdeps]; simp, hno⟩

section Build

variable (h : b.staging = calls.map AddCall.staged)
include h

theorem build_emptyGraph_iff : b.build = .err .emptyGraph ↔ calls = [] := by
  rcases build_eq h with ⟨hnil, hb⟩ | ⟨t, m, hfirst, hb⟩ | ⟨hne, -, dag, hb, -⟩ <;> rw [hb]
  · simp [hnil]
  · simp [hfirst.exists_missing.1]
  · simp [hne]

/-- Which pair is reported. -/
theorem build_missing_iff (task missing : K) :
    b.build = .err (.missingDependency task missing) ↔ FirstMissing calls task missing := by
  constructor
  · intro hb
    rcases build_eq h with ⟨-, hb'⟩ | ⟨t, m, hfirst, hb'⟩ | ⟨-, -, dag, hb', -⟩ <;> rw [hb] at hb' <;> cases hb'
    exact hfirst
  · intro hfirst
    obtain ⟨hne, c, hc, k, hk, hno⟩ := hfirst.exists_missing
    rcases build_eq h with ⟨hnil, -⟩ | ⟨t, m, hfirst', hb⟩ | ⟨-, hall, -⟩
    · exact absurd hnil hne
    · obtain ⟨rfl, rfl⟩ := hfirst.unique hfirst'
      exact hb
    · exact absurd (hall c hc k hk) hno

theorem build_missing_exists_iff : (∃ task missing, b.build = .err (.missingDependency task missing)) ↔
    ∃ c ∈ calls, ∃ k ∈ c.deps, k ∉ keysOfCalls calls := by
  constructor
  · rintro ⟨t, m, hb⟩
    exact ((build_missing_iff h t m).mp hb).exists_missing.2
  · rintro ⟨c, hc, k, hk, hno⟩
    rcases build_eq h with ⟨rfl, -⟩ | ⟨t, m, -, hb⟩ | ⟨-, hall, -⟩
    · cases hc
    · exact ⟨t, m, hb⟩
    · exact absurd (hall c hc k hk) hno

theorem build_ok_iff : (∃ dag, b.build = .ok dag) ↔
    calls ≠ [] ∧ ∀ c ∈ calls, ∀ k ∈ c.deps, k ∈ keysOfCalls calls := by
  constructor
  · rintro ⟨dag, hb⟩
    rcases build_eq h with ⟨-, hb'⟩ | ⟨t, m, -, hb'⟩ | ⟨hne, hall, -⟩
    · rw [hb] at hb'
      cases hb'
    · rw [hb] at hb'
      cases hb'
    · exact ⟨hne, hall⟩
  · rintro ⟨hne, hall⟩
    rcases build_eq h with ⟨hnil, -⟩ | ⟨t, m, hfirst, -⟩ | ⟨-, -, dag, hb, -⟩
    · exact absurd hnil hne
    · obtain ⟨-, c, hc, k, hk, hno⟩ := hfirst.exists_missing
      exact absurd (hall c hc k hk) hno
    · exact ⟨dag, hb⟩

theorem build_builtFrom {dag : Dag K O E ω} (hb : b.build = .ok dag) : dag.BuiltFrom calls := by
  rcases build_eq h with ⟨-, hb'⟩ | ⟨t, m, -, hb'⟩ | ⟨-, -, dag', hb', hfrom⟩ <;> rw [hb] at hb' <;> cases hb'
  exact hfrom

end Build

/-- What the next call returns. -/
theorem ofCalls_add (pre : List (AddCall K O E ω)) (c : AddCall K O E ω) :
    (∀ k, ((ofCalls pre).add c).1 = .err (.duplicateKey k) ↔ c.key = k ∧ k ∈ keysOfCalls (new.accepted pre)) ∧
      (((ofCalls pre).add c).1 = .ok () ∨ (ofCalls pre).add c = (.err (.duplicateKey c.key), ofCalls pre)) := by
  rw [← ofCalls_keys]
  rcases (ofCalls pre).add_eq c with ⟨hmem, hadd⟩ | ⟨hno, hok, -⟩
  · refine ⟨fun k => ?_, .inr hadd⟩
    rw [hadd]
    constructor
    · intro h
      cases h
      exact ⟨rfl, hmem⟩
    · rintro ⟨rfl, -⟩
      rfl
  · refine ⟨fun k => ?_, .inl hok⟩
    rw [hok]
    constructor
    · nofun
    · rintro ⟨rfl, hmem⟩
      exact absurd hmem hno

end DagBuilder

/-! ## Whole sequences -/

namespace Dag.BuiltFrom

variable {dag : Dag K O E ω} {calls : List (AddCall K O E ω)}

/-- The keys of the calls are at the calls' positions, and nowhere else. -/
theorem index_iff (h : dag.BuiltFrom calls) (k : K) (i : NodeId) :
    dag.index.get k = some i ↔ ∃ c, calls[i]? = some c ∧ c.key = k := by
  rw [dag.index_get]
  constructor
  · intro hk
    obtain ⟨nd, hnd, rfl⟩ := Option.map_eq_some_iff.mp hk
    have hlt : i < calls.length := h.length ▸ (List.getElem?_eq_some_iff.mp hnd).1
    obtain ⟨nd', hnd', hkey, -⟩ := h.node i _ (List.getElem?_eq_getElem hlt)
    rw [hnd] at hnd'
    cases hnd'
    exact ⟨_, List.getElem?_eq_getElem hlt, hkey.symm⟩
  · rintro ⟨c, hc, rfl⟩
    obtain ⟨nd, hnd, hkey, -⟩ := h.node i c hc
    rw [hnd, Option.map_some, hkey]

/-- Each position has exactly one key. -/
theorem index_bijective (h : dag.BuiltFrom calls) {i : NodeId} (hi : i < calls.length) :
    ∃! k, dag.index.get k = some i := by
  refine ⟨calls[i].key, (h.index_iff _ i).mpr ⟨_, List.getElem?_eq_getElem hi, rfl⟩, fun k hk => ?_⟩
  obtain ⟨c, hc, rfl⟩ := (h.index_iff k i).mp hk
  rw [List.getElem?_eq_getElem hi, Option.some.injEq] at hc
  rw [hc]

end Dag.BuiltFrom

open DagBuilder

variable [DecidableEq K]

/-- **The builder is correct over whole sequences of calls**, whatever is rejected on the way.

- A call returns `DuplicateKey(k)` exactly when its key `k` is that of an earlier accepted call, and then the builder
  stays as it is; any other call returns `Ok`.
- `build` returns `EmptyGraph` exactly when nothing was accepted, and `MissingDependency` exactly when an accepted task
  has a dependency key that no accepted call has, with the first such pair in insertion order and then dependency order.
- Otherwise it returns a graph whose `i`-th node is the `i`-th accepted call with its value or function, whose index is
  the bijection between the keys and the positions, and whose dependency ids are in range and name the declared keys in
  order and multiplicity; sources have none. -/
theorem builder_correct (calls : List (AddCall K O E ω)) :
    (∀ pre c post, calls = pre ++ c :: post →
      ((new : DagBuilder K O E ω).addAll calls).1[pre.length]? = some ((ofCalls pre).add c).1 ∧
      ofCalls (pre ++ [c]) = ((ofCalls pre).add c).2 ∧
      (∀ k, ((ofCalls pre).add c).1 = .err (.duplicateKey k) ↔
        c.key = k ∧ k ∈ keysOfCalls ((new : DagBuilder K O E ω).accepted pre)) ∧
      (((ofCalls pre).add c).1 = .ok () ∨ ((ofCalls pre).add c) = (.err (.duplicateKey c.key), ofCalls pre))) ∧
    ((ofCalls calls).build = .err .emptyGraph ↔ (new : DagBuilder K O E ω).accepted calls = []) ∧
    ((∃ task missing, (ofCalls calls).build = .err (.missingDependency task missing)) ↔
      ∃ c ∈ (new : DagBuilder K O E ω).accepted calls, ∃ k ∈ c.deps,
        k ∉ keysOfCalls ((new : DagBuilder K O E ω).accepted calls)) ∧
    (∀ task missing, (ofCalls calls).build = .err (.missingDependency task missing) ↔
      FirstMissing ((new : DagBuilder K O E ω).accepted calls) task missing) ∧
    ((∃ dag, (ofCalls calls).build = .ok dag) ↔ (new : DagBuilder K O E ω).accepted calls ≠ [] ∧
      ∀ c ∈ (new : DagBuilder K O E ω).accepted calls, ∀ k ∈ c.deps,
        k ∈ keysOfCalls ((new : DagBuilder K O E ω).accepted calls)) ∧
    ∀ dag, (ofCalls calls).build = .ok dag → dag.BuiltFrom ((new : DagBuilder K O E ω).accepted calls) ∧
      (∀ k i, dag.index.get k = some i ↔
        ∃ c, ((new : DagBuilder K O E ω).accepted calls)[i]? = some c ∧ c.key = k) ∧
      (∀ i < dag.nodes.length, ∃! k, dag.index.get k = some i) ∧
      (∀ nd ∈ dag.nodes, ∀ d ∈ nd.deps, d < dag.nodes.length) ∧
      ∀ nd ∈ dag.nodes, ∀ v, nd.kind = .source v → nd.deps = [] := by
  have h := ofCalls_staging calls
  refine ⟨?_, build_emptyGraph_iff h, build_missing_exists_iff h, build_missing_iff h, build_ok_iff h,
    fun dag hdag => ?_⟩
  · rintro pre c post rfl
    refine ⟨?_, ?_, ofCalls_add pre c⟩
    · rw [addAll_append, List.getElem?_append_right (by rw [addAll_length]), addAll_length, Nat.sub_self]
      rfl
    · rw [ofCalls, addAll_append]
      rfl
  · have hfrom := build_builtFrom h hdag
    exact ⟨hfrom, hfrom.index_iff, fun i hi => hfrom.index_bijective (hfrom.length ▸ hi), dag.deps_lt,
      dag.source_deps⟩

end DagExec
