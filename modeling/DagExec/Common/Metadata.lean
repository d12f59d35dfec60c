import DagExec.Common.Closure

/-!
# `build_kahn_metadata`, seeding, and the reports

- `buildKahnMetadata_ok`: the counters are the lengths of the needed nodes' dependency lists, `dependents[d]` lists each
  needed node as often as `d` occurs in its list, in insertion order, and `needed_count` counts the needed nodes;
- `seed_ok`: the seeded queue is the needed nodes with counter zero, in insertion order;
- `remainingKeys_ok`: a cycle report lists the keys of the needed nodes with a positive counter, in insertion order;
- `collectOutputs_ok`: collecting returns the values of exactly the requested keys.
-/

namespace DagExec

open Outcome

variable {K O E ω R ε : Type}

/-- The `i`-th counter. -/
def counter (indeg : List Nat) (i : NodeId) : Nat := indeg[i]?.getD 0

theorem counter_set {indeg : List Nat} {i j : NodeId} {k : Nat} (hi : i < indeg.length) :
    counter (indeg.set i k) j = if j = i then k else counter indeg j := by
  unfold counter
  rw [List.getElem?_set]
  by_cases h : j = i
  · subst h; simp [hi]
  · simp [h, Ne.symm h]

theorem index_counter {indeg : List Nat} {i : NodeId} (hi : i < indeg.length) :
    (index indeg i : Outcome ε Nat) = ok (counter indeg i) :=
  index_of_get (by simp [counter, List.getElem?_eq_getElem hi])

/-! ## Picking ids from a mask -/

/-- The positions of the set flags that satisfy `p`, in order. -/
def pickIds (mask : List Bool) (p : NodeId → Bool) : List NodeId :=
  (mask.zipIdx.filter fun x => x.1 && p x.2).map Prod.snd

theorem mem_pickIds {mask : List Bool} {p : NodeId → Bool} {i : NodeId} :
    i ∈ pickIds mask p ↔ flag mask i = true ∧ p i = true := by
  rw [flag_eq_true]
  simp only [pickIds, List.mem_map, List.mem_filter, Prod.exists, exists_eq_right, List.mk_mem_zipIdx_iff_getElem?,
    Bool.and_eq_true]
  constructor
  · rintro ⟨b, hb, rfl, hp⟩; exact ⟨hb, hp⟩
  · rintro ⟨hb, hp⟩; exact ⟨true, hb, rfl, hp⟩

theorem pickIds_sorted (mask : List Bool) (p : NodeId → Bool) : (pickIds mask p).Pairwise (· < ·) := by
  have hsub : (pickIds mask p).Sublist (mask.zipIdx.map Prod.snd) := List.filter_sublist.map _
  refine List.Pairwise.sublist hsub ?_
  rw [List.zipIdx_map_snd]
  exact List.pairwise_lt_range'

theorem pickIds_count (mask : List Bool) (p : NodeId → Bool) (i : NodeId) :
    (pickIds mask p).count i = if flag mask i = true ∧ p i = true then 1 else 0 := by
  have hnd : (pickIds mask p).Nodup := (pickIds_sorted mask p).imp fun h => Nat.ne_of_lt h
  by_cases h : i ∈ pickIds mask p
  · rw [List.count_eq_one_of_mem hnd h, if_pos (mem_pickIds.mp h)]
  · rw [List.count_eq_zero.mpr h, if_neg fun hc => h (mem_pickIds.mpr hc)]

/-- A loop over a mask that acts on the picked positions only. -/
theorem foldlM_mask {β : Type} {mask : List Bool} {p : NodeId → Bool} {body : β → Bool × NodeId → Outcome ε β}
    (upd : β → NodeId → β)
    (hbody : ∀ acc b i, i < mask.length → body acc (b, i) = ok (if b && p i then upd acc i else acc)) (acc : β) :
    mask.zipIdx.foldlM body acc = ok ((pickIds mask p).foldl upd acc) := by
  have hall : ∀ x ∈ mask.zipIdx, x.2 < mask.length := fun x hx => by
    have := List.mem_zipIdx hx
    omega
  unfold pickIds
  generalize mask.zipIdx = l at hall
  induction l generalizing acc with
  | nil => rfl
  | cons x l ih =>
    obtain ⟨b, i⟩ := x
    have hi : i < mask.length := hall (b, i) List.mem_cons_self
    have ih := fun acc => ih acc fun x hx => hall x (List.mem_cons_of_mem _ hx)
    rw [List.foldlM_cons, hbody acc b i hi, ok_bind, ih, List.filter_cons]
    cases hbp : (b && p i) <;> simp

/-! ## The metadata -/

section Metadata

variable {dag : Dag K O E ω} {needed : List Bool}

/-- The dependents of `d` among the first `k` nodes. -/
def dependentsBelow (dag : Dag K O E ω) (needed : List Bool) (d : NodeId) (k : Nat) : List NodeId :=
  (List.range k).flatMap fun i => if flag needed i then List.replicate ((dag.depsOf i).count d) i else []

theorem dependentsBelow_succ (d : NodeId) (k : Nat) : dependentsBelow dag needed d (k + 1) =
    dependentsBelow dag needed d k ++ if flag needed k then List.replicate ((dag.depsOf k).count d) k else [] := by
  simp [dependentsBelow, List.range_succ]

theorem dependentsBelow_count (d i k : Nat) : (dependentsBelow dag needed d k).count i =
    if i < k ∧ flag needed i = true then (dag.depsOf i).count d else 0 := by
  induction k with
  | zero => simp [dependentsBelow]
  | succ k ih =>
    rw [dependentsBelow_succ, List.count_append, ih]
    by_cases hik : i = k
    · subst hik
      cases hf : flag needed i <;> simp
    · have : (if flag needed k then List.replicate ((dag.depsOf k).count d) k else []).count i = 0 := by
        split <;> simp [List.count_replicate, Ne.symm hik]
      have hlt : i < k ↔ i < k + 1 := ⟨fun h => by omega, fun h => by omega⟩
      simp only [this, hlt, Nat.add_zero]

/-- The dependents are listed in insertion order. -/
theorem dependentsBelow_sorted (d k : Nat) : (dependentsBelow dag needed d k).Pairwise (· ≤ ·) := by
  have hmem : ∀ {i j : Nat}, j ∈ (if flag needed i then List.replicate ((dag.depsOf i).count d) i else []) → j = i := by
    intro i j hj
    split at hj
    · exact List.eq_of_mem_replicate hj
    · cases hj
  refine List.pairwise_flatMap.mpr ⟨fun i _ => ?_, List.pairwise_lt_range.imp fun hlt x hx y hy => ?_⟩
  · refine List.pairwise_of_forall_mem_list fun x hx y hy => ?_
    rw [hmem hx, hmem hy]
  · rw [hmem hx, hmem hy]
    exact Nat.le_of_lt hlt

/-- The metadata after the first `k` nodes. -/
structure MetadataUpTo (dag : Dag K O E ω) (needed : List Bool) (k : Nat)
    (m : List (List NodeId) × List Nat × Nat) : Prop where
  dependents_length : m.1.length = dag.nodes.length
  indeg_length : m.2.1.length = dag.nodes.length
  dependents : ∀ d < dag.nodes.length, m.1[d]? = some (dependentsBelow dag needed d k)
  indeg : ∀ i, counter m.2.1 i = if i < k ∧ flag needed i = true then (dag.depsOf i).length else 0
  count : m.2.2 = (needed.take k).count true

/-- Pushing one node to the dependents of each of its dependencies. -/
theorem pushDependents_ok (i : NodeId) : ∀ (ds : List NodeId) (dependents : List (List NodeId)),
    (∀ d ∈ ds, d < dependents.length) → ∃ dependents', ds.foldlM (pushDependent i) dependents =
      (ok dependents' : Outcome ε _) ∧ dependents'.length = dependents.length ∧
      ∀ d, dependents'[d]? = dependents[d]?.map (· ++ List.replicate (ds.count d) i)
  | [], dependents, _ => ⟨dependents, rfl, rfl, fun d => by simp⟩
  | d :: ds, dependents, h => by
    have hd : d < dependents.length := h d List.mem_cons_self
    have hget := List.getElem?_eq_getElem hd
    obtain ⟨dependents', hfold, hlen, hall⟩ := pushDependents_ok i ds (dependents.set d (dependents[d] ++ [i]))
      fun d' hd' => by rw [List.length_set]; exact h d' (List.mem_cons_of_mem _ hd')
    refine ⟨dependents', ?_, by rw [hlen, List.length_set], fun d' => ?_⟩
    · rw [List.foldlM_cons, pushDependent, index_of_get hget, ok_bind, store_of_lt _ hd, ok_bind, hfold]
    · rw [hall, List.getElem?_set, List.count_cons]
      by_cases hdd : d = d'
      · subst hdd
        simp [hd, List.replicate_succ]
      · simp [hdd]

theorem kahnBody_ok {k : Nat} {m : List (List NodeId) × List Nat × Nat} (hn : needed.length = dag.nodes.length)
    (hk : k < dag.nodes.length) (h : MetadataUpTo dag needed k m) :
    ∃ m', kahnBody dag needed m k = (ok m' : Outcome ε _) ∧ MetadataUpTo dag needed (k + 1) m' := by
  have hflag : needed[k]? = some (flag needed k) := by simp [flag, List.getElem?_eq_getElem (hn ▸ hk)]
  have htake : (needed.take (k + 1)).count true = (needed.take k).count true + if flag needed k then 1 else 0 := by
    rw [List.take_add_one, hflag]
    cases flag needed k <;> simp
  have hind : ∀ i, i ≠ k → ((i < k + 1 ∧ flag needed i = true) ↔ (i < k ∧ flag needed i = true)) :=
    fun i hi => ⟨fun h => ⟨by omega, h.2⟩, fun h => ⟨by omega, h.2⟩⟩
  cases hf : flag needed k with
  | false =>
    refine ⟨m, by simp [kahnBody, index_of_get hflag, hf], h.dependents_length, h.indeg_length, fun d hd => ?_,
      fun i => ?_, ?_⟩
    · rw [h.dependents d hd, dependentsBelow_succ]; simp [hf]
    · rw [h.indeg]
      by_cases hik : i = k
      · subst hik; simp [hf]
      · simp only [hind i hik]
    · rw [h.count, htake]; simp [hf]
  | true =>
    have hnode := List.getElem?_eq_getElem hk
    obtain ⟨dependents', hfold, hlen, hall⟩ := pushDependents_ok (ε := ε) k dag.nodes[k].deps m.1 fun d hd => by
      rw [h.dependents_length]; exact dag.deps_lt _ (List.getElem_mem hk) d hd
    have hk' : k < m.2.1.length := by rw [h.indeg_length]; exact hk
    refine ⟨(dependents', m.2.1.set k dag.nodes[k].deps.length, m.2.2 + 1), ?_, ?_, ?_, fun d hd => ?_, fun i => ?_, ?_⟩
    · simp only [kahnBody, index_of_get hflag, hf, ok_bind, if_true, index_of_get hnode, store_of_lt _ hk', hfold,
        pure_eq]
    · rw [hlen, h.dependents_length]
    · simp [h.indeg_length]
    · simp only
      rw [hall, h.dependents d hd, dependentsBelow_succ, Dag.depsOf_of_get hnode]
      simp [hf]
    · simp only
      rw [counter_set hk', h.indeg]
      by_cases hik : i = k
      · subst hik; simp [hf, Dag.depsOf_of_get hnode]
      · simp only [hik, if_false, hind i hik]
    · simp only
      rw [h.count, htake]; simp [hf]

/-- `build_kahn_metadata` on a mask of the right length. -/
theorem buildKahnMetadata_ok (hn : needed.length = dag.nodes.length) :
    ∃ m, buildKahnMetadata dag needed = (ok m : Outcome ε _) ∧ MetadataUpTo dag needed dag.nodes.length m := by
  have hrec : ∀ k ≤ dag.nodes.length, ∃ m, (List.range k).foldlM (kahnBody dag needed)
      (List.replicate dag.nodes.length [], List.replicate dag.nodes.length 0, 0) = (ok m : Outcome ε _) ∧
        MetadataUpTo dag needed k m := by
    intro k
    induction k with
    | zero =>
      intro _
      refine ⟨_, rfl, by simp, by simp, fun d hd => by simp [dependentsBelow, hd], fun i => ?_, by simp⟩
      simp only [counter, List.getElem?_replicate]
      split <;> simp
    | succ k ih =>
      intro hk
      obtain ⟨m, hm, hup⟩ := ih (by omega)
      obtain ⟨m', hm', hup'⟩ := kahnBody_ok (ε := ε) hn (by omega) hup
      refine ⟨m', ?_, hup'⟩
      rw [List.range_succ, List.foldlM_append, hm, ok_bind, List.foldlM_cons, hm', ok_bind]
      rfl
  exact hrec _ (Nat.le_refl _)

end Metadata

/-! ## Seeding and reporting -/

theorem seed_ok [ExecObserver R] {needed : List Bool} {indeg : List Nat} (hlen : needed.length = indeg.length)
    (observer : R) : ∃ observer', seed needed indeg observer =
      (ok (pickIds needed fun i => counter indeg i == 0, observer') : Outcome ε _) := by
  have hbody : ∀ (acc : List NodeId × R) b i, i < needed.length → (seedBody indeg acc (b, i) : Outcome ε _) =
      ok (if b && (counter indeg i == 0) then (acc.1 ++ [i], ExecObserver.markReady i (acc.1.length + 1) acc.2)
        else acc) := by
    intro acc b i hi
    cases b with
    | false => rfl
    | true =>
      simp only [seedBody, if_true, index_counter (hlen ▸ hi), ok_bind, pure_eq, Bool.true_and, beq_iff_eq]
      split <;> rfl
  have hfst : ∀ (ids : List NodeId) (acc : List NodeId × R), (ids.foldl (fun acc i =>
      (acc.1 ++ [i], ExecObserver.markReady i (acc.1.length + 1) acc.2)) acc).1 = acc.1 ++ ids := by
    intro ids
    induction ids with
    | nil => intro acc; simp
    | cons i ids ih => intro acc; rw [List.foldl_cons, ih]; simp
  have hfold := foldlM_mask _ hbody ([], observer)
  rw [← Prod.eta (List.foldl _ _ _), hfst] at hfold
  exact ⟨_, hfold⟩

/-- The keys of some nodes. -/
def Dag.keysOf (dag : Dag K O E ω) (ids : List NodeId) : List K := ids.filterMap fun i => dag.nodes[i]?.map Node.key

theorem remainingKeys_ok {dag : Dag K O E ω} {needed : List Bool} {indeg : List Nat}
    (hn : needed.length = dag.nodes.length) (hlen : indeg.length = dag.nodes.length) :
    remainingKeys dag needed indeg =
      (ok (dag.keysOf (pickIds needed fun i => decide (0 < counter indeg i))) : Outcome ε _) := by
  have hbody : ∀ (acc : List K) b i, i < needed.length → (remainingBody dag indeg acc (b, i) : Outcome ε _) =
      ok (if b && decide (0 < counter indeg i) then acc ++ (dag.nodes[i]?.map Node.key).toList else acc) := by
    intro acc b i hi
    cases b with
    | false => rfl
    | true =>
      have hnode := List.getElem?_eq_getElem (hn ▸ hi)
      simp only [remainingBody, if_true, index_counter (hlen ▸ hn ▸ hi), ok_bind, pure_eq, Bool.true_and,
        decide_eq_true_eq, index_of_get hnode, hnode, Option.map_some, Option.toList_some]
      split <;> rfl
  have hall : ∀ (ids : List NodeId) (acc : List K), ids.foldl (fun acc i =>
      acc ++ (dag.nodes[i]?.map Node.key).toList) acc = acc ++ dag.keysOf ids := by
    intro ids
    induction ids with
    | nil => intro acc; simp [Dag.keysOf]
    | cons i ids ih =>
      intro acc
      rw [List.foldl_cons, ih, Dag.keysOf, Dag.keysOf, List.filterMap_cons]
      cases dag.nodes[i]?.map Node.key <;> simp
  exact (foldlM_mask _ hbody []).trans (by rw [hall]; rfl)

/-! ## Collecting the outputs -/

theorem collectOutputs_ok [DecidableEq K] {dag : Dag K O E ω} {outs : List K} {vals : List (Option O)}
    (h : ∀ k ∈ outs, ∃ i v, dag.index.get k = some i ∧ vals[i]? = some (some v)) :
    ∃ m, collectOutputs dag outs vals = ok m ∧
      ∀ k v, m.get k = some v ↔ k ∈ outs ∧ ∃ i, dag.index.get k = some i ∧ vals[i]? = some (some v) := by
  have hrec : ∀ acc : HashMap K O, ∃ m, outs.foldlM (collectBody dag vals) acc = ok m ∧ ∀ k v, m.get k = some v ↔
      (k ∈ outs ∧ ∃ i, dag.index.get k = some i ∧ vals[i]? = some (some v)) ∨ (k ∉ outs ∧ acc.get k = some v) := by
    induction outs with
    | nil => exact fun acc => ⟨acc, rfl, fun k v => by simp⟩
    | cons k outs ih =>
      intro acc
      obtain ⟨i, v, hi, hv⟩ := h k List.mem_cons_self
      obtain ⟨m, hm, hget⟩ := ih (fun k' hk' => h k' (List.mem_cons_of_mem _ hk')) (acc.insert k v)
      refine ⟨m, ?_, fun k' v' => ?_⟩
      · have hbody : collectBody dag vals acc k = ok (acc.insert k v) := by
          simp [collectBody, hi, okOr, index_of_get hv]
        rw [List.foldlM_cons, hbody, ok_bind, hm]
      · rw [hget, HashMap.get_insert]
        by_cases hk : k' = k
        · subst hk
          by_cases hmem : k' ∈ outs <;> simp [hmem, hi, hv, eq_comm]
        · simp [hk]
  obtain ⟨m, hm, hget⟩ := hrec HashMap.empty
  exact ⟨m, hm, fun k v => by rw [hget]; simp⟩

end DagExec
