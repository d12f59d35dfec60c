import DagExec.Lib.DepGraph

/-!
# Embeddings of dependency graphs

`Embeds deps' deps S ρ`: on the set `S` of nodes of one graph, closed under dependencies, `ρ` is injective and takes
the dependency list of each node to that of its image. Whatever is said in terms of dependencies then holds of a node
exactly when it holds of its image: `reaches_iff`, `dependsOn_iff`, `onCycle_iff`, `reachesCycle_iff`, `closure_iff`.
-/

namespace DepGraph

variable {ι κ : Type}

structure Embeds (deps' : κ → List κ) (deps : ι → List ι) (S : Set κ) (ρ : κ → ι) : Prop where
  closed : ∀ i ∈ S, ∀ d ∈ deps' i, d ∈ S
  injective : Set.InjOn ρ S
  deps_eq : ∀ i ∈ S, deps (ρ i) = (deps' i).map ρ

namespace Embeds

variable {deps' : κ → List κ} {deps : ι → List ι} {S : Set κ} {ρ : κ → ι}

/-- The edges out of an image are the images of the edges. -/
theorem edge_iff (h : Embeds deps' deps S ρ) {i : κ} (hi : i ∈ S) {j : ι} :
    Edge deps (ρ i) j ↔ ∃ i', Edge deps' i i' ∧ ρ i' = j := by
  unfold Edge
  rw [h.deps_eq i hi, List.mem_map]

theorem edge_mem (h : Embeds deps' deps S ρ) {i i' : κ} (hi : i ∈ S) (he : Edge deps' i i') : i' ∈ S :=
  h.closed i hi i' he

theorem reaches_mem (h : Embeds deps' deps S ρ) {i i' : κ} (hi : i ∈ S) (hr : Reaches deps' i i') : i' ∈ S := by
  induction hr with
  | refl => exact hi
  | tail _ he ih => exact h.edge_mem ih he

theorem reaches_iff (h : Embeds deps' deps S ρ) {i : κ} (hi : i ∈ S) {j : ι} :
    Reaches deps (ρ i) j ↔ ∃ i', Reaches deps' i i' ∧ ρ i' = j := by
  constructor
  · intro hr
    induction hr with
    | refl => exact ⟨i, .refl, rfl⟩
    | tail _ he ih =>
      obtain ⟨a, ha, rfl⟩ := ih
      obtain ⟨b, hb, rfl⟩ := (h.edge_iff (h.reaches_mem hi ha)).mp he
      exact ⟨b, ha.tail hb, rfl⟩
  · rintro ⟨i', hr, rfl⟩
    induction hr with
    | refl => exact .refl
    | tail hr he ih => exact ih.tail ((h.edge_iff (h.reaches_mem hi hr)).mpr ⟨_, he, rfl⟩)

theorem dependsOn_iff (h : Embeds deps' deps S ρ) {i : κ} (hi : i ∈ S) {j : ι} :
    DependsOn deps (ρ i) j ↔ ∃ i', DependsOn deps' i i' ∧ ρ i' = j := by
  unfold DependsOn
  simp only [Relation.TransGen.tail'_iff]
  constructor
  · rintro ⟨a, hr, he⟩
    obtain ⟨a', hr', rfl⟩ := (h.reaches_iff hi).mp hr
    obtain ⟨b', he', rfl⟩ := (h.edge_iff (h.reaches_mem hi hr')).mp he
    exact ⟨b', ⟨a', hr', he'⟩, rfl⟩
  · rintro ⟨b', ⟨a', hr', he'⟩, rfl⟩
    exact ⟨ρ a', (h.reaches_iff hi).mpr ⟨a', hr', rfl⟩, (h.edge_iff (h.reaches_mem hi hr')).mpr ⟨b', he', rfl⟩⟩

theorem onCycle_iff (h : Embeds deps' deps S ρ) {i : κ} (hi : i ∈ S) : OnCycle deps (ρ i) ↔ OnCycle deps' i := by
  unfold OnCycle
  rw [h.dependsOn_iff hi]
  constructor
  · rintro ⟨i', hd, heq⟩
    have hmem : i' ∈ S := h.reaches_mem hi hd.to_reflTransGen
    obtain rfl := h.injective hmem hi heq
    exact hd
  · intro hd
    exact ⟨i, hd, rfl⟩

theorem reachesCycle_iff (h : Embeds deps' deps S ρ) {i : κ} (hi : i ∈ S) :
    ReachesCycle deps (ρ i) ↔ ReachesCycle deps' i := by
  unfold ReachesCycle
  constructor
  · rintro ⟨j, hr, hc⟩
    obtain ⟨i', hr', rfl⟩ := (h.reaches_iff hi).mp hr
    exact ⟨i', hr', (h.onCycle_iff (h.reaches_mem hi hr')).mp hc⟩
  · rintro ⟨i', hr', hc⟩
    exact ⟨ρ i', (h.reaches_iff hi).mpr ⟨i', hr', rfl⟩, (h.onCycle_iff (h.reaches_mem hi hr')).mpr hc⟩

/-- What is reachable from the images is the image of what is reachable. -/
theorem closure_iff (h : Embeds deps' deps S ρ) {T : Set κ} (hT : T ⊆ S) {j : ι} :
    j ∈ Closure deps (ρ '' T) ↔ ∃ i ∈ Closure deps' T, ρ i = j := by
  unfold Closure
  constructor
  · rintro ⟨s, ⟨t, ht, rfl⟩, hr⟩
    obtain ⟨i, hr', rfl⟩ := (h.reaches_iff (hT ht)).mp hr
    exact ⟨i, ⟨t, ht, hr'⟩, rfl⟩
  · rintro ⟨i, ⟨t, ht, hr'⟩, rfl⟩
    exact ⟨ρ t, ⟨t, ht, rfl⟩, (h.reaches_iff (hT ht)).mpr ⟨i, hr', rfl⟩⟩

end Embeds

end DepGraph
