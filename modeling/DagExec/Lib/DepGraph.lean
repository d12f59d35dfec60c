import Mathlib.Logic.Relation
import Mathlib.Data.Set.Finite.Basic
import Mathlib.Data.Fintype.Pigeonhole

/-!
# Dependency graphs

A graph given by the dependency list of each node; repetitions in a list are parallel edges.

- `Reaches deps i j`: `j` is `i` or a transitive dependency of it; `OnCycle`, `ReachesCycle`;
- `Closure deps S`: everything reachable from `S`, the least set that contains `S` and is closed under dependencies;
- `not_reachesCycle_of_acc`: a node with a well-founded dependency tree reaches no cycle;
- `reachesCycle_of_stuck`: in a finite set in which every node has a dependency in the set, every node reaches a cycle.
-/

namespace DepGraph

variable {ι : Type} (deps : ι → List ι)

/-- `i` depends directly on `d`. -/
def Edge (i d : ι) : Prop := d ∈ deps i

/-- `j` is `i` or a transitive dependency of `i`. -/
def Reaches : ι → ι → Prop := Relation.ReflTransGen (Edge deps)

/-- `j` is a transitive dependency of `i`. -/
def DependsOn : ι → ι → Prop := Relation.TransGen (Edge deps)

/-- `i` is its own transitive dependency; a self-dependency counts. -/
def OnCycle (i : ι) : Prop := DependsOn deps i i

/-- A cycle is reachable from `i`. -/
def ReachesCycle (i : ι) : Prop := ∃ j, Reaches deps i j ∧ OnCycle deps j

/-- Everything reachable from `S`. -/
def Closure (S : Set ι) : Set ι := { i | ∃ s ∈ S, Reaches deps s i }

variable {deps}

theorem Closure.base {S : Set ι} {i : ι} (h : i ∈ S) : i ∈ Closure deps S := ⟨i, h, .refl⟩

theorem Closure.dep {S : Set ι} {i d : ι} (h : i ∈ Closure deps S) (hd : d ∈ deps i) : d ∈ Closure deps S := by
  obtain ⟨s, hs, hr⟩ := h
  exact ⟨s, hs, hr.tail hd⟩

/-- The closure is the least set that contains `S` and is closed under dependencies. -/
theorem Closure.least {S T : Set ι} (hS : S ⊆ T) (hT : ∀ i ∈ T, ∀ d ∈ deps i, d ∈ T) : Closure deps S ⊆ T := by
  rintro i ⟨s, hs, hr⟩
  induction hr with
  | refl => exact hS hs
  | tail _ he ih => exact hT _ ih _ he

theorem Closure.reaches {S : Set ι} {i j : ι} (h : i ∈ Closure deps S) (hr : Reaches deps i j) :
    j ∈ Closure deps S := by
  obtain ⟨s, hs, hsi⟩ := h
  exact ⟨s, hs, hsi.trans hr⟩

/-- A property of the direct dependencies that passes on to dependencies holds of all transitive ones. -/
theorem DependsOn.induct {P : ι → Prop} {i j : ι} (h : DependsOn deps i j) (h0 : ∀ d ∈ deps i, P d)
    (hP : ∀ a, P a → ∀ d ∈ deps a, P d) : P j := by
  induction h with
  | single he => exact h0 _ he
  | tail _ he ih => exact hP _ ih _ he

/-- A node on a cycle has a dependency on the cycle. -/
theorem ReachesCycle.dep {i : ι} (h : ReachesCycle deps i) : ∃ d ∈ deps i, ReachesCycle deps d := by
  obtain ⟨j, hj, hc⟩ := h
  rcases Relation.ReflTransGen.cases_head hj with rfl | ⟨d, hd, hdj⟩
  · obtain ⟨d, hd, hdi⟩ := Relation.TransGen.head'_iff.mp hc
    exact ⟨d, hd, i, hdi, hc⟩
  · exact ⟨d, hd, j, hdj, hc⟩

/-- A well-founded dependency tree reaches no cycle. -/
theorem not_reachesCycle_of_acc {i : ι} (h : Acc (fun d i => d ∈ deps i) i) : ¬ ReachesCycle deps i := by
  induction h with
  | intro i _ ih =>
    intro hc
    obtain ⟨d, hd, hcd⟩ := hc.dep
    exact ih d hd hcd

/-- **Stuck sets are cyclic**: in a finite set in which every node has a dependency in the set, every node reaches a
cycle. -/
theorem reachesCycle_of_stuck {S : Set ι} (hfin : S.Finite) (hS : ∀ i ∈ S, ∃ d ∈ deps i, d ∈ S) :
    ∀ i ∈ S, ReachesCycle deps i := by
  intro i hi
  have hsucc : ∀ x : S, ∃ y : S, y.1 ∈ deps x.1 := fun x =>
    let ⟨d, hd, hdS⟩ := hS x.1 x.2
    ⟨⟨d, hdS⟩, hd⟩
  choose f hf using hsucc
  -- the walk `i, f i, f (f i), …` stays in `S`, so it visits some node twice
  let walk : ℕ → S := fun n => f^[n] ⟨i, hi⟩
  have hwalk : ∀ n, Edge deps (walk n).1 (walk (n + 1)).1 := fun n => by
    have : walk (n + 1) = f (walk n) := Function.iterate_succ_apply' f n _
    rw [this]; exact hf _
  have hreach : ∀ m k, Reaches deps (walk m).1 (walk (m + k)).1 := fun m k => by
    induction k with
    | zero => exact .refl
    | succ k ih => exact ih.tail (hwalk _)
  have := hfin.to_subtype
  obtain ⟨m, n, hne, heq⟩ := Finite.exists_ne_map_eq_of_infinite walk
  wlog hlt : m < n generalizing m n
  · exact this n m hne.symm heq.symm (by omega)
  obtain ⟨k, rfl⟩ : ∃ k, n = m + 1 + k := ⟨n - (m + 1), by omega⟩
  have hstart : Reaches deps i (walk m).1 := by
    have := hreach 0 m
    rwa [Nat.zero_add] at this
  refine ⟨(walk m).1, hstart, ?_⟩
  have hcycle : DependsOn deps (walk m).1 (walk (m + 1 + k)).1 := .head' (hwalk m) (hreach (m + 1) k)
  rwa [← heq] at hcycle

end DepGraph
