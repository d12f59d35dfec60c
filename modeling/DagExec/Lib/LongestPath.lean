import DagExec.Lib.DepGraph
import Mathlib.Data.List.Chain
import Mathlib.Algebra.BigOperators.Group.List.Basic
import Mathlib.Algebra.GroupWithZero.Nat
import Mathlib.Order.Bounds.Basic

/-!
# Longest dependency paths

A path is a nonempty list of nodes each of which is a dependency of the next; its length is the sum of its nodes'
weights. `PathTo deps w i t`: some path that ends at `i` has length `t`.

- `greatest_pathTo`: the longest path to `i` is the longest one to a dependency of `i`, extended by `i`;
- `pathTo_iff`: `PathTo` by the list of the path's nodes;
- `PathTo.le_finish`: when each node has its weight between its start and its finish, and starts after its dependencies
  have finished, a path is no longer than the finish of its last node.
-/

namespace LongestPath

variable {ι : Type} {deps : ι → List ι} {w : ι → ℕ}

inductive PathTo (deps : ι → List ι) (w : ι → ℕ) : ι → ℕ → Prop
  | single (i : ι) : PathTo deps w i (w i)
  | snoc {d i : ι} {t : ℕ} (h : PathTo deps w d t) (hd : d ∈ deps i) : PathTo deps w i (t + w i)

/-- **The recursion**: `m` is the length of a longest path to a dependency, zero when there is none. -/
theorem greatest_pathTo {i : ι} {longest : ι → ℕ} {m : ℕ}
    (hdeps : ∀ d ∈ deps i, IsGreatest { t | PathTo deps w d t } (longest d)) (hle : ∀ d ∈ deps i, longest d ≤ m)
    (hm : m = 0 ∨ ∃ d ∈ deps i, longest d = m) : IsGreatest { t | PathTo deps w i t } (m + w i) := by
  constructor
  · rcases hm with rfl | ⟨d, hd, rfl⟩
    · rw [Nat.zero_add]
      exact .single i
    · exact .snoc (hdeps d hd).1 hd
  · intro t ht
    cases ht with
    | single => exact Nat.le_add_left _ _
    | snoc h hd =>
      have hlongest := (hdeps _ hd).2 h
      exact Nat.add_le_add_right (Nat.le_trans hlongest (hle _ hd)) _

theorem pathTo_iff {i : ι} {t : ℕ} : PathTo deps w i t ↔
    ∃ path : List ι, (path ++ [i]).IsChain (fun d i => d ∈ deps i) ∧ t = ((path ++ [i]).map w).sum := by
  constructor
  · intro h
    induction h with
    | single i => exact ⟨[], List.IsChain.singleton i, by simp⟩
    | @snoc d i t _ hd ih =>
      obtain ⟨path, hchain, rfl⟩ := ih
      refine ⟨path ++ [d], List.isChain_append.mpr ⟨hchain, .singleton i, ?_⟩, by simp [Nat.add_assoc]⟩
      intro x hx y hy
      have hxd : d = x := by simpa using hx
      have hyi : i = y := by simpa using hy
      exact hyi ▸ hxd ▸ hd
  · rintro ⟨path, hchain, rfl⟩
    induction path using List.reverseRecOn generalizing i with
    | nil => simpa using PathTo.single (w := w) i
    | append_singleton path d ih =>
      obtain ⟨hpath, -, hlast⟩ := List.isChain_append.mp hchain
      have hd : d ∈ deps i := hlast d (by simp) i (by simp)
      have := PathTo.snoc (ih hpath) hd
      simpa [Nat.add_assoc] using this

/-- **Paths take time**: along a path the nodes' intervals follow each other, whatever else overlaps with them. -/
theorem PathTo.le_finish {P : ι → Prop} {start finish : ι → ℕ} (hP : ∀ i, P i → ∀ d ∈ deps i, P d)
    (hw : ∀ i, P i → start i + w i ≤ finish i) (hdep : ∀ i, P i → ∀ d ∈ deps i, finish d ≤ start i) {i : ι} {t : ℕ}
    (h : PathTo deps w i t) (hi : P i) : t ≤ finish i := by
  induction h with
  | single i => exact Nat.le_trans (Nat.le_add_left _ _) (hw i hi)
  | @snoc d i t _ hd ih =>
    have ht := ih (hP i hi d hd)
    have hstart := hdep i hi d hd
    have hrun := hw i hi
    omega

/-- A path that ends in a set closed under dependencies stays in it. -/
theorem forall_mem_of_chain {P : ι → Prop} (hP : ∀ i, P i → ∀ d ∈ deps i, P d) {path : List ι} {i : ι}
    (h : (path ++ [i]).IsChain fun d i => d ∈ deps i) (hi : P i) : ∀ j ∈ path ++ [i], P j := by
  induction path using List.reverseRecOn generalizing i with
  | nil =>
    intro j hj
    rw [List.nil_append, List.mem_singleton] at hj
    exact hj ▸ hi
  | append_singleton path d ih =>
    obtain ⟨hpath, -, hlast⟩ := List.isChain_append.mp h
    have hd : P d := hP i hi d (hlast d (by simp) i (by simp))
    intro j hj
    rcases List.mem_append.mp hj with hj | hj
    · exact ih hpath hd j hj
    · exact List.mem_singleton.mp hj ▸ hi

end LongestPath
