import DagExec.Lib.DepGraph
import Mathlib.Data.List.Basic
import Mathlib.Data.Set.Finite.Lemmas

/-!
# Levels of a dependency graph

The depth of a node is zero without dependencies, and otherwise one more than the greatest depth of a dependency. It is
defined for the nodes that reach no cycle (`exists_depth_iff`).

A queue of nodes is served first in, first out, and a node enters it when the last of its dependencies has been served.
Then the nodes are served by depth: what has been served and what waits is sorted by depth, and what waits is on at most
two levels (`LevelOrder`). `LevelOrder.step` is the step lemma.
-/

namespace DepGraph

variable {ι : Type} {deps : ι → List ι}

/-! ## Depth -/

inductive Depth (deps : ι → List ι) : ι → ℕ → Prop
  | root {i : ι} (h : deps i = []) : Depth deps i 0
  | above {i : ι} {m : ℕ} (f : ι → ℕ) (h : ∀ d ∈ deps i, Depth deps d (f d)) (hle : ∀ d ∈ deps i, f d ≤ m)
      (hmax : ∃ d ∈ deps i, f d = m) : Depth deps i (m + 1)

theorem Depth.unique {i : ι} {n n' : ℕ} (h : Depth deps i n) (h' : Depth deps i n') : n = n' := by
  induction h generalizing n' with
  | root hnil =>
    cases h' with
    | root => rfl
    | above f h hle hmax =>
      obtain ⟨d, hd, -⟩ := hmax
      rw [hnil] at hd
      cases hd
  | above f h hle hmax ih =>
    obtain ⟨d, hd, hfd⟩ := hmax
    cases h' with
    | root hnil =>
      rw [hnil] at hd
      cases hd
    | above f' h' hle' hmax' =>
      obtain ⟨d', hd', hfd'⟩ := hmax'
      have hsame := ih d hd (h' d hd)
      have hsame' := ih d' hd' (h' d' hd')
      have hled := hle' d hd
      have hled' := hle d' hd'
      omega

/-- A dependency is less deep. -/
theorem Depth.dep {i d : ι} {n : ℕ} (h : Depth deps i n) (hd : d ∈ deps i) : ∃ m < n, Depth deps d m := by
  cases h with
  | root hnil =>
    rw [hnil] at hd
    cases hd
  | above f h hle hmax => exact ⟨f d, Nat.lt_succ_of_le (hle d hd), h d hd⟩

theorem Depth.acc {i : ι} {n : ℕ} (h : Depth deps i n) : Acc (fun d i => d ∈ deps i) i := by
  induction h with
  | root hnil =>
    refine Acc.intro _ fun d hd => ?_
    rw [hnil] at hd
    cases hd
  | above f h hle hmax ih => exact Acc.intro _ ih

open Classical in
/-- The depth as a function, zero where there is none. -/
noncomputable def depth (deps : ι → List ι) (i : ι) : ℕ := if h : ∃ n, Depth deps i n then h.choose else 0

theorem depth_spec {i : ι} (h : ∃ n, Depth deps i n) : Depth deps i (depth deps i) := by
  unfold depth
  rw [dif_pos h]
  exact h.choose_spec

theorem Depth.depth_eq {i : ι} {n : ℕ} (h : Depth deps i n) : depth deps i = n := (depth_spec ⟨n, h⟩).unique h

/-- A node is one deeper than a dependency that is as deep as any. -/
theorem Depth.of_deepest {i x : ι} {m : ℕ} (hx : x ∈ deps i) (hm : Depth deps x m)
    (hle : ∀ d ∈ deps i, ∃ n ≤ m, Depth deps d n) : Depth deps i (m + 1) := by
  refine .above (depth deps) (fun d hd => ?_) (fun d hd => ?_) ⟨x, hx, hm.depth_eq⟩
  · obtain ⟨n, -, hn⟩ := hle d hd
    exact depth_spec ⟨n, hn⟩
  · obtain ⟨n, hnm, hn⟩ := hle d hd
    rw [hn.depth_eq]
    exact hnm

/-- A node whose dependencies have a depth has one. -/
theorem exists_depth_of_deps {i : ι} (h : ∀ d ∈ deps i, ∃ n, Depth deps d n) : ∃ n, Depth deps i n := by
  by_cases hnil : deps i = []
  · exact ⟨0, .root hnil⟩
  · obtain ⟨d, hd⟩ := List.exists_mem_of_ne_nil _ hnil
    obtain ⟨x, hx, hmax⟩ := Set.exists_max_image { d | d ∈ deps i } (depth deps) (List.finite_toSet _) ⟨d, hd⟩
    refine ⟨depth deps x + 1, .of_deepest hx (depth_spec (h x hx)) fun d hd => ?_⟩
    exact ⟨depth deps d, hmax d hd, depth_spec (h d hd)⟩

/-- **The depth is defined for the nodes that reach no cycle**, when only finitely many nodes have dependencies. -/
theorem exists_depth_iff (hfin : { i | deps i ≠ [] }.Finite) {i : ι} :
    (∃ n, Depth deps i n) ↔ ¬ ReachesCycle deps i := by
  constructor
  · rintro ⟨n, h⟩
    exact not_reachesCycle_of_acc h.acc
  · intro hc
    by_contra hno
    let S : Set ι := { j | ¬ ∃ n, Depth deps j n }
    have hS : ∀ j ∈ S, ∃ d ∈ deps j, d ∈ S := by
      intro j hj
      by_contra hd
      refine hj (exists_depth_of_deps fun d hdj => ?_)
      by_contra hdn
      exact hd ⟨d, hdj, hdn⟩
    have hsub : S ⊆ { i | deps i ≠ [] } := fun j hj hnil => hj ⟨0, .root hnil⟩
    exact hc (reachesCycle_of_stuck (hfin.subset hsub) hS i hno)

/-! ## Serving by level -/

/-- What has been served, and what waits, in order; `r` orders the nodes of level zero. -/
structure LevelOrder (lv : ι → ℕ) (r : ι → ι → Prop) (past queue : List ι) : Prop where
  sorted : (past ++ queue).Pairwise fun i j => lv i ≤ lv j ∧ (lv j = 0 → r i j)
  span : ∀ x rest, queue = x :: rest → ∀ i ∈ rest, lv i ≤ lv x + 1

namespace LevelOrder

variable {lv : ι → ℕ} {r : ι → ι → Prop} {past : List ι}

theorem start {queue : List ι} (h0 : ∀ i ∈ queue, lv i = 0) (hr : queue.Pairwise r) : LevelOrder lv r [] queue := by
  refine ⟨hr.imp_of_mem fun hi hj hij => ?_, fun x rest hq i hi => ?_⟩
  · exact ⟨Nat.le_of_eq ((h0 _ hi).trans (h0 _ hj).symm), fun _ => hij⟩
  · rw [h0 i (hq ▸ List.mem_cons_of_mem x hi)]
    exact Nat.zero_le _

/-- What has been served is at most as deep as what waits. -/
theorem past_le {queue : List ι} (h : LevelOrder lv r past queue) {i j : ι} (hi : i ∈ past) (hj : j ∈ queue) :
    lv i ≤ lv j := ((List.pairwise_append.mp h.sorted).2.2 i hi j hj).1

/-- What waits is at least as deep as the front. -/
theorem front_le {x : ι} {rest : List ι} (h : LevelOrder lv r past (x :: rest)) {i : ι} (hi : i ∈ rest) : lv x ≤ lv i :=
  ((List.pairwise_cons.mp (List.pairwise_append.mp h.sorted).2.1).1 i hi).1

/-- **The step lemma**: the front is served, and nodes one level above it enter the queue. -/
theorem step {x : ι} {rest new : List ι} (h : LevelOrder lv r past (x :: rest)) (hnew : ∀ i ∈ new, lv i = lv x + 1) :
    LevelOrder lv r (past ++ [x]) (rest ++ new) := by
  have hle : ∀ i ∈ past ++ x :: rest, lv i ≤ lv x + 1 := by
    intro i hi
    rcases List.mem_append.mp hi with hi | hi
    · exact Nat.le_succ_of_le (h.past_le hi List.mem_cons_self)
    · rcases List.mem_cons.mp hi with rfl | hi
      · exact Nat.le_succ _
      · exact h.span x rest rfl i hi
  constructor
  · rw [show past ++ [x] ++ (rest ++ new) = past ++ x :: rest ++ new by simp]
    refine List.pairwise_append.mpr ⟨h.sorted, ?_, fun i hi j hj => ?_⟩
    · refine List.pairwise_of_forall_mem_list fun i hi j hj => ?_
      have hli := hnew i hi
      have hlj := hnew j hj
      exact ⟨by omega, fun h0 => by omega⟩
    · have hli := hle i hi
      have hlj := hnew j hj
      exact ⟨by omega, fun h0 => by omega⟩
  · intro y rest' hq i hi
    cases rest with
    | nil =>
      rw [List.nil_append] at hq
      subst hq
      have hly := hnew y List.mem_cons_self
      have hli := hnew i (List.mem_cons_of_mem y hi)
      omega
    | cons z rest =>
      rw [List.cons_append, List.cons.injEq] at hq
      obtain ⟨rfl, rfl⟩ := hq
      have hxz := h.front_le List.mem_cons_self
      rcases List.mem_append.mp hi with hi | hi
      · have hli := h.span x _ rfl i (List.mem_cons_of_mem z hi)
        omega
      · have hli := hnew i hi
        omega

end LevelOrder

end DepGraph
