import DagExec.Lib.DepGraph
import Mathlib.Data.Bool.Basic
import Mathlib.Data.List.Basic

/-!
# Kahn's algorithm, without an order

Kahn's algorithm keeps, for each needed node, a counter of its unfinished dependency occurrences, and opens a node when
its counter reaches zero. Whatever order nodes are finished in, and wherever an open node is kept meanwhile, the same
ledger holds: `Ledger deps needed done indeg opn`, where `opn i` is how often `i` is open.

- `Ledger.finish`: finishing an open node keeps the ledger;
- `Ledger.deps_done`: open and finished nodes have all their dependencies finished;
- `Ledger.transitive_done`, `Ledger.independent`: so open nodes have all transitive dependencies finished, and no open
  node depends on another;
- `Ledger.stuck`: when nothing is open, an unfinished node has an unfinished dependency, so it reaches a cycle
  (`Ledger.reachesCycle`).
-/

namespace Kahn

open DepGraph

variable {ι : Type}

/-- The number of unfinished occurrences in a dependency list. -/
def missing (done : ι → Bool) (ds : List ι) : ℕ := ds.countP fun d => !done d

/-- The accounts of a run: every needed node is finished, open or blocked, and only one of them. -/
structure Ledger (deps : ι → List ι) (needed done : ι → Bool) (indeg opn : ι → ℕ) : Prop where
  counter : ∀ i, needed i = true → indeg i = missing done (deps i)
  other : ∀ i, needed i = false → indeg i = 0
  place : ∀ i, (done i).toNat + opn i + min 1 (indeg i) = (needed i).toNat

theorem missing_eq_zero {done : ι → Bool} {ds : List ι} : missing done ds = 0 ↔ ∀ d ∈ ds, done d = true := by
  simp [missing, List.countP_eq_zero]

/-- Finishing `x` takes its occurrences off the count. -/
theorem missing_update [DecidableEq ι] {done : ι → Bool} {x : ι} (hx : done x = false) (ds : List ι) :
    missing (Function.update done x true) ds + ds.count x = missing done ds := by
  induction ds with
  | nil => rfl
  | cons d ds ih =>
    simp only [missing, List.countP_cons, List.count_cons] at ih ⊢
    by_cases hd : d = x
    · subst hd; simp [hx]; omega
    · simp [hd]; omega

variable {deps : ι → List ι} {needed done : ι → Bool} {indeg opn : ι → ℕ}

namespace Ledger

/-- An open node is needed, open once, not finished and not blocked. -/
theorem of_open (h : Ledger deps needed done indeg opn) {i : ι} (ho : 0 < opn i) :
    needed i = true ∧ opn i = 1 ∧ done i = false ∧ indeg i = 0 := by
  have hp := h.place i
  cases hn : needed i <;> cases hd : done i <;> simp [hn, hd] at hp ⊢ <;> omega

theorem needed_of_done (h : Ledger deps needed done indeg opn) {i : ι} (hd : done i = true) : needed i = true := by
  have hp := h.place i
  cases hn : needed i <;> simp [hn, hd] at hp ⊢

theorem open_le_one (h : Ledger deps needed done indeg opn) (i : ι) : opn i ≤ 1 := by
  have hp := h.place i
  have := Bool.toNat_le (needed i)
  omega

/-- A needed node that is not blocked has all its dependencies finished. -/
theorem deps_done_of_zero (h : Ledger deps needed done indeg opn) {i : ι} (hn : needed i = true) (h0 : indeg i = 0) :
    ∀ d ∈ deps i, done d = true := by
  rw [← missing_eq_zero, ← h.counter i hn]; exact h0

/-- The dependencies of a finished node are finished. -/
theorem deps_done (h : Ledger deps needed done indeg opn) {i : ι} (hd : done i = true) :
    ∀ d ∈ deps i, done d = true := by
  have hn := h.needed_of_done hd
  have hp := h.place i
  simp only [hd, hn, Bool.toNat_true] at hp
  exact h.deps_done_of_zero hn (by omega)

/-- The dependencies of an open node are finished. -/
theorem deps_done_of_open (h : Ledger deps needed done indeg opn) {i : ι} (ho : 0 < opn i) :
    ∀ d ∈ deps i, done d = true :=
  h.deps_done_of_zero (h.of_open ho).1 (h.of_open ho).2.2.2

/-- All transitive dependencies of an open node are finished. -/
theorem transitive_done (h : Ledger deps needed done indeg opn) {i d : ι} (ho : 0 < opn i) (hd : DependsOn deps i d) :
    done d = true :=
  DependsOn.induct (P := fun d => done d = true) hd (h.deps_done_of_open ho) fun _ ha => h.deps_done ha

/-- No open node depends on an open node. -/
theorem independent (h : Ledger deps needed done indeg opn) {i j : ι} (hi : 0 < opn i) (hj : 0 < opn j) :
    ¬ DependsOn deps i j := by
  intro hd
  have hdone := h.transitive_done hi hd
  rw [(h.of_open hj).2.2.1] at hdone
  cases hdone

/-- **The step lemma.** Finishing an open node `x`: its dependents' counters drop by its occurrences, and the nodes
whose counter reaches zero are opened. -/
theorem finish [DecidableEq ι] (h : Ledger deps needed done indeg opn) {x : ι} (hx : 0 < opn x) {indeg' opn' : ι → ℕ}
    (hind : ∀ i, indeg' i = indeg i - if needed i then (deps i).count x else 0)
    (hopn : ∀ i, opn' i + (if i = x then 1 else 0) = opn i + if 0 < indeg i ∧ indeg' i = 0 then 1 else 0) :
    Ledger deps needed (Function.update done x true) indeg' opn' := by
  obtain ⟨hnx, hox, hdx, hix⟩ := h.of_open hx
  refine ⟨fun i hn => ?_, fun i hn => ?_, fun i => ?_⟩
  · have := missing_update hdx (deps i)
    rw [hind, h.counter i hn, if_pos hn]; omega
  · rw [hind, h.other i hn]; simp
  · have hp := h.place i
    have ho := hopn i
    have hi := hind i
    by_cases hix' : i = x
    · subst hix'
      simp only [hdx, hnx, Function.update_self, if_true, Bool.toNat_true, Bool.toNat_false, hix] at hp ho ⊢
      simp at ho; omega
    · rw [Function.update_of_ne hix']
      simp only [hix', if_false] at ho
      split at ho <;> omega

/-- The nodes that are opened are those whose counter has reached zero. -/
theorem opened [DecidableEq ι] {x : ι} {indeg' opn' rel : ι → ℕ} (h : Ledger deps needed done indeg opn)
    (h' : Ledger deps needed (Function.update done x true) indeg' opn') (hx : 0 < opn x)
    (hopn : ∀ i, opn' i + (if i = x then 1 else 0) = opn i + rel i) (i : ι) :
    rel i + min 1 (indeg' i) = min 1 (indeg i) := by
  have hp := h.place i
  have hp' := h'.place i
  have ho := hopn i
  by_cases hi : i = x
  · subst hi
    obtain ⟨hn, hox, hd, h0⟩ := h.of_open hx
    simp only [hn, hd, Function.update_self, Bool.toNat_true, Bool.toNat_false, if_true] at hp hp' ho
    omega
  · rw [Function.update_of_ne hi] at hp'
    rw [if_neg hi] at ho
    omega

/-- In terms of dependencies: `x` is among those of an opened node, and all of them are finished. -/
theorem opened_iff [DecidableEq ι] {x : ι} {indeg' opn' rel : ι → ℕ} (h : Ledger deps needed done indeg opn)
    (h' : Ledger deps needed (Function.update done x true) indeg' opn') (hx : 0 < opn x)
    (hopn : ∀ i, opn' i + (if i = x then 1 else 0) = opn i + rel i) (i : ι) :
    0 < rel i ↔ needed i = true ∧ x ∈ deps i ∧ ∀ d ∈ deps i, d = x ∨ done d = true := by
  have hcount := h.opened h' hx hopn i
  constructor
  · intro hpos
    have hn : needed i = true := by
      by_contra hno
      have := h.other i (by simpa using hno)
      omega
    have hzero : missing (Function.update done x true) (deps i) = 0 := by
      rw [← h'.counter i hn]
      omega
    have hdeps : ∀ d ∈ deps i, d = x ∨ done d = true := by
      intro d hd
      by_cases hdx : d = x
      · exact .inl hdx
      · have := missing_eq_zero.mp hzero d hd
        rw [Function.update_of_ne hdx] at this
        exact .inr this
    refine ⟨hn, ?_, hdeps⟩
    by_contra hno
    have hall : missing done (deps i) = 0 := by
      refine missing_eq_zero.mpr fun d hd => (hdeps d hd).resolve_left ?_
      rintro rfl
      exact hno hd
    rw [← h.counter i hn] at hall
    omega
  · rintro ⟨hn, hmem, hdeps⟩
    have hzero : indeg' i = 0 := by
      rw [h'.counter i hn]
      refine missing_eq_zero.mpr fun d hd => ?_
      rcases hdeps d hd with rfl | hdone
      · exact Function.update_self _ _ _
      · by_cases hdx : d = x
        · rw [hdx, Function.update_self]
        · rw [Function.update_of_ne hdx, hdone]
    have hpos : indeg i ≠ 0 := by
      intro h0
      have := h.deps_done_of_zero hn h0 x hmem
      rw [(h.of_open hx).2.2.1] at this
      cases this
    omega

/-- An unfinished needed node is open, or it has an unfinished dependency. -/
theorem open_or_blocked (h : Ledger deps needed done indeg opn) {i : ι} (hn : needed i = true) (hd : done i = false) :
    0 < opn i ∨ ∃ d ∈ deps i, done d = false := by
  have hp := h.place i
  simp only [hn, hd, Bool.toNat_true, Bool.toNat_false] at hp
  by_contra hc
  obtain ⟨hopen, hdeps⟩ := not_or.mp hc
  have h0 : missing done (deps i) = 0 := missing_eq_zero.mpr fun d hd' => by
    by_contra hnd
    exact hdeps ⟨d, hd', by simpa using hnd⟩
  have := h.counter i hn
  omega

/-- When nothing is open, an unfinished needed node has an unfinished dependency. -/
theorem stuck (h : Ledger deps needed done indeg opn) (hopn : ∀ i, opn i = 0) {i : ι} (hn : needed i = true)
    (hd : done i = false) : ∃ d ∈ deps i, done d = false := by
  refine (h.open_or_blocked hn hd).resolve_left ?_
  rw [hopn i]
  exact Nat.lt_irrefl 0

/-- When nothing is open, every unfinished needed node reaches a cycle. -/
theorem reachesCycle (h : Ledger deps needed done indeg opn) (hopn : ∀ i, opn i = 0)
    (hclosed : ∀ i, needed i = true → ∀ d ∈ deps i, needed d = true) (hfin : { i | needed i = true }.Finite) {i : ι}
    (hn : needed i = true) (hd : done i = false) : ReachesCycle deps i := by
  let S : Set ι := { i | needed i = true ∧ done i = false }
  have hS : ∀ i ∈ S, ∃ d ∈ deps i, d ∈ S := fun i hi => by
    obtain ⟨d, hd, hdd⟩ := h.stuck hopn hi.1 hi.2
    exact ⟨d, hd, hclosed i hi.1 d hd, hdd⟩
  exact reachesCycle_of_stuck (hfin.subset fun i hi => hi.1) hS i ⟨hn, hd⟩

end Ledger

end Kahn
