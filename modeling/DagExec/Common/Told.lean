import DagExec.Common.Hooks
import DagExec.Lib.Lifecycle
import DagExec.Spec.Width

/-!
# What the observer has been told

`Told plan outs indeg S F hooks`: by the calls `hooks` the observer knows that the nodes of `S` have started and those of
`F` have finished, and that the needed nodes whose counter is zero have become ready; each node's moments come in order,
after those of its dependencies (`Lifecycle.Lawful`); the seeded nodes came first; and no width it was told exceeds the
size of a set of independent needed nodes.

A run starts with the seeds (`Told.seeds`). Then nodes start (`Told.started`), and finish and release their dependents
(`Told.processed`).
-/

namespace DagExec

open Kahn Lifecycle

variable {K O E ω R : Type}

/-- The moment a call tells of. -/
def Hook.note : Hook → Phase × NodeId
  | .ready id _ => (.ready, id)
  | .start id _ => (.start, id)
  | .finish id => (.finish, id)

theorem readyHooks_notes (n : Nat) (ids : List NodeId) :
    (readyHooks n ids).map Hook.note = ids.map fun i => (.ready, i) := by
  induction ids generalizing n with
  | nil => rfl
  | cons i ids ih => rw [readyHooks, List.map_cons, List.map_cons, ih, Hook.note]

/-- The widths told of are lengths the queue has had. -/
theorem width_le_of_mem {n : Nat} {ids : List NodeId} {id width : Nat} (h : .ready id width ∈ readyHooks n ids) :
    width ≤ n + ids.length := by
  induction ids generalizing n with
  | nil => cases h
  | cons i ids ih =>
    rw [List.length_cons]
    rcases List.mem_cons.mp h with hhead | htail
    · cases hhead
      omega
    · have := ih htail
      omega

/-- The last node pushed is told with the length of the queue. -/
theorem last_mem_readyHooks (n : Nat) {ids : List NodeId} (h : ids ≠ []) :
    ∃ id, Hook.ready id (n + ids.length) ∈ readyHooks n ids := by
  induction ids generalizing n with
  | nil => exact absurd rfl h
  | cons i ids ih =>
    rw [readyHooks, List.length_cons]
    by_cases hids : ids = []
    · subst hids
      exact ⟨i, List.mem_cons_self⟩
    · obtain ⟨id, hid⟩ := ih (n + 1) hids
      refine ⟨id, List.mem_cons_of_mem _ ?_⟩
      rwa [show n + (ids.length + 1) = n + 1 + ids.length by omega]

variable {plan : Plan K O E ω} {outs : List K} {vals : List (Option O)} {indeg indeg' : List Nat}
  {opn opn' : NodeId → Nat}

/-- Open nodes are independent. -/
theorem Books.independent (h : Books plan vals indeg opn) (hg : plan.Good outs) {S : Finset NodeId}
    (hS : ∀ i ∈ S, 0 < opn i) : plan.dag.Independent outs S where
  needed := fun i hi => h.needed_of_open hg (hS i hi)
  apart := fun i hi j hj _ => h.ledger.independent (hS i hi) (hS j hj)

/-- A list of open nodes, each listed as often as it is open, is no longer than an independent set. -/
theorem Books.length_le (h : Books plan vals indeg opn) (hg : plan.Good outs) {ids : List NodeId}
    (hids : ∀ i, ids.count i ≤ opn i) : ∃ S, plan.dag.Independent outs S ∧ ids.length ≤ S.card := by
  have hnd : ids.Nodup := List.nodup_iff_count_le_one.mpr fun i => Nat.le_trans (hids i) (h.ledger.open_le_one i)
  refine ⟨ids.toFinset, h.independent hg fun i hi => ?_, Nat.le_of_eq (List.toFinset_card_of_nodup hnd).symm⟩
  exact Nat.lt_of_lt_of_le (List.count_pos_iff.mpr (List.mem_toFinset.mp hi)) (hids i)

structure Told (plan : Plan K O E ω) (outs : List K) (indeg : List Nat) (S F : NodeId → Prop) (hooks : List Hook) :
    Prop where
  lawful : Lawful plan.dag.depsOf (hooks.map Hook.note)
  ready : ∀ i, (.ready, i) ∈ hooks.map Hook.note ↔ flag plan.needed i = true ∧ counter indeg i = 0
  start : ∀ i, (.start, i) ∈ hooks.map Hook.note ↔ S i
  finish : ∀ i, (.finish, i) ∈ hooks.map Hook.note ↔ F i
  seeded : readyHooks 0 plan.seeds <+: hooks
  width : ∀ id width, .ready id width ∈ hooks → ∃ T, plan.dag.Independent outs T ∧ width ≤ T.card

namespace Told

variable {S F S' F' : NodeId → Prop} {hooks : List Hook}

theorem snoc_mem {e : Phase × NodeId} (x : Hook) :
    e ∈ (hooks ++ [x]).map Hook.note ↔ e ∈ hooks.map Hook.note ∨ e = x.note := by
  rw [List.map_append, List.mem_append, List.map_cons, List.map_nil, List.mem_singleton]

/-- A ready node starts. -/
theorem started (h : Told plan outs indeg S F hooks) {i : NodeId} (hn : flag plan.needed i = true)
    (h0 : counter indeg i = 0) (hi : ¬ S i) (hS : ∀ j, S' j ↔ S j ∨ j = i) (worker : Option Nat) :
    Told plan outs indeg S' F (hooks ++ [.start i worker]) where
  lawful := by
    rw [List.map_append]
    exact h.lawful.snoc ⟨fun hc => hi ((h.start i).mp hc), (h.ready i).mpr ⟨hn, h0⟩⟩
  ready := fun j => by rw [snoc_mem, h.ready]; simp [Hook.note]
  start := fun j => by rw [snoc_mem, h.start, hS]; simp [Hook.note]
  finish := fun j => by rw [snoc_mem, h.finish]; simp [Hook.note]
  seeded := h.seeded.trans (List.prefix_append _ _)
  width := fun id width hmem => h.width id width (by simpa using hmem)

/-- A started node finishes. -/
theorem finished (h : Told plan outs indeg S F hooks) {i : NodeId} (hs : S i) (hi : ¬ F i)
    (hF : ∀ j, F' j ↔ F j ∨ j = i) : Told plan outs indeg S F' (hooks ++ [.finish i]) where
  lawful := by
    rw [List.map_append]
    exact h.lawful.snoc ⟨fun hc => hi ((h.finish i).mp hc), (h.start i).mpr hs⟩
  ready := fun j => by rw [snoc_mem, h.ready]; simp [Hook.note]
  start := fun j => by rw [snoc_mem, h.start]; simp [Hook.note]
  finish := fun j => by rw [snoc_mem, h.finish, hF]; simp [Hook.note]
  seeded := h.seeded.trans (List.prefix_append _ _)
  width := fun id width hmem => h.width id width (by simpa using hmem)

/-- Nodes are pushed to a queue, and become ready: `rel` are those whose counter has reached zero. -/
theorem pushed (h : Told plan outs indeg S F hooks) (hg : plan.Good outs) (hb : Books plan vals indeg' opn')
    {queue rel : List NodeId} (hdone : ∀ i, isDone vals i = true → F i)
    (hrel : ∀ i, rel.count i + min 1 (counter indeg' i) = min 1 (counter indeg i))
    (hopn : ∀ i, (queue ++ rel).count i ≤ opn' i) :
    Told plan outs indeg' S F (hooks ++ readyHooks queue.length rel) := by
  have hle : ∀ i, rel.count i ≤ opn' i := fun i => by
    have := hopn i
    rw [List.count_append] at this
    omega
  have hpos : ∀ i ∈ rel, 0 < opn' i := fun i hi => Nat.lt_of_lt_of_le (List.count_pos_iff.mpr hi) (hle i)
  have hnd : rel.Nodup := List.nodup_iff_count_le_one.mpr fun i => Nat.le_trans (hle i) (hb.ledger.open_le_one i)
  have hnotes : (hooks ++ readyHooks queue.length rel).map Hook.note =
      hooks.map Hook.note ++ rel.map fun i => (.ready, i) := by rw [List.map_append, readyHooks_notes]
  refine ⟨?_, fun i => ?_, fun i => ?_, fun i => ?_, h.seeded.trans (List.prefix_append _ _), fun id width hmem => ?_⟩
  · rw [hnotes]
    refine h.lawful.readys hnd fun i hi => ⟨fun hc => ?_, fun d hd => ?_⟩
    · have hcount := List.count_pos_iff.mpr hi
      obtain ⟨hn, h0⟩ := (h.ready i).mp hc
      have := hrel i
      omega
    · exact (h.finish d).mpr (hdone d (hb.ledger.deps_done_of_open (hpos i hi) d hd))
  · rw [hnotes, List.mem_append, h.ready]
    simp only [List.mem_map, Prod.mk.injEq, true_and, exists_eq_right]
    constructor
    · rintro (⟨hn, h0⟩ | hi)
      · have := hrel i
        exact ⟨hn, by omega⟩
      · exact ⟨(hb.ledger.of_open (hpos i hi)).1, (hb.ledger.of_open (hpos i hi)).2.2.2⟩
    · rintro ⟨hn, h0⟩
      have := hrel i
      by_cases hi : i ∈ rel
      · exact .inr hi
      · rw [List.count_eq_zero.mpr hi] at this
        exact .inl ⟨hn, by omega⟩
  · rw [hnotes, List.mem_append, h.start]
    simp
  · rw [hnotes, List.mem_append, h.finish]
    simp
  · rcases List.mem_append.mp hmem with hold | hnew
    · exact h.width id width hold
    · obtain ⟨T, hT, hcard⟩ := hb.length_le hg hopn
      rw [List.length_append] at hcard
      exact ⟨T, hT, Nat.le_trans (width_le_of_mem hnew) hcard⟩

/-- A started node finishes and its dependents are released. -/
theorem processed (h : Told plan outs indeg S F hooks) (hg : plan.Good outs) (hb : Books plan vals indeg opn) {x : NodeId}
    {v : O} (queue : List NodeId) {rel : List NodeId} (hlt : x < vals.length) (hbooks : ∀ opn' : NodeId → Nat,
      (∀ i, opn' i + (if i = x then 1 else 0) = opn i + rel.count i) → Books plan (vals.set x (some v)) indeg' opn')
    (hqueue : ∀ i, queue.count i + (if i = x then 1 else 0) ≤ opn i) (hs : S x) (hx : ¬ F x)
    (hdone : ∀ i, isDone vals i = true → F i) (hF : ∀ j, F' j ↔ F j ∨ j = x) :
    Told plan outs indeg' S F' (hooks ++ .finish x :: readyHooks queue.length rel) := by
  have hopen : 0 < opn x := by
    have := hqueue x
    rw [if_pos rfl] at this
    omega
  have hopn : ∀ i, (opn i + rel.count i - if i = x then 1 else 0) + (if i = x then 1 else 0) = opn i + rel.count i :=
    fun i => by
      have := hqueue i
      omega
  have hb' := hbooks _ hopn
  have hledger := hb'.ledger
  rw [isDone_set hlt] at hledger
  rw [List.append_cons]
  refine (h.finished hs hx hF).pushed hg hb' (fun i hi => (hF i).mpr ?_) (hb.ledger.opened hledger hopen hopn) fun i => ?_
  · exact ((isDone_set_iff hlt).mp hi).imp_left (hdone i)
  · have := hqueue i
    rw [List.count_append]
    omega

theorem congr (h : Told plan outs indeg S F hooks) (hS : ∀ i, S' i ↔ S i) (hF : ∀ i, F' i ↔ F i) :
    Told plan outs indeg S' F' hooks :=
  ⟨h.lawful, h.ready, fun i => (h.start i).trans (hS i).symm, fun i => (h.finish i).trans (hF i).symm, h.seeded, h.width⟩

/-- The seeded nodes. -/
theorem seeds (hg : plan.Good outs) (hb : Books plan vals indeg fun i => plan.seeds.count i) (h0 : doneCount vals = 0)
    (hS : ∀ i, ¬ S i) (hF : ∀ i, ¬ F i) : Told plan outs indeg S F (readyHooks 0 plan.seeds) := by
  have hdone := not_done_of_doneCount_zero h0
  have hroot : ∀ i ∈ plan.seeds, plan.dag.depsOf i = [] := fun i hi => by
    have := (mem_pickIds.mp hi).2
    simpa using this
  have hnotes := readyHooks_notes 0 plan.seeds
  refine ⟨?_, fun i => ?_, fun i => ?_, fun i => ?_, List.prefix_refl _, fun id width hmem => ?_⟩
  · rw [hnotes, ← List.nil_append (plan.seeds.map _)]
    have hnd : plan.seeds.Nodup := List.nodup_iff_count_le_one.mpr fun i => hb.ledger.open_le_one i
    refine Lawful.nil.readys hnd fun i hi => ⟨List.not_mem_nil, fun d hd => ?_⟩
    rw [hroot i hi] at hd
    cases hd
  · rw [hnotes]
    simp only [List.mem_map, Prod.mk.injEq, true_and, exists_eq_right]
    constructor
    · intro hi
      have hopen := hb.ledger.of_open (List.count_pos_iff.mpr hi)
      exact ⟨hopen.1, hopen.2.2.2⟩
    · rintro ⟨hn, hc⟩
      have hp := hb.ledger.place i
      rw [hn, hdone i, hc] at hp
      exact List.count_pos_iff.mp (by simp at hp; omega)
  · rw [hnotes]
    simp [hS i]
  · rw [hnotes]
    simp [hF i]
  · obtain ⟨T, hT, hcard⟩ := hb.length_le hg fun i => Nat.le_refl _
    have hle := width_le_of_mem hmem
    exact ⟨T, hT, by omega⟩

end Told

end DagExec
