import DagExec.Model.Trace
import DagExec.Common.Told

/-!
# The stamps of a trace

The observer's slots are written once. Told of each moment at most once, it reads the clock once for each call, so the
moment told of by the `p`-th call carries the `p`-th reading (`Stamps`).
-/

namespace DagExec

open Lifecycle

variable {clock : Nat → Nat} {n : Nat} {notes : List (Phase × NodeId)} {phase : Phase} {slots : List (Option Nat)}

/-- Each slot of a phase holds the reading at the position where the phase was noted. -/
structure Stamped (clock : Nat → Nat) (n : Nat) (notes : List (Phase × NodeId)) (phase : Phase)
    (slots : List (Option Nat)) : Prop where
  length : slots.length = n
  stamp : ∀ i t, slots[i]? = some (some t) ↔ ∃ p, notes[p]? = some (phase, i) ∧ clock p = t

theorem getElem?_snoc {α : Type} (xs : List α) (x y : α) (p : Nat) :
    (xs ++ [x])[p]? = some y ↔ xs[p]? = some y ∨ (p = xs.length ∧ x = y) := by
  rcases Nat.lt_trichotomy p xs.length with hlt | rfl | hgt
  · rw [List.getElem?_append_left hlt]
    constructor
    · exact .inl
    · rintro (h | ⟨rfl, -⟩)
      · exact h
      · omega
  · simp
  · rw [List.getElem?_eq_none (by simp; omega), List.getElem?_eq_none (by omega)]
    constructor
    · nofun
    · rintro (h | ⟨rfl, -⟩)
      · cases h
      · omega

namespace Stamped

theorem nil (clock : Nat → Nat) (n : Nat) (phase : Phase) : Stamped clock n [] phase (List.replicate n none) := by
  refine ⟨List.length_replicate, fun i t => ?_⟩
  rw [List.getElem?_replicate]
  constructor
  · split <;> nofun
  · rintro ⟨p, hp, -⟩
    cases hp

/-- A slot is vacant until its moment comes. -/
theorem vacant_iff (h : Stamped clock n notes phase slots) {i : NodeId} (hi : i < n) :
    vacant slots i = true ↔ (phase, i) ∉ notes := by
  have hlt : i < slots.length := h.length.symm ▸ hi
  unfold vacant
  rw [List.getElem?_eq_getElem hlt]
  cases hs : slots[i] with
  | none =>
    refine ⟨fun _ hmem => ?_, fun _ => rfl⟩
    obtain ⟨p, hp⟩ := List.getElem?_of_mem hmem
    have := (h.stamp i (clock p)).mpr ⟨p, hp, rfl⟩
    rw [List.getElem?_eq_getElem hlt, hs] at this
    cases this
  | some t =>
    obtain ⟨p, hp, -⟩ := (h.stamp i t).mp (by rw [List.getElem?_eq_getElem hlt, hs])
    exact ⟨nofun, fun hno => absurd (List.mem_of_getElem? hp) hno⟩

/-- The moment comes. -/
theorem set (h : Stamped clock n notes phase slots) {i : NodeId} (hi : i < n) (hnew : (phase, i) ∉ notes) :
    Stamped clock n (notes ++ [(phase, i)]) phase (slots.set i (some (clock notes.length))) := by
  refine ⟨by rw [List.length_set, h.length], fun j t => ?_⟩
  rw [List.getElem?_set]
  by_cases hij : i = j
  · subst hij
    rw [if_pos rfl, if_pos (h.length.symm ▸ hi)]
    simp only [getElem?_snoc]
    constructor
    · intro ht
      cases ht
      exact ⟨notes.length, .inr ⟨rfl, trivial⟩, rfl⟩
    · rintro ⟨p, hp | ⟨rfl, -⟩, rfl⟩
      · exact absurd (List.mem_of_getElem? hp) hnew
      · rfl
  · rw [if_neg hij, h.stamp]
    simp only [getElem?_snoc, Prod.mk.injEq, hij, and_false, or_false]

/-- A moment of another phase comes. -/
theorem other (h : Stamped clock n notes phase slots) {e : Phase × NodeId} (he : e.1 ≠ phase) :
    Stamped clock n (notes ++ [e]) phase slots := by
  refine ⟨h.length, fun i t => ?_⟩
  rw [h.stamp]
  have hne : e ≠ (phase, i) := fun hc => he (hc ▸ rfl)
  simp only [getElem?_snoc, hne, and_false, or_false]

end Stamped

/-- The observer after some calls. -/
structure Stamps (clock : Nat → Nat) (n : Nat) (hooks : List Hook) (r : TraceObserver) : Prop where
  clock_eq : r.clock = clock
  reads : r.reads = hooks.length
  ready : Stamped clock n (hooks.map Hook.note) .ready r.readyAt
  start : Stamped clock n (hooks.map Hook.note) .start r.startedAt
  finish : Stamped clock n (hooks.map Hook.note) .finish r.finishedAt
  worker_length : r.workerId.length = n
  worker : ∀ i w, r.workerId[i]? = some (some w) ↔ .start i (some w) ∈ hooks
  order : r.executionOrder = (hooks.map Hook.note).filterMap Lifecycle.started
  width : ∀ i w, .ready i w ∈ hooks → w ≤ r.maxFrontierWidth
  width_reached : r.maxFrontierWidth = 0 ∨ ∃ i, .ready i r.maxFrontierWidth ∈ hooks

namespace Stamps

variable {hooks : List Hook} {r : TraceObserver}

theorem new (clock : Nat → Nat) (n : Nat) : Stamps clock n [] (TraceObserver.new clock n) where
  clock_eq := rfl
  reads := rfl
  ready := Stamped.nil clock n .ready
  start := Stamped.nil clock n .start
  finish := Stamped.nil clock n .finish
  worker_length := List.length_replicate
  worker := fun i w => by
    show (List.replicate n (none : Option Nat))[i]? = some (some w) ↔ _
    rw [List.getElem?_replicate]
    split <;> simp
  order := rfl
  width := nofun
  width_reached := .inl rfl

theorem now (h : Stamps clock n hooks r) : r.elapsed = clock (hooks.map Hook.note).length := by
  rw [TraceObserver.elapsed, h.clock_eq, h.reads, List.length_map]

theorem length_snoc (h : Stamps clock n hooks r) (x : Hook) : r.reads + 1 = (hooks ++ [x]).length := by
  rw [h.reads, List.length_append, List.length_singleton]

theorem notes_snoc (hooks : List Hook) (x : Hook) : (hooks ++ [x]).map Hook.note = hooks.map Hook.note ++ [x.note] := by
  rw [List.map_append, List.map_cons, List.map_nil]

theorem width_reached_snoc (h : Stamps clock n hooks r) (x : Hook) :
    r.maxFrontierWidth = 0 ∨ ∃ i, .ready i r.maxFrontierWidth ∈ hooks ++ [x] := by
  apply h.width_reached.imp_right
  rintro ⟨i, hi⟩
  exact ⟨i, List.mem_append_left _ hi⟩

/-- A node becomes ready. -/
theorem markReady (h : Stamps clock n hooks r) {i : NodeId} (hi : i < n) (hnew : (.ready, i) ∉ hooks.map Hook.note)
    (width : Nat) : Stamps clock n (hooks ++ [.ready i width]) (r.markReady i width) := by
  have hv := (h.ready.vacant_iff hi).mpr hnew
  unfold TraceObserver.markReady
  rw [if_pos hv, h.now]
  refine ⟨h.clock_eq, h.length_snoc _, ?_, ?_, ?_, h.worker_length, fun j w => ?_, ?_, fun j w hmem => ?_, ?_⟩
  · rw [notes_snoc]
    exact h.ready.set hi hnew
  · rw [notes_snoc]
    exact h.start.other nofun
  · rw [notes_snoc]
    exact h.finish.other nofun
  · simp [h.worker]
  · rw [notes_snoc, starts_snoc rfl]
    exact h.order
  · show w ≤ max r.maxFrontierWidth width
    rcases List.mem_append.mp hmem with hold | hnew
    · have := h.width j w hold
      omega
    · cases List.mem_singleton.mp hnew
      omega
  · show max r.maxFrontierWidth width = 0 ∨ ∃ j, Hook.ready j (max r.maxFrontierWidth width) ∈ hooks ++ [_]
    rcases Nat.le_total r.maxFrontierWidth width with hle | hle
    · rw [Nat.max_eq_right hle]
      exact .inr ⟨i, by simp⟩
    · rw [Nat.max_eq_left hle]
      exact h.width_reached_snoc _

/-- A node starts. -/
theorem markStart (h : Stamps clock n hooks r) {i : NodeId} (hi : i < n) (hnew : (.start, i) ∉ hooks.map Hook.note)
    (worker : Option Nat) : Stamps clock n (hooks ++ [.start i worker]) (r.markStart i worker) := by
  have hv := (h.start.vacant_iff hi).mpr hnew
  have hwlt : i < r.workerId.length := h.worker_length.symm ▸ hi
  have hslot : r.workerId[i]? = some none := by
    rw [List.getElem?_eq_getElem hwlt]
    cases hw : r.workerId[i] with
    | none => rfl
    | some w =>
      have hmem := (h.worker i w).mp (by rw [List.getElem?_eq_getElem hwlt, hw])
      exact absurd (List.mem_map_of_mem (f := Hook.note) hmem) hnew
  have hvw : vacant r.workerId i = true := by rw [vacant, hslot]; rfl
  unfold TraceObserver.markStart
  simp only [if_pos hv]
  rw [if_pos hvw, h.now]
  refine ⟨h.clock_eq, h.length_snoc _, ?_, ?_, ?_, ?_, fun j w => ?_, ?_, fun j w hmem => ?_, ?_⟩
  · rw [notes_snoc]
    exact h.ready.other nofun
  · rw [notes_snoc]
    exact h.start.set hi hnew
  · rw [notes_snoc]
    exact h.finish.other nofun
  · show (r.workerId.set i worker).length = n
    rw [List.length_set, h.worker_length]
  · show (r.workerId.set i worker)[j]? = some (some w) ↔ _
    rw [List.getElem?_set, List.mem_append, List.mem_singleton]
    by_cases hij : i = j
    · subst hij
      have hno : .start i (some w) ∉ hooks := fun hmem => hnew (List.mem_map_of_mem (f := Hook.note) hmem)
      simp [hwlt, hno, eq_comm]
    · rw [if_neg hij, h.worker]
      simp [Ne.symm hij]
  · rw [notes_snoc]
    show r.executionOrder ++ [i] = _
    rw [h.order]
    exact (starts_snoc_start _ i).symm
  · exact h.width j w (by simpa using hmem)
  · exact h.width_reached_snoc _

/-- A node finishes. -/
theorem markFinish (h : Stamps clock n hooks r) {i : NodeId} (hi : i < n) (hnew : (.finish, i) ∉ hooks.map Hook.note) :
    Stamps clock n (hooks ++ [.finish i]) (r.markFinish i) := by
  have hv := (h.finish.vacant_iff hi).mpr hnew
  unfold TraceObserver.markFinish
  rw [if_pos hv, h.now]
  refine ⟨h.clock_eq, h.length_snoc _, ?_, ?_, ?_, h.worker_length, fun j w => ?_, ?_, fun j w hmem => ?_, ?_⟩
  · rw [notes_snoc]
    exact h.ready.other nofun
  · rw [notes_snoc]
    exact h.start.other nofun
  · rw [notes_snoc]
    exact h.finish.set hi hnew
  · simp [h.worker]
  · rw [notes_snoc, starts_snoc rfl]
    exact h.order
  · exact h.width j w (by simpa using hmem)
  · exact h.width_reached_snoc _

/-- **Every call is stamped.** -/
theorem replay {deps : NodeId → List NodeId} (h : Lawful deps (hooks.map Hook.note))
    (hids : ∀ x ∈ hooks, x.note.2 < n) : Stamps clock n hooks (replay hooks (TraceObserver.new clock n)) := by
  induction hooks using List.reverseRecOn with
  | nil => exact Stamps.new clock n
  | append_singleton hooks x ih =>
    rw [notes_snoc] at h
    obtain ⟨h, ha⟩ := h.snoc_inv
    have hx := hids x (List.mem_append_right _ List.mem_cons_self)
    have hstamps := ih h fun y hy => hids y (List.mem_append_left _ hy)
    rw [replay_append]
    cases x with
    | ready i width => exact hstamps.markReady hx ha.fresh width
    | start i worker => exact hstamps.markStart hx ha.fresh worker
    | finish i => exact hstamps.markFinish hx ha.fresh

end Stamps

end DagExec
