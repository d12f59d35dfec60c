import DagExec.Common.Books

/-!
# What the observer is told

A run tells its observer of nodes that become ready, start and finish. `replay hooks observer` is the observer after
these calls, so a run is described, whatever its observer makes of it, by the list of calls: a node pushed to the ready
queue is announced with the length of the queue at that moment (`readyHooks`), in the seeding (`seed_hooks`) and in the
release loops (`release_hooks`, `releaseDependents_hooks`).
-/

namespace DagExec

open Outcome

variable {K O E ω R ε : Type}

/-- A call of the observer. -/
inductive Hook
  | ready (id : NodeId) (width : Nat)
  | start (id : NodeId) (worker : Option Nat)
  | finish (id : NodeId)

section

variable [ExecObserver R]

def Hook.tell : Hook → R → R
  | .ready id width => ExecObserver.markReady id width
  | .start id worker => ExecObserver.markStart id worker
  | .finish id => ExecObserver.markFinish id

/-- The observer after some calls. -/
def replay (hooks : List Hook) (observer : R) : R := hooks.foldl (fun r h => h.tell r) observer

theorem replay_append (xs ys : List Hook) (observer : R) : replay (xs ++ ys) observer = replay ys (replay xs observer) :=
  List.foldl_append

end

/-- An observer that keeps the calls. -/
instance : ExecObserver (List Hook) where
  markReady id width log := log ++ [.ready id width]
  markStart id worker log := log ++ [.start id worker]
  markFinish id log := log ++ [.finish id]

theorem replay_log (hooks log : List Hook) : replay hooks log = log ++ hooks := by
  induction hooks generalizing log with
  | nil => exact (List.append_nil log).symm
  | cons h hooks ih =>
    rw [show replay (h :: hooks) log = replay hooks (h.tell log) from rfl, ih, List.append_cons]
    cases h <;> rfl

/-- Nodes pushed one by one to a queue of length `n`. -/
def readyHooks (n : Nat) : List NodeId → List Hook
  | [] => []
  | id :: ids => .ready id (n + 1) :: readyHooks (n + 1) ids

theorem readyHooks_append (n : Nat) (xs ys : List NodeId) :
    readyHooks n (xs ++ ys) = readyHooks n xs ++ readyHooks (n + xs.length) ys := by
  induction xs generalizing n with
  | nil => rfl
  | cons x xs ih =>
    rw [List.cons_append, readyHooks, ih, readyHooks, List.cons_append, List.length_cons]
    congr 3
    omega

/-- Pushing tells of ready nodes only. -/
theorem ready_of_mem {n : Nat} {ids : List NodeId} {h : Hook} (hh : h ∈ readyHooks n ids) :
    ∃ id width, h = .ready id width := by
  induction ids generalizing n with
  | nil => cases hh
  | cons i ids ih =>
    rcases List.mem_cons.mp hh with rfl | hh
    · exact ⟨i, n + 1, rfl⟩
    · exact ih hh

section

variable [ExecObserver R]

/-- Nodes were pushed to the queue one by one, and the observer was told of each. -/
def Pushes (before after : List NodeId × R) : Prop :=
  ∃ rel, after.1 = before.1 ++ rel ∧ after.2 = replay (readyHooks before.1.length rel) before.2

theorem Pushes.refl (x : List NodeId × R) : Pushes x x := ⟨[], (List.append_nil _).symm, rfl⟩

theorem Pushes.push (id : NodeId) (x : List NodeId × R) :
    Pushes x (x.1 ++ [id], ExecObserver.markReady id (x.1.length + 1) x.2) := ⟨[id], rfl, rfl⟩

theorem Pushes.trans {x y z : List NodeId × R} (h : Pushes x y) (h' : Pushes y z) : Pushes x z := by
  obtain ⟨rel, hq, ho⟩ := h
  obtain ⟨rel', hq', ho'⟩ := h'
  refine ⟨rel ++ rel', by rw [hq', hq, List.append_assoc], ?_⟩
  rw [ho', ho, hq, List.length_append, readyHooks_append, replay_append]

/-- A loop whose body pushes nodes pushes nodes. -/
theorem pushes_of_foldlM {α β : Type} {body : β → α → Outcome ε β} (view : β → List NodeId × R)
    (hbody : ∀ acc x acc', body acc x = ok acc' → Pushes (view acc) (view acc')) {xs : List α} {acc acc' : β}
    (h : xs.foldlM body acc = ok acc') : Pushes (view acc) (view acc') := by
  induction xs generalizing acc with
  | nil =>
    rw [List.foldlM_nil, pure_eq, ok.injEq] at h
    rw [h]
    exact .refl _
  | cons x xs ih =>
    rw [List.foldlM_cons] at h
    obtain ⟨acc₁, h₁, h₂⟩ := bind_eq_ok.mp h
    exact (hbody acc x acc₁ h₁).trans (ih h₂)

theorem seed_hooks {needed : List Bool} {indeg : List Nat} {observer : R} {seeded : List NodeId × R}
    (h : (seed needed indeg observer : Outcome ε _) = ok seeded) :
    seeded.2 = replay (readyHooks 0 seeded.1) observer := by
  have hbody : ∀ (acc : List NodeId × R) (p : Bool × NodeId) acc', (seedBody indeg acc p : Outcome ε _) = ok acc' →
      Pushes acc acc' := by
    intro acc p acc' hacc
    unfold seedBody at hacc
    split at hacc
    · obtain ⟨deg, -, hdeg⟩ := bind_eq_ok.mp hacc
      split at hdeg <;> cases hdeg
      · exact .push p.2 acc
      · exact .refl acc
    · cases hacc
      exact .refl acc
  obtain ⟨rel, hq, ho⟩ := pushes_of_foldlM id hbody h
  simp only [id, List.nil_append, List.length_nil] at hq ho
  rw [ho, hq]

theorem releaseBody_hooks {acc acc' : List Nat × List NodeId × R} {dst : NodeId}
    (h : (releaseBody acc dst : Outcome ε _) = ok acc') : Pushes acc.2 acc'.2 := by
  unfold releaseBody at h
  obtain ⟨deg, -, h⟩ := bind_eq_ok.mp h
  obtain ⟨deg', -, h⟩ := bind_eq_ok.mp h
  obtain ⟨indeg, -, h⟩ := bind_eq_ok.mp h
  split at h <;> cases h
  · exact .push dst acc.2
  · exact .refl acc.2

/-- The release loop of `sequential.rs`. -/
theorem release_hooks {dsts : List NodeId} {acc acc' : List Nat × List NodeId × R}
    (h : (dsts.foldlM releaseBody acc : Outcome ε _) = ok acc') : Pushes acc.2 acc'.2 :=
  pushes_of_foldlM Prod.snd (fun _ _ _ => releaseBody_hooks) h

/-- When `release_dependents` succeeds, it has done what the loop of `sequential.rs` does. -/
theorem releaseDependents_ok {dependents : List (List NodeId)} {indeg : List Nat} {ready : List NodeId} {src : NodeId}
    {observer : R} {rel : List Nat × List NodeId × R}
    (h : (releaseDependents dependents indeg ready src observer : Outcome ε _) = ok rel) :
    ∃ dsts, dependents[src]? = some dsts ∧ (dsts.foldlM releaseBody (indeg, ready, observer) : Outcome ε _) = ok rel := by
  unfold releaseDependents at h
  obtain ⟨dsts, hdsts, h⟩ := bind_eq_ok.mp h
  refine ⟨dsts, index_eq_ok.mp hdsts, ?_⟩
  clear hdsts
  generalize (indeg, ready, observer) = acc at h ⊢
  induction dsts generalizing acc with
  | nil => exact h
  | cons dst dsts ih =>
    rw [List.foldlM_cons] at h ⊢
    obtain ⟨acc₁, hbody, hrest⟩ := bind_eq_ok.mp h
    obtain ⟨deg, -, hbody⟩ := bind_eq_ok.mp hbody
    obtain ⟨u, -, hbody⟩ := bind_eq_ok.mp hbody
    rw [hbody, ok_bind]
    exact ih acc₁ hrest

theorem releaseDependents_hooks {dependents : List (List NodeId)} {indeg : List Nat} {ready : List NodeId} {src : NodeId}
    {observer : R} {rel : List Nat × List NodeId × R}
    (h : (releaseDependents dependents indeg ready src observer : Outcome ε _) = ok rel) :
    Pushes (ready, observer) rel.2 := by
  obtain ⟨dsts, -, hfold⟩ := releaseDependents_ok h
  exact release_hooks hfold

/-- Before the first node is processed, the observer has been told of the seeded nodes. -/
theorem prepare_hooks {dag : Dag K O E ω} {outs : List K} {observer : R} {p : Prepared K O E ω R}
    (h : prepare dag outs observer = ok p) : p.observer = replay (readyHooks 0 p.ready) observer := by
  unfold prepare at h
  obtain ⟨needed, -, h⟩ := bind_eq_ok.mp h
  obtain ⟨kahn, -, h⟩ := bind_eq_ok.mp h
  obtain ⟨seeded, hseed, h⟩ := bind_eq_ok.mp h
  cases h
  exact seed_hooks hseed

end

end DagExec
