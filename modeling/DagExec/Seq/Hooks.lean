import DagExec.Common.Told
import DagExec.Seq.Reach

/-!
# What the observer of a sequential run is told

At the top of the main loop the observer has been told that the processed nodes have started and finished, on no worker,
and that the needed nodes whose counter is zero have become ready.
-/

namespace DagExec

open Outcome

variable {K O E ω R : Type} [ExecObserver R] {dag : Dag K O E ω} {outs : List K} {env : Nat → ω} {observer : R}
  {plan : Plan K O E ω} {s s' : SeqState O R}

/-- The calls the observer has had by a state. -/
structure SeqHooked (plan : Plan K O E ω) (outs : List K) (observer : R) (s : SeqState O R) (hooks : List Hook) :
    Prop where
  observer : s.observer = replay hooks observer
  told : Told plan outs s.indeg (fun i => isDone s.vals i = true) (fun i => isDone s.vals i = true) hooks
  worker : ∀ i worker, .start i worker ∈ hooks → worker = none

/-- An iteration tells of the node's start and finish, and of what it releases. -/
theorem SeqHooked.processes {hooks : List Hook} (h : SeqHooked plan outs observer s hooks) (inv : SeqInv plan s)
    (hg : plan.Good outs) {id : NodeId} {q : List NodeId} {v : O} {new : List (Invocation O)} {dsts : List NodeId}
    (hp : Processes plan env s s' id q v new dsts) : ∃ hooks', SeqHooked plan outs observer s' hooks' := by
  obtain ⟨rel, -, ho, hbooks⟩ := hp.released inv hg
  have hopen : 0 < s.q.count id := List.count_pos_iff.mpr (by rw [hp.queue]; exact List.mem_cons_self)
  obtain ⟨hn, -, hnd, h0⟩ := inv.books.ledger.of_open hopen
  have hdone : ∀ i, isDone s'.vals i = true ↔ isDone s.vals i = true ∨ i = id := fun i => by
    rw [hp.vals]
    exact isDone_set_iff hp.lt
  have hfresh : ¬ isDone s.vals id = true := by
    intro hd
    rw [hnd] at hd
    cases hd
  refine ⟨hooks ++ .start id none :: .finish id :: readyHooks q.length rel, ?_, ?_, fun i worker hmem => ?_⟩
  · rw [ho, h.observer, replay_append]
    rfl
  · have hstart : Told plan outs s.indeg (fun i => isDone s.vals i = true ∨ i = id) (fun i => isDone s.vals i = true)
        (hooks ++ [.start id none]) := h.told.started hn h0 hfresh (fun i => Iff.rfl) none
    rw [List.append_cons]
    refine (hstart.processed hg inv.books q hp.lt hbooks (fun i => ?_) (.inr rfl) hfresh (fun i hd => hd) hdone).congr
      hdone fun i => Iff.rfl
    rw [hp.queue, ListFacts.count_cons_eq]
  · rcases List.mem_append.mp hmem with hold | hmem
    · exact h.worker i worker hold
    · rcases List.mem_cons.mp hmem with hhead | hmem
      · cases hhead
        rfl
      · rcases List.mem_cons.mp hmem with hhead | hmem
        · cases hhead
        · obtain ⟨_, _, hc⟩ := ready_of_mem hmem
          cases hc

/-- **What a sequential run's observer is told.** -/
theorem SeqReach.hooked (h : SeqReach dag outs env observer plan s) : ∃ hooks, SeqHooked plan outs observer s hooks := by
  refine h.induct (P := fun s => ∃ hooks, SeqHooked plan outs observer s hooks) (fun p hp hd => ?_)
    fun s s' hs hh hb => ?_
  · subst hd
    obtain ⟨-, hg, inv, h0, hr, ho, -⟩ := seqStart_start hp
    have hidle : ∀ i, ¬ isDone p.seqState.vals i = true := fun i => by
      show ¬ isDone p.vals i = true
      rw [not_done_of_doneCount_zero h0]
      simp
    refine ⟨readyHooks 0 p.plan.seeds, ho, Told.seeds hg ?_ h0 hidle hidle, fun i worker hmem => ?_⟩
    · have hbooks := inv.books
      rw [show p.seqState.q = p.plan.seeds from hr] at hbooks
      exact hbooks
    · obtain ⟨_, _, hc⟩ := ready_of_mem hmem
      cases hc
  · obtain ⟨hooks, hh⟩ := hh
    obtain ⟨-, hg, inv⟩ := hs.inv
    obtain ⟨id, q, v, new, dsts, hp⟩ := seqBody_next hb
    exact hh.processes inv hg hp

end DagExec
