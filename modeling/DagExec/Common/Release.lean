import DagExec.Common.Metadata
import DagExec.Model.Parallel

/-!
# Releasing dependents

The release loop decrements the counter of each listed node once for each time it is listed, and opens, in list order,
the nodes whose counter reaches zero. As long as no node is listed more often than its counter says, nothing
underflows, so the debug assertion of `release_dependents` changes nothing.
-/

namespace DagExec

open Outcome

variable {R ε : Type} [ExecObserver R]

/-- The observer after one iteration of the release loop that left the counter at `k`. -/
def releaseObserve (k : Nat) (ready : List NodeId) (dst : NodeId) (observer : R) : R :=
  if k = 0 then ExecObserver.markReady dst (ready.length + 1) observer else observer

theorem releaseBody_ok {indeg : List Nat} {ready : List NodeId} {observer : R} {dst : NodeId} {k : Nat}
    (hlt : dst < indeg.length) (hk : counter indeg dst = k + 1) :
    releaseBody (indeg, ready, observer) dst = (ok (indeg.set dst k, ready ++ if k = 0 then [dst] else [],
      releaseObserve k ready dst observer) : Outcome ε _) := by
  have hdec : (decrement (k + 1) : Outcome ε Nat) = ok k := by simp [decrement]
  simp only [releaseBody, index_counter hlt, hk, ok_bind, hdec, store_of_lt _ hlt]
  unfold releaseObserve
  by_cases h0 : k = 0 <;> simp [h0]

/-- The node at the head of the list has a positive counter. -/
theorem counter_head_pos {indeg : List Nat} {dst : NodeId} {dsts : List NodeId}
    (h : ∀ d, (dst :: dsts).count d ≤ counter indeg d) : ∃ k, counter indeg dst = k + 1 := by
  have := h dst
  rw [List.count_cons_self] at this
  exact ⟨counter indeg dst - 1, by omega⟩

/-- After its decrement the rest of the list is still within the counters. -/
theorem counter_tail {indeg : List Nat} {dst : NodeId} {dsts : List NodeId} {k : Nat}
    (h : ∀ d, (dst :: dsts).count d ≤ counter indeg d) (hlt : dst < indeg.length) (hk : counter indeg dst = k + 1)
    (d : NodeId) : dsts.count d ≤ counter (indeg.set dst k) d := by
  have := h d
  rw [counter_set hlt]
  by_cases hd : d = dst
  · subst hd; rw [List.count_cons_self] at this; rw [if_pos rfl]; omega
  · rw [List.count_cons_of_ne (Ne.symm hd)] at this; rw [if_neg hd]; exact this

/-- What the release loop does to the counters and to the ready queue. -/
theorem release_ok : ∀ (dsts : List NodeId) (indeg : List Nat) (ready : List NodeId) (observer : R),
    (∀ d ∈ dsts, d < indeg.length) → (∀ d, dsts.count d ≤ counter indeg d) → ∃ indeg' rel observer',
      dsts.foldlM releaseBody (indeg, ready, observer) = (ok (indeg', ready ++ rel, observer') : Outcome ε _) ∧
      indeg'.length = indeg.length ∧ (∀ d, counter indeg' d + dsts.count d = counter indeg d) ∧
      (∀ d, rel.count d = if 0 < dsts.count d ∧ counter indeg' d = 0 then 1 else 0) ∧ rel.Sublist dsts
  | [], indeg, ready, observer, _, _ =>
    ⟨indeg, [], observer, by simp, rfl, fun d => by simp, fun d => by simp, .slnil⟩
  | dst :: dsts, indeg, ready, observer, hlt, hcount => by
    have hdst : dst < indeg.length := hlt dst List.mem_cons_self
    obtain ⟨k, hk⟩ := counter_head_pos hcount
    have hset : ∀ d, counter (indeg.set dst k) d = if d = dst then k else counter indeg d := fun d => counter_set hdst
    obtain ⟨indeg', rel, observer', hfold, hlen, hind, hrel, hsub⟩ := release_ok dsts (indeg.set dst k)
      (ready ++ if k = 0 then [dst] else []) (releaseObserve k ready dst observer)
      (fun d hd => by rw [List.length_set]; exact hlt d (List.mem_cons_of_mem _ hd)) (counter_tail hcount hdst hk)
    refine ⟨indeg', (if k = 0 then [dst] else []) ++ rel, observer', ?_, by rw [hlen, List.length_set], fun d => ?_,
      fun d => ?_, ?_⟩
    · rw [List.foldlM_cons, releaseBody_ok hdst hk, ok_bind, hfold, List.append_assoc]
    · have := hind d
      rw [hset] at this
      by_cases hd : d = dst
      · subst hd; rw [List.count_cons_self, hk]; rw [if_pos rfl] at this; omega
      · rw [List.count_cons_of_ne (Ne.symm hd)]; rw [if_neg hd] at this; exact this
    · have hd' := hind d
      rw [hset] at hd'
      rw [List.count_append, hrel]
      by_cases hd : d = dst
      · subst hd
        rw [if_pos rfl] at hd'
        rw [List.count_cons_self]
        by_cases h0 : k = 0
        · have hz : dsts.count d = 0 := by omega
          have hz' : counter indeg' d = 0 := by omega
          simp [h0, hz, hz']
        · -- the counter is still positive, so `d` is opened later exactly if it is listed again
          have : (0 < dsts.count d ∧ counter indeg' d = 0) ↔ (0 < dsts.count d + 1 ∧ counter indeg' d = 0) :=
            ⟨fun h => ⟨by omega, h.2⟩, fun h => ⟨by omega, h.2⟩⟩
          simp only [h0, if_false, List.count_nil, Nat.zero_add, this]
      · rw [List.count_cons_of_ne (Ne.symm hd)]
        have hno : (if k = 0 then [dst] else []).count d = 0 := by
          split
          · exact List.count_cons_of_ne (Ne.symm hd)
          · rfl
        rw [hno, Nat.zero_add]
    · by_cases h0 : k = 0
      · simp only [h0, if_true]; exact hsub.cons_cons _
      · simp only [h0, if_false]; exact hsub.cons _

/-- What the release loop pushes are some of the dependents, in their order. -/
theorem release_sublist {dsts : List NodeId} {acc acc' : List Nat × List NodeId × R}
    (h : (dsts.foldlM releaseBody acc : Outcome ε _) = ok acc') :
    ∃ rel, acc'.2.1 = acc.2.1 ++ rel ∧ rel.Sublist dsts := by
  induction dsts generalizing acc with
  | nil =>
    cases h
    exact ⟨[], (List.append_nil _).symm, .slnil⟩
  | cons dst dsts ih =>
    rw [List.foldlM_cons] at h
    obtain ⟨acc₁, hbody, hrest⟩ := bind_eq_ok.mp h
    obtain ⟨rel, hrel, hsub⟩ := ih hrest
    unfold releaseBody at hbody
    obtain ⟨deg, -, hbody⟩ := bind_eq_ok.mp hbody
    obtain ⟨deg', -, hbody⟩ := bind_eq_ok.mp hbody
    obtain ⟨indeg, -, hbody⟩ := bind_eq_ok.mp hbody
    split at hbody <;> cases hbody
    · exact ⟨dst :: rel, by rw [hrel, List.append_assoc]; rfl, hsub.cons_cons _⟩
    · exact ⟨rel, hrel, hsub.cons _⟩

/-- `release_dependents` is the release loop: its debug assertion holds whenever the decrement does not underflow. -/
theorem releaseDependents_eq {dependents : List (List NodeId)} {src : NodeId} {dsts : List NodeId}
    (hsrc : dependents[src]? = some dsts) : ∀ {indeg : List Nat} {ready : List NodeId} {observer : R},
    (∀ d ∈ dsts, d < indeg.length) → (∀ d, dsts.count d ≤ counter indeg d) →
    releaseDependents dependents indeg ready src observer =
      (dsts.foldlM releaseBody (indeg, ready, observer) : Outcome ε _) := by
  intro indeg ready observer hlt hcount
  simp only [releaseDependents, index_of_get hsrc, ok_bind]
  clear hsrc
  induction dsts generalizing indeg ready observer with
  | nil => rfl
  | cons dst dsts ih =>
    have hdst : dst < indeg.length := hlt dst List.mem_cons_self
    obtain ⟨k, hk⟩ := counter_head_pos hcount
    have hassert : (debugAssert (decide (0 < k + 1)) "indeg[dst.0] > 0" : Outcome ε Unit) = ok () := by
      simp [debugAssert]
    rw [List.foldlM_cons, List.foldlM_cons, index_counter hdst, ok_bind, hk, hassert, ok_bind, releaseBody_ok hdst hk,
      ok_bind, ok_bind]
    exact ih (fun d hd => by rw [List.length_set]; exact hlt d (List.mem_cons_of_mem _ hd)) (counter_tail hcount hdst hk)

end DagExec
