import DagExec.Model.Sequential
import DagExec.Common.Books

/-!
# The sequential loop

`SeqInv plan s` is the invariant at the top of the loop: the books with the queue as the open nodes, and the calls made
so far are those of the processed tasks, each once. `SeqStep` says once what an iteration can do:

- the queue is empty and the loop ends;
- the node at the front is processed, and the invariant holds again;
- the node at the front is a task whose function returns `Err` or panics, and the function is left.

Since a processed node stays processed, the loop ends (`seqLoop_ends`).
-/

namespace DagExec

open Outcome WhileLoop

variable {K O E ω R : Type} [ExecObserver R]

structure SeqInv (plan : Plan K O E ω) (s : SeqState O R) : Prop where
  books : Books plan s.vals s.indeg fun i => s.q.count i
  processed : s.processed = doneCount s.vals
  calls_nodup : (s.calls.map Invocation.id).Nodup
  calls_done : ∀ c ∈ s.calls, isDone s.vals c.id = true ∧ (∃ f, plan.dag.IsTask c.id f) ∧ RefArgs plan.dag c.id c.args
  done_called : ∀ i f, plan.dag.IsTask i f → isDone s.vals i = true → i ∈ s.calls.map Invocation.id

/-- What an iteration can do. -/
inductive SeqStep (plan : Plan K O E ω) (s : SeqState O R) :
    Ctl (SeqState O R) (Outcome (ExecError K E) Unit × SeqState O R) → Prop
  | drained (hq : s.q = []) : SeqStep plan s (.done (.ok (), s))
  | processed (id : NodeId) {s' : SeqState O R} (hq : id ∈ s.q) (inv : SeqInv plan s')
      (hcount : s'.processed = s.processed + 1) : SeqStep plan s (.next s')
  | failed {id : NodeId} {nd : Node K O E ω} {f : TaskFn O E ω} {args : List O} {w : ω} {e : E} {s' : SeqState O R}
      (hq : id ∈ s.q) (hi : plan.dag.nodes[id]? = some nd) (hk : nd.kind = .task f) (ha : RefArgs plan.dag id args)
      (hf : f w args = .err e) (hcalls : s'.calls = s.calls ++ [⟨id, args⟩]) :
      SeqStep plan s (.done (.err (.taskFailed nd.key e), s'))
  | panicked {id : NodeId} {nd : Node K O E ω} {f : TaskFn O E ω} {args : List O} {w : ω} {s' : SeqState O R}
      (hq : id ∈ s.q) (hi : plan.dag.nodes[id]? = some nd) (hk : nd.kind = .task f) (ha : RefArgs plan.dag id args)
      (hf : f w args = .panic) (hcalls : s'.calls = s.calls ++ [⟨id, args⟩]) :
      SeqStep plan s (.done (.panic .taskPanicked, s'))

/-- A non-empty request is prepared. -/
theorem seqStart_eq {outs : List K} (hne : outs ≠ []) (dag : Dag K O E ω) (observer : R) :
    seqStart dag outs observer = prepare dag outs observer := by
  rw [seqStart, if_neg (by simpa using hne)]

section

variable {plan : Plan K O E ω} {outs : List K} {s : SeqState O R}

omit [ExecObserver R] in
theorem SeqInv.needed_of_queued (h : SeqInv plan s) (hg : plan.Good outs) {id : NodeId} (hq : id ∈ s.q) :
    plan.dag.Needed outs id := h.books.needed_of_open hg (List.count_pos_iff.mpr hq)

omit [ExecObserver R] in
theorem SeqInv.not_done (h : SeqInv plan s) {id : NodeId} (hq : id ∈ s.q) : isDone s.vals id = false :=
  (h.books.ledger.of_open (List.count_pos_iff.mpr hq)).2.2.1

omit [ExecObserver R] in
/-- A queued node has not been called: it is not processed. -/
theorem SeqInv.not_called (h : SeqInv plan s) {id : NodeId} (hq : id ∈ s.q) : id ∉ s.calls.map Invocation.id := by
  intro hc
  obtain ⟨c, hcs, rfl⟩ := List.mem_map.mp hc
  have hnd := h.not_done hq
  rw [(h.calls_done c hcs).1] at hnd
  cases hnd

/-- Finishing the popped node, whether its value came from a source or from a call. -/
theorem SeqInv.finish (hg : plan.Good outs) (h : SeqInv plan s) {id : NodeId} {q : List NodeId} (hq : s.q = id :: q)
    {v : O} (hv : Evaluates plan.dag id v) {t : SeqState O R} (ht : t.vals = s.vals ∧ t.indeg = s.indeg ∧ t.q = q ∧
      t.processed = s.processed + 1) (hcalls : (plan.dag.IsSource id ∧ t.calls = s.calls) ∨
      ∃ f args, plan.dag.IsTask id f ∧ RefArgs plan.dag id args ∧ t.calls = s.calls ++ [⟨id, args⟩]) :
    ∃ s', (seqFinish plan id t v : Outcome (ExecError K E) _) = ok s' ∧ SeqInv plan s' ∧
      s'.processed = s.processed + 1 := by
  obtain ⟨hvals, hindeg, htq, htp⟩ := ht
  have hopen : 0 < s.q.count id := List.count_pos_iff.mpr (by rw [hq]; exact List.mem_cons_self)
  obtain ⟨dsts, indeg', rel, observer', hlt, hdep, hfold, -, hcount, -, hbooks⟩ :=
    h.books.finish (ε := ExecError K E) hg hopen hv q (ExecObserver.markFinish id t.observer)
  have hbooks' : Books plan (s.vals.set id (some v)) indeg' fun i => (q ++ rel).count i :=
    hbooks _ fun i => by
      simp only [hq, List.count_append, List.count_cons, beq_iff_eq]
      by_cases hi : i = id
      · subst hi; simp; omega
      · simp [hi, Ne.symm hi]
  -- the calls made for this node: none for a source, one for a task
  obtain ⟨new, hnew, hids, hnodup, htask⟩ : ∃ new, t.calls = s.calls ++ new ∧
      (∀ c ∈ new, c.id = id ∧ (∃ f, plan.dag.IsTask id f) ∧ RefArgs plan.dag id c.args) ∧
      (new.map Invocation.id).Nodup ∧ ∀ f, plan.dag.IsTask id f → id ∈ new.map Invocation.id := by
    rcases hcalls with ⟨hsrc, hc⟩ | ⟨f, args, hf, ha, hc⟩
    · exact ⟨[], by rw [hc, List.append_nil], nofun, List.nodup_nil, fun f hf => absurd hsrc hf.not_source⟩
    · refine ⟨[⟨id, args⟩], hc, fun c hc => ?_, List.nodup_singleton _, fun f _ => List.mem_singleton_self _⟩
      rw [List.mem_singleton] at hc
      subst hc
      exact ⟨rfl, ⟨f, hf⟩, ha⟩
  have hset := isDone_set (v := v) hlt
  refine ⟨{ t with vals := s.vals.set id (some v), indeg := indeg', q := q ++ rel, observer := observer' }, ?_,
    ⟨hbooks', htp.trans ?_, ?_, fun c hc => ?_, fun i f hi hd => ?_⟩, htp⟩
  · rw [seqFinish, hvals, store_of_lt _ hlt, ok_bind, index_of_get hdep, ok_bind, hindeg, htq, hfold, ok_bind]
    rfl
  · rw [h.processed, hcount]
  · show (t.calls.map Invocation.id).Nodup
    rw [hnew, List.map_append]
    refine h.calls_nodup.append hnodup fun i hi hi' => ?_
    obtain ⟨c, hc, rfl⟩ := List.mem_map.mp hi'
    rw [(hids c hc).1] at hi
    exact h.not_called (by rw [hq]; exact List.mem_cons_self) hi
  · simp only [hset]
    rw [show c ∈ _ ↔ c ∈ s.calls ++ new from hnew ▸ Iff.rfl, List.mem_append] at hc
    rcases hc with hc | hc
    · refine ⟨?_, (h.calls_done c hc).2⟩
      rw [Function.update_apply, (h.calls_done c hc).1, ite_self]
    · obtain ⟨hid, hdone⟩ := hids c hc
      rw [hid, Function.update_self]
      exact ⟨rfl, hdone⟩
  · simp only [hset, Function.update_apply] at hd
    show i ∈ t.calls.map Invocation.id
    rw [hnew, List.map_append, List.mem_append]
    split at hd
    · rename_i hii
      subst hii
      exact .inr (htask f hi)
    · exact .inl (h.done_called i f hi hd)

/-- **The step lemma.** -/
theorem seqBody_step (hg : plan.Good outs) (env : Nat → ω) (h : SeqInv plan s) :
    SeqStep plan s (seqBody plan env s) := by
  cases hq : s.q with
  | nil =>
    have : seqBody plan env s = .done (.ok (), s) := by simp only [seqBody, hq]
    rw [this]
    exact .drained hq
  | cons id q =>
    have hmem : id ∈ s.q := by rw [hq]; exact List.mem_cons_self
    have hopen : 0 < s.q.count id := List.count_pos_iff.mpr hmem
    have hlt := (h.books.needed_of_open hg hopen).lt
    have hi := List.getElem?_eq_getElem hlt
    generalize plan.dag.nodes[id] = nd at hi
    let popped : SeqState O R :=
      { s with q := q, processed := s.processed + 1, observer := ExecObserver.markStart id none s.observer }
    cases hk : nd.kind with
    | source v =>
      obtain ⟨s', hs', hinv, hp⟩ := h.finish (E := E) (t := popped) hg hq (.source hi hk) ⟨rfl, rfl, rfl, rfl⟩
        (.inl ⟨⟨nd, v, hi, hk⟩, rfl⟩)
      have hcomp : seqCompute plan env id popped = (.ok v, popped) := by
        simp only [seqCompute, index_of_get hi, hk]
      have hbody : seqBody plan env s = .next s' := by
        simp only [seqBody, hq]
        rw [show seqCompute plan env id _ = (.ok v, popped) from hcomp]
        simp only [ok_bind, hs']
      rw [hbody]
      exact .processed id hmem hinv hp
    | task f =>
      obtain ⟨args, hargs, href⟩ := h.books.gather hi hopen
      let called : SeqState O R := { popped with calls := s.calls ++ [⟨id, args⟩] }
      have hcomp : seqCompute plan env id popped = ((f (env (s.processed + 1)) args).toOutcome nd.key, called) := by
        have hargs' : gatherArgs popped.vals nd.deps = (ok args : Outcome (ExecError K E) _) := hargs
        simp only [seqCompute, index_of_get hi, hk, hargs']
        rfl
      cases hf : f (env (s.processed + 1)) args with
      | ok v =>
        have hv : Evaluates plan.dag id v := .of_refArgs ⟨nd, hi, hk⟩ href hf
        obtain ⟨s', hs', hinv, hp⟩ := h.finish (E := E) (t := called) hg hq hv ⟨rfl, rfl, rfl, rfl⟩
          (.inr ⟨f, args, ⟨nd, hi, hk⟩, href, rfl⟩)
        have hbody : seqBody plan env s = .next s' := by
          simp only [seqBody, hq]
          rw [show seqCompute plan env id _ = _ from hcomp, hf]
          simp only [Call.toOutcome, ok_bind, hs']
        rw [hbody]
        exact .processed id hmem hinv hp
      | err e =>
        have hbody : seqBody plan env s = .done (.err (.taskFailed nd.key e), called) := by
          simp only [seqBody, hq]
          rw [show seqCompute plan env id _ = _ from hcomp, hf]
          simp only [Call.toOutcome, err_bind]
        rw [hbody]
        exact .failed hmem hi hk href hf rfl
      | panic =>
        have hbody : seqBody plan env s = .done (.panic .taskPanicked, called) := by
          simp only [seqBody, hq]
          rw [show seqCompute plan env id _ = _ from hcomp, hf]
          simp only [Call.toOutcome, panic_bind]
        rw [hbody]
        exact .panicked hmem hi hk href hf rfl

/-- An iteration that runs again keeps the invariant, and fewer needed nodes are left to process. -/
theorem SeqInv.next {env : Nat → ω} {s' : SeqState O R} (h : SeqInv plan s) (hg : plan.Good outs)
    (hb : seqBody plan env s = .next s') :
    SeqInv plan s' ∧ plan.neededCount - s'.processed < plan.neededCount - s.processed := by
  have hstep := seqBody_step hg env h
  rw [hb] at hstep
  cases hstep with
  | processed id hq inv hcount =>
    have hlt := h.books.doneCount_lt hg (List.count_pos_iff.mpr hq)
    rw [← h.processed] at hlt
    exact ⟨inv, by omega⟩

/-- How the loop ends: at a state that keeps the invariant, by what that state's iteration does. -/
def SeqEnd (plan : Plan K O E ω) (r : Outcome (ExecError K E) Unit × SeqState O R) : Prop :=
  ∃ s : SeqState O R, SeqInv plan s ∧ SeqStep plan s (.done r)

/-- **The loop ends**: each iteration that runs again has processed one more needed node. -/
theorem seqLoop_ends (hg : plan.Good outs) (env : Nat → ω) (h : SeqInv plan s) :
    ∃ r, loop (seqBody plan env) s = some r ∧ SeqEnd plan r := by
  refine loop_total wellFounded_lt (I := SeqInv plan) (fun s => plan.neededCount - s.processed)
    (fun s s' hs hb => hs.next hg hb) (fun s r hs hb => ?_) s h
  have hstep := seqBody_step hg env hs
  rw [hb] at hstep
  exact ⟨s, hs, hstep⟩

omit [ExecObserver R] in
/-- The verdict with nothing left in the queue: every needed node is processed, or the rest is reported as a cycle. -/
theorem SeqInv.verdict (h : SeqInv plan s) (hg : plan.Good outs) :
    ((∀ i, plan.dag.Needed outs i → isDone s.vals i = true) ∧
      (seqVerdict plan s : Outcome (ExecError K E) _) = ok (s.vals, plan.needed)) ∨
    ((∃ i, plan.dag.Needed outs i ∧ isDone s.vals i = false) ∧
      (seqVerdict plan s : Outcome (ExecError K E) _) = err (.cycle (plan.report s.indeg))) := by
  have hcount := h.books.doneCount_eq_iff hg
  rw [← h.processed] at hcount
  by_cases hall : s.processed = plan.neededCount
  · exact .inl ⟨hcount.mp hall, by rw [seqVerdict, if_neg (not_not.mpr hall)]⟩
  · refine .inr ⟨?_, ?_⟩
    · by_contra hno
      refine hall (hcount.mpr fun i hi => ?_)
      by_contra hdi
      exact hno ⟨i, hi, by simpa using hdi⟩
    · rw [seqVerdict, if_pos hall, remainingKeys_ok hg.needed_length h.books.indeg_length]
      rfl

omit [ExecObserver R] in
/-- The invariant holds when the loop is entered. -/
theorem Prepared.seqInv {p : Prepared K O E ω R} (hb : Books p.plan p.vals p.indeg fun i => p.ready.count i)
    (h0 : doneCount p.vals = 0) : SeqInv p.plan p.seqState where
  books := hb
  processed := h0.symm
  calls_nodup := List.nodup_nil
  calls_done := fun c hc => by cases hc
  done_called := fun i f _ hd => by
    rw [show isDone p.seqState.vals i = false from not_done_of_doneCount_zero h0 i] at hd
    cases hd

end

end DagExec
