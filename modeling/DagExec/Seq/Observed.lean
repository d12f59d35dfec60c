import DagExec.Seq.Hooks
import DagExec.Seq.Runs

/-!
# The observer of a sequential run

Nothing a run computes depends on its observer: the run without one is the run of any observer with the observer left
out (`execute_unobserved`). So what `run_sequential` does may be read off the log of a run whose observer keeps the calls
it gets: the nodes pushed to the queue (`enqueued`) and the nodes taken from it (`popped`), in order.

- `SeqReach.logged`: at the top of the loop the log tells exactly what has been pushed, popped and processed;
- `execute_log`: so it does at the end of a run.
-/

namespace DagExec

open Outcome WhileLoop

variable {K O E ω R : Type}

/-! ## Leaving the observer out -/

def SeqState.unobserved (s : SeqState O R) : SeqState O Unit := { s with observer := () }

def Prepared.unobserved (p : Prepared K O E ω R) : Prepared K O E ω Unit := { p with observer := () }

section

variable [ExecObserver R] {dag : Dag K O E ω} {outs : List K} {env : Nat → ω} {observer : R} {plan : Plan K O E ω}
  {s : SeqState O R}

theorem seed_unobserved {ε : Type} (needed : List Bool) (indeg : List Nat) (observer : R) :
    (seed needed indeg () : Outcome ε _) = (fun acc => (acc.1, ())) <$> seed needed indeg observer := by
  refine foldlM_seen (f := fun acc : List NodeId × R => (acc.1, ())) (fun acc p => ?_) needed.zipIdx ([], observer)
  unfold seedBody
  cases p.1 with
  | false => rfl
  | true =>
    simp only [if_true]
    cases (index indeg p.2 : Outcome ε Nat) with
    | ok deg =>
      simp only [ok_bind]
      split <;> rfl
    | _ => rfl

theorem release_unobserved {ε : Type} (dsts : List NodeId) (acc : List Nat × List NodeId × R) :
    (dsts.foldlM releaseBody (acc.1, acc.2.1, ()) : Outcome ε _) =
      (fun acc => (acc.1, acc.2.1, ())) <$> dsts.foldlM releaseBody acc := by
  refine foldlM_seen (f := fun acc : List Nat × List NodeId × R => (acc.1, acc.2.1, ())) (fun acc dst => ?_) dsts acc
  unfold releaseBody
  cases (index acc.1 dst : Outcome ε Nat) with
  | ok deg =>
    simp only [ok_bind]
    cases (decrement deg : Outcome ε Nat) with
    | ok deg' =>
      simp only [ok_bind]
      cases (store acc.1 dst deg' : Outcome ε _) with
      | ok indeg =>
        simp only [ok_bind]
        split <;> rfl
      | _ => rfl
    | _ => rfl
  | _ => rfl

theorem seqStart_unobserved (dag : Dag K O E ω) (outs : List K) (observer : R) :
    seqStart dag outs () = Prepared.unobserved <$> seqStart dag outs observer := by
  unfold seqStart
  split
  · rfl
  unfold prepare
  cases markNeeded dag outs with
  | ok needed =>
    simp only [ok_bind]
    cases (buildKahnMetadata dag needed : Outcome (ExecError K E) _) with
    | ok kahn =>
      simp only [ok_bind]
      rw [seed_unobserved needed kahn.2.1 observer]
      cases (seed needed kahn.2.1 observer : Outcome (ExecError K E) _) <;> rfl
    | _ => rfl
  | _ => rfl

omit [ExecObserver R] in
theorem seqCompute_unobserved (plan : Plan K O E ω) (env : Nat → ω) (id : NodeId) (s : SeqState O R) :
    seqCompute plan env id s.unobserved =
      ((seqCompute plan env id s).1, (seqCompute plan env id s).2.unobserved) := by
  unfold seqCompute
  cases (index plan.dag.nodes id : Outcome (ExecError K E) _) with
  | ok nd =>
    simp only
    cases nd.kind with
    | source v => rfl
    | task f =>
      simp only [SeqState.unobserved]
      cases (gatherArgs s.vals nd.deps : Outcome (ExecError K E) _) <;> rfl
  | _ => rfl

theorem seqFinish_unobserved (plan : Plan K O E ω) (id : NodeId) (s : SeqState O R) (v : O) :
    (seqFinish plan id s.unobserved v : Outcome (ExecError K E) _) = SeqState.unobserved <$> seqFinish plan id s v := by
  unfold seqFinish
  simp only [SeqState.unobserved]
  cases (store s.vals id (some v) : Outcome (ExecError K E) _) with
  | ok vals =>
    simp only [ok_bind]
    cases (index plan.dependents id : Outcome (ExecError K E) _) with
    | ok dsts =>
      simp only [ok_bind]
      rw [show ExecObserver.markFinish id () = () from rfl,
        release_unobserved dsts (s.indeg, s.q, ExecObserver.markFinish id s.observer)]
      cases (dsts.foldlM releaseBody (s.indeg, s.q, ExecObserver.markFinish id s.observer) :
        Outcome (ExecError K E) _) <;> rfl
    | _ => rfl
  | _ => rfl

/-- The node at the front is popped and told of. -/
def SeqState.pop (s : SeqState O R) (id : NodeId) (q : List NodeId) : SeqState O R :=
  { s with q := q, processed := s.processed + 1, observer := ExecObserver.markStart id none s.observer }

/-- The loop goes on, or leaves the function from the given state. -/
def resume {ε σ : Type} (o : Outcome ε σ) (s : σ) : Ctl σ (Outcome ε Unit × σ) :=
  match o with
  | .ok s' => .next s'
  | .err e => .done (.err e, s)
  | .panic p => .done (.panic p, s)
  | .diverge => .done (.diverge, s)

/-- An iteration with a node at the front. -/
theorem seqBody_cons {id : NodeId} {q : List NodeId} (hq : s.q = id :: q) {o : Outcome (ExecError K E) O}
    {t : SeqState O R} (hcomp : seqCompute plan env id (s.pop id q) = (o, t)) :
    seqBody plan env s = resume (o >>= seqFinish plan id t) t := by
  unfold SeqState.pop at hcomp
  simp only [seqBody, hq, hcomp]
  cases o >>= seqFinish plan id t <;> rfl

/-- An iteration does the same. -/
theorem seqBody_unobserved (plan : Plan K O E ω) (env : Nat → ω) (s : SeqState O R) : seqBody plan env s.unobserved =
    (seqBody plan env s).map SeqState.unobserved fun r : Outcome (ExecError K E) Unit × _ => (r.1, r.2.unobserved) := by
  cases hq : s.q with
  | nil => simp only [seqBody, SeqState.unobserved, hq, Ctl.map]
  | cons id q =>
    cases hcomp : seqCompute plan env id (s.pop id q) with
    | mk o t =>
      have hcomp' : seqCompute plan env id (s.unobserved.pop id q) = (o, t.unobserved) := by
        rw [show s.unobserved.pop id q = (s.pop id q).unobserved from rfl, seqCompute_unobserved, hcomp]
      have hfinish : (o >>= seqFinish plan id t.unobserved : Outcome (ExecError K E) _) =
          SeqState.unobserved <$> (o >>= seqFinish plan id t) := by
        cases o with
        | ok v => exact seqFinish_unobserved plan id t v
        | _ => rfl
      rw [seqBody_cons hq hcomp, seqBody_cons (s := s.unobserved) hq hcomp', hfinish]
      cases o >>= seqFinish plan id t <;> rfl

/-! ## Runs -/

theorem SeqReach.unobserved (h : SeqReach dag outs env observer plan s) :
    SeqReach dag outs env () plan s.unobserved := by
  obtain ⟨p, hp, hd, hv⟩ := h
  refine ⟨p.unobserved, ?_, hd, ?_⟩
  · rw [seqStart_unobserved dag outs observer, hp]
    rfl
  · exact hv.map (f := SeqState.unobserved) fun s => seqBody_unobserved plan env s

/-- **The observer changes nothing.** -/
theorem execute_unobserved (dag : Dag K O E ω) (outs : List K) (env : Nat → ω) (observer : R) :
    execute dag outs env () = ⟨(execute dag outs env observer).result, (), (execute dag outs env observer).calls⟩ := by
  have hstart := seqStart_unobserved dag outs observer
  cases hp : seqStart dag outs observer with
  | ok p =>
    obtain ⟨-, -, -, -, -, -, hne, hk⟩ := seqStart_start hp
    obtain ⟨plan, s, o, t, hreach, hdone, hex⟩ := execute_reach hne hk env observer
    have hdone' : seqBody plan env s.unobserved = .done (o, t.unobserved) := by
      rw [seqBody_unobserved, hdone]
      rfl
    rw [hex, hreach.unobserved.execute_eq hdone']
    rfl
  | _ =>
    rw [hp] at hstart
    simp only [execute, hp, hstart]
    rfl

omit [ExecObserver R] in
theorem seqCompute_observer (plan : Plan K O E ω) (env : Nat → ω) (id : NodeId) (s : SeqState O R) :
    (seqCompute plan env id s).2.observer = s.observer := by
  unfold seqCompute
  cases (index plan.dag.nodes id : Outcome (ExecError K E) _) with
  | ok nd =>
    simp only
    cases nd.kind with
    | source v => rfl
    | task f =>
      simp only
      cases (gatherArgs s.vals nd.deps : Outcome (ExecError K E) _) <;> rfl
  | _ => rfl

/-- The last iteration tells of the start of the node it fails at. -/
theorem seqBody_done_observer {o : Outcome (ExecError K E) Unit} {t : SeqState O R}
    (h : seqBody plan env s = .done (o, t)) : (s.q = [] ∧ t.observer = s.observer) ∨
      ∃ id q, s.q = id :: q ∧ t.observer = ExecObserver.markStart id none s.observer := by
  cases hq : s.q with
  | nil =>
    simp only [seqBody, hq] at h
    cases h
    exact .inl ⟨rfl, rfl⟩
  | cons id q =>
    refine .inr ⟨id, q, rfl, ?_⟩
    have hobs := seqCompute_observer plan env id (s.pop id q)
    cases hcomp : seqCompute plan env id (s.pop id q) with
    | mk o' t' =>
      rw [hcomp] at hobs
      rw [seqBody_cons hq hcomp] at h
      cases hfinish : o' >>= seqFinish plan id t' with
      | ok s' => rw [hfinish] at h; cases h
      | _ => rw [hfinish] at h; cases h; exact hobs

end

/-! ## What the log tells -/

section Log

def Hook.enqueued : Hook → Option NodeId
  | .ready id _ => some id
  | _ => none

def Hook.popped : Hook → Option NodeId
  | .start id _ => some id
  | _ => none

/-- The nodes pushed to the queue, in order: the observer is told right after each `push_back`. -/
def enqueued (log : List Hook) : List NodeId := log.filterMap Hook.enqueued

/-- The nodes taken from the queue, in order: the observer is told right after each `pop_front`. -/
def popped (log : List Hook) : List NodeId := log.filterMap Hook.popped

theorem enqueued_append (log log' : List Hook) : enqueued (log ++ log') = enqueued log ++ enqueued log' :=
  List.filterMap_append

theorem popped_append (log log' : List Hook) : popped (log ++ log') = popped log ++ popped log' := List.filterMap_append

theorem enqueued_readyHooks (n : Nat) (ids : List NodeId) : enqueued (readyHooks n ids) = ids := by
  induction ids generalizing n with
  | nil => rfl
  | cons id ids ih =>
    show id :: enqueued (readyHooks (n + 1) ids) = id :: ids
    rw [ih]

theorem popped_readyHooks (n : Nat) (ids : List NodeId) : popped (readyHooks n ids) = [] := by
  refine List.filterMap_eq_nil_iff.mpr fun h hh => ?_
  obtain ⟨id, width, rfl⟩ := ready_of_mem hh
  rfl

variable {dag : Dag K O E ω} {outs : List K} {env : Nat → ω} {plan : Plan K O E ω} {s s' : SeqState O (List Hook)}

/-- The log at the top of the loop. -/
structure Logged (s : SeqState O (List Hook)) : Prop where
  queue : enqueued s.observer = popped s.observer ++ s.q
  done_iff : ∀ i, isDone s.vals i = true ↔ i ∈ popped s.observer
  nodup : (popped s.observer).Nodup
  processed : s.processed = (popped s.observer).length

/-- A queued node has not been popped. -/
theorem Logged.not_popped (h : Logged s) (inv : SeqInv plan s) {id : NodeId} (hq : id ∈ s.q) :
    id ∉ popped s.observer := by
  intro hmem
  have hnd := inv.not_done hq
  rw [(h.done_iff id).mpr hmem] at hnd
  cases hnd

/-- The log of an iteration that runs again. -/
theorem Processes.log (inv : SeqInv plan s) (hg : plan.Good outs) {id : NodeId} {q : List NodeId} {v : O}
    {new : List (Invocation O)} {dsts rel : List NodeId} (h : Processes plan env s s' id q v new dsts)
    (hrel : s'.q = q ++ rel) : popped s'.observer = popped s.observer ++ [id] ∧
      enqueued s'.observer = enqueued s.observer ++ rel := by
  obtain ⟨rel', hrel', ho, -⟩ := h.released inv hg
  rw [hrel, List.append_cancel_left_eq] at hrel'
  subst hrel'
  have hlog : s'.observer = s.observer ++ (.start id none :: .finish id :: readyHooks q.length rel) := by
    rw [ho, replay_log]
    show s.observer ++ [Hook.start id none] ++ [Hook.finish id] ++ _ = _
    rw [List.append_assoc, List.append_assoc]
    rfl
  rw [hlog, popped_append, enqueued_append]
  constructor
  · show popped s.observer ++ id :: popped (readyHooks q.length rel) = _
    rw [popped_readyHooks]
  · show enqueued s.observer ++ enqueued (readyHooks q.length rel) = _
    rw [enqueued_readyHooks]

theorem Logged.processes (h : Logged s) (inv : SeqInv plan s) (hg : plan.Good outs) {id : NodeId} {q : List NodeId} {v : O}
    {new : List (Invocation O)} {dsts : List NodeId} (hp : Processes plan env s s' id q v new dsts) : Logged s' := by
  obtain ⟨rel, hq, -, -⟩ := hp.released inv hg
  obtain ⟨hpopped, henqueued⟩ := hp.log inv hg hq
  have hfresh : id ∉ popped s.observer := h.not_popped inv (hp.queue ▸ List.mem_cons_self)
  refine ⟨?_, fun i => ?_, ?_, ?_⟩
  · rw [henqueued, h.queue, hpopped, hp.queue, hq]
    simp only [List.append_assoc, List.cons_append, List.nil_append]
  · rw [hp.vals, isDone_set_iff hp.lt, hpopped, List.mem_append, List.mem_singleton, h.done_iff]
  · rw [hpopped]
    refine h.nodup.append (List.nodup_singleton id) fun i hi hid => hfresh ?_
    rwa [← List.mem_singleton.mp hid]
  · rw [hp.processed, h.processed, hpopped, List.length_append, List.length_singleton]

/-- **The log at the top of the loop tells what has been pushed, popped and processed.** -/
theorem SeqReach.logged (h : SeqReach dag outs env ([] : List Hook) plan s) : Logged s := by
  refine h.induct (P := Logged) (fun p hp hd => ?_) fun s s' hs hlog hb => ?_
  · subst hd
    obtain ⟨-, -, -, h0, hr, ho, -⟩ := seqStart_start hp
    have hobs : p.seqState.observer = readyHooks 0 p.plan.seeds := by
      rw [show p.seqState.observer = p.observer from rfl, ho, replay_log, List.nil_append]
    have hpopped : popped p.seqState.observer = [] := by rw [hobs, popped_readyHooks]
    refine ⟨?_, fun i => ?_, ?_, ?_⟩
    · rw [hpopped, hobs, enqueued_readyHooks, ← hr]
      rfl
    · rw [hpopped, show isDone p.seqState.vals i = false from not_done_of_doneCount_zero h0 i]
      simp
    · rw [hpopped]
      exact List.nodup_nil
    · rw [hpopped]
      rfl
  · obtain ⟨-, hg, inv⟩ := hs.inv
    obtain ⟨id, q, v, new, dsts, hp⟩ := seqBody_next hb
    exact hlog.processes inv hg hp

/-- No node is pushed twice. -/
theorem Logged.once (h : Logged s) (inv : SeqInv plan s) : (enqueued s.observer).Nodup := by
  rw [h.queue]
  have hq : s.q.Nodup := List.nodup_iff_count_le_one.mpr fun i => inv.books.ledger.open_le_one i
  exact h.nodup.append hq fun i hi hiq => h.not_popped inv hiq hi

/-- The log of a whole run: that of its last state, and the start of the node it failed at. A rejected run logs
nothing. -/
theorem execute_log (dag : Dag K O E ω) (outs : List K) (env : Nat → ω) :
    (execute dag outs env ([] : List Hook)).observer = [] ∨ ∃ plan s, SeqReach dag outs env ([] : List Hook) plan s ∧
      enqueued (execute dag outs env ([] : List Hook)).observer = enqueued s.observer ∧
      ∃ next, next <+: s.q ∧ next.length ≤ 1 ∧
        popped (execute dag outs env ([] : List Hook)).observer = popped s.observer ++ next := by
  cases hp : seqStart dag outs ([] : List Hook) with
  | ok p =>
    obtain ⟨-, -, -, -, -, -, hne, hk⟩ := seqStart_start hp
    obtain ⟨plan, s, o, t, hreach, hdone, hex⟩ := execute_reach hne hk env ([] : List Hook)
    refine .inr ⟨plan, s, hreach, ?_⟩
    rw [hex]
    rcases seqBody_done_observer hdone with ⟨hq, ho⟩ | ⟨id, q, hq, ho⟩
    · rw [ho]
      exact ⟨rfl, [], List.nil_prefix, Nat.zero_le 1, (List.append_nil _).symm⟩
    · rw [ho]
      refine ⟨?_, [id], hq ▸ ⟨q, rfl⟩, Nat.le_refl 1, popped_append s.observer [Hook.start id none]⟩
      exact (enqueued_append s.observer [Hook.start id none]).trans (List.append_nil _)
  | _ => exact .inl (by simp only [execute, hp])

end Log

end DagExec
