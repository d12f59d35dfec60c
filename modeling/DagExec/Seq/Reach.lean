import DagExec.Seq.Loop
import DagExec.Common.Hooks
import DagExec.Common.Report

/-!
# The states of a sequential run

`SeqReach dag outs env observer plan s`: `s` is a state at the top of the main loop of a run. What such a state's
iteration computes is read off the loop body (`seqBody_next`), and a run that is not rejected ends at such a state
(`execute_reach`).
-/

namespace DagExec

open Outcome WhileLoop

variable {K O E ω R : Type}

/-- The value of node `id` and the calls made for it. -/
inductive Computes (plan : Plan K O E ω) (env : Nat → ω) (s : SeqState O R) (id : NodeId) : O → List (Invocation O) → Prop
  | source {nd : Node K O E ω} {v : O} (hi : plan.dag.nodes[id]? = some nd) (hk : nd.kind = .source v) :
      Computes plan env s id v []
  | task {nd : Node K O E ω} {f : TaskFn O E ω} {args : List O} {v : O} (hi : plan.dag.nodes[id]? = some nd)
      (hk : nd.kind = .task f) (ha : gatherArgs s.vals nd.deps = (ok args : Outcome (ExecError K E) _))
      (hf : f (env (s.processed + 1)) args = .ok v) : Computes plan env s id v [⟨id, args⟩]

variable [ExecObserver R] {dag : Dag K O E ω} {outs : List K} {env : Nat → ω} {observer : R} {plan : Plan K O E ω}
  {s s' : SeqState O R}

/-- An iteration that processes the node at the front. -/
structure Processes (plan : Plan K O E ω) (env : Nat → ω) (s s' : SeqState O R) (id : NodeId) (q : List NodeId) (v : O)
    (new : List (Invocation O)) (dsts : List NodeId) : Prop where
  queue : s.q = id :: q
  computes : Computes plan env s id v new
  lt : id < s.vals.length
  vals : s'.vals = s.vals.set id (some v)
  dependents : plan.dependents[id]? = some dsts
  release : dsts.foldlM releaseBody (s.indeg, q, ExecObserver.markFinish id (ExecObserver.markStart id none s.observer)) =
    (ok (s'.indeg, s'.q, s'.observer) : Outcome (ExecError K E) _)
  processed : s'.processed = s.processed + 1
  calls : s'.calls = s.calls ++ new

omit [ExecObserver R] in
theorem seqCompute_ok {t : SeqState O R} {id : NodeId} {v : O}
    (h : (seqCompute plan env id t).1 = (ok v : Outcome (ExecError K E) O))
    (ht : t.vals = s.vals ∧ t.processed = s.processed + 1) :
    ∃ new, Computes plan env s id v new ∧ (seqCompute plan env id t).2 = { t with calls := t.calls ++ new } := by
  unfold seqCompute at h ⊢
  cases hi : (index plan.dag.nodes id : Outcome (ExecError K E) _) with
  | ok nd =>
    have hnd := index_eq_ok.mp hi
    simp only [hi] at h ⊢
    cases hk : nd.kind with
    | source w =>
      simp only [hk, ok.injEq] at h ⊢
      subst h
      exact ⟨[], .source hnd hk, by rw [List.append_nil]⟩
    | task f =>
      simp only [hk] at h ⊢
      cases ha : (gatherArgs t.vals nd.deps : Outcome (ExecError K E) _) with
      | ok args =>
        simp only [ha] at h ⊢
        rw [ht.1] at ha
        rw [ht.2] at h
        cases hf : f (env (s.processed + 1)) args with
        | ok w =>
          rw [hf] at h
          cases h
          exact ⟨[⟨id, args⟩], .task hnd hk ha hf, rfl⟩
        | _ => rw [hf] at h; cases h
      | _ => simp only [ha] at h; cases h
  | _ => simp only [hi] at h; cases h

/-- **What an iteration that runs again has computed.** -/
theorem seqBody_next (h : seqBody plan env s = .next s') : ∃ id q v new dsts, Processes plan env s s' id q v new dsts := by
  unfold seqBody at h
  cases hq : s.q with
  | nil => simp only [hq] at h; cases h
  | cons id q =>
    simp only [hq] at h
    split at h
    · rename_i t heq
      cases h
      obtain ⟨v, hcomp, hfinish⟩ := bind_eq_ok.mp heq
      obtain ⟨new, hnew, hstate⟩ := seqCompute_ok (s := s) hcomp ⟨rfl, rfl⟩
      rw [hstate] at hfinish
      obtain ⟨vals, hvals, hfinish⟩ := bind_eq_ok.mp hfinish
      obtain ⟨dsts, hdsts, hfinish⟩ := bind_eq_ok.mp hfinish
      obtain ⟨rel, hrel, hfinish⟩ := bind_eq_ok.mp hfinish
      obtain ⟨hlt, rfl⟩ := store_eq_ok.mp hvals
      cases hfinish
      exact ⟨id, q, v, new, dsts, hq, hnew, hlt, rfl, index_eq_ok.mp hdsts, hrel, rfl, rfl⟩
    all_goals cases h

omit [ExecObserver R] in
/-- The value and the calls are determined. -/
theorem Computes.unique {id : NodeId} {v v' : O} {new new' : List (Invocation O)} (h : Computes plan env s id v new)
    (h' : Computes plan env s id v' new') : v = v' ∧ new = new' := by
  cases h with
  | source hi hk =>
    cases h' with
    | source hi' hk' =>
      rw [hi] at hi'
      cases hi'
      rw [hk] at hk'
      cases hk'
      exact ⟨rfl, rfl⟩
    | task hi' hk' =>
      rw [hi] at hi'
      cases hi'
      rw [hk] at hk'
      cases hk'
  | task hi hk ha hf =>
    cases h' with
    | source hi' hk' =>
      rw [hi] at hi'
      cases hi'
      rw [hk] at hk'
      cases hk'
    | task hi' hk' ha' hf' =>
      rw [hi] at hi'
      cases hi'
      rw [hk] at hk'
      cases hk'
      rw [ha] at ha'
      cases ha'
      rw [hf] at hf'
      cases hf'
      exact ⟨rfl, rfl⟩

omit [ExecObserver R] in
/-- The value is one of the node's. -/
theorem Computes.evaluates (inv : SeqInv plan s) {id : NodeId} {v : O} {new : List (Invocation O)}
    (h : Computes plan env s id v new) (hq : id ∈ s.q) : Evaluates plan.dag id v := by
  cases h with
  | source hi hk => exact .source hi hk
  | @task nd f args _ hi hk ha hf =>
    obtain ⟨args', ha', href⟩ := inv.books.gather hi (List.count_pos_iff.mpr hq)
    rw [ha'] at ha
    cases ha
    exact .of_refArgs ⟨nd, hi, hk⟩ href hf

/-- What an iteration releases. -/
theorem Processes.released (inv : SeqInv plan s) (hg : plan.Good outs) {id : NodeId} {q : List NodeId} {v : O}
    {new : List (Invocation O)} {dsts : List NodeId} (h : Processes plan env s s' id q v new dsts) :
    ∃ rel, s'.q = q ++ rel ∧ s'.observer = replay (readyHooks q.length rel)
        (ExecObserver.markFinish id (ExecObserver.markStart id none s.observer)) ∧
      ∀ opn' : NodeId → Nat, (∀ i, opn' i + (if i = id then 1 else 0) = s.q.count i + rel.count i) →
        Books plan (s.vals.set id (some v)) s'.indeg opn' := by
  have hmem : id ∈ s.q := by rw [h.queue]; exact List.mem_cons_self
  obtain ⟨dsts', indeg', rel, observer', -, hdsts, hfold, -, -, -, hbooks⟩ := inv.books.finish (ε := ExecError K E) hg
    (List.count_pos_iff.mpr hmem) (h.computes.evaluates inv hmem) q
    (ExecObserver.markFinish id (ExecObserver.markStart id none s.observer))
  rw [h.dependents, Option.some.injEq] at hdsts
  have hrel := h.release
  rw [hdsts, hfold] at hrel
  simp only [ok.injEq, Prod.mk.injEq] at hrel
  obtain ⟨hi, hq, ho⟩ := hrel
  obtain ⟨rel', hq', ho'⟩ := release_hooks hfold
  rw [← List.append_cancel_left hq'] at ho'
  exact ⟨rel, hq.symm, ho ▸ ho', hi ▸ hbooks⟩

/-- Which nodes an iteration opens, and in which order: by insertion, those whose last unprocessed dependency was the
processed node. -/
theorem Processes.opened (inv : SeqInv plan s) (hg : plan.Good outs) {id : NodeId} {q : List NodeId} {v : O}
    {new : List (Invocation O)} {dsts : List NodeId} (h : Processes plan env s s' id q v new dsts) :
    ∃ rel, s'.q = q ++ rel ∧ rel.Pairwise (· < ·) ∧ ∀ i, i ∈ rel ↔ plan.dag.Needed outs i ∧ id ∈ plan.dag.depsOf i ∧
      ∀ d ∈ plan.dag.depsOf i, d = id ∨ isDone s.vals d = true := by
  have hopen : 0 < s.q.count id := List.count_pos_iff.mpr (by rw [h.queue]; exact List.mem_cons_self)
  obtain ⟨rel, hq, -, hbooks⟩ := h.released inv hg
  obtain ⟨rel', hq', hsub⟩ := release_sublist h.release
  have hrel : rel' = rel := List.append_cancel_left (hq'.symm.trans hq)
  subst hrel
  have hopn : ∀ i, (q ++ rel').count i + (if i = id then 1 else 0) = s.q.count i + rel'.count i := by
    intro i
    rw [h.queue, List.count_append, ListFacts.count_cons_eq]
    omega
  have hb := hbooks _ hopn
  have hledger := hb.ledger
  rw [isDone_set h.lt] at hledger
  refine ⟨rel', hq, ?_, fun i => ?_⟩
  · -- in order as they are among the dependents, and none is opened twice
    have hnodup : rel'.Nodup := by
      refine List.nodup_iff_count_le_one.mpr fun i => ?_
      have := hb.ledger.open_le_one i
      rw [List.count_append] at this
      omega
    have hdsts := hg.dependents id (inv.books.needed_of_open hg hopen).lt
    rw [h.dependents, Option.some.injEq] at hdsts
    subst hdsts
    exact ((dependentsBelow_sorted id _).sublist hsub).imp₂ (fun _ _ hle hne => Nat.lt_of_le_of_ne hle hne) hnodup
  · rw [← List.count_pos_iff, inv.books.ledger.opened_iff hledger hopen hopn i, hg.needed]

/-! ## What the state's iteration does -/

/-- The node at the front with a value: the iteration processes it. -/
theorem SeqInv.processes (inv : SeqInv plan s) (hg : plan.Good outs) {id : NodeId} {q : List NodeId} (hq : s.q = id :: q)
    {v : O} {new : List (Invocation O)} (hc : Computes plan env s id v new) :
    ∃ s' dsts, seqBody plan env s = .next s' ∧ Processes plan env s s' id q v new dsts := by
  have hmem : id ∈ s.q := by rw [hq]; exact List.mem_cons_self
  have hbody : ∃ s', seqBody plan env s = .next s' := by
    have hv := hc.evaluates inv hmem
    let popped : SeqState O R :=
      { s with q := q, processed := s.processed + 1, observer := ExecObserver.markStart id none s.observer }
    have hcomp : seqCompute plan env id popped = (ok v, { popped with calls := s.calls ++ new }) := by
      cases hc with
      | source hi hk => simp only [seqCompute, index_of_get hi, hk, popped, List.append_nil]
      | task hi hk ha hf => simp only [seqCompute, index_of_get hi, hk, ha, hf, popped, Call.toOutcome]
    have hkind : (plan.dag.IsSource id ∧ s.calls ++ new = s.calls) ∨ ∃ f args, plan.dag.IsTask id f ∧
        RefArgs plan.dag id args ∧ s.calls ++ new = s.calls ++ [⟨id, args⟩] := by
      cases hc with
      | source hi hk => exact .inl ⟨⟨_, _, hi, hk⟩, List.append_nil _⟩
      | task hi hk ha hf =>
        obtain ⟨args', ha', href⟩ := inv.books.gather hi (List.count_pos_iff.mpr hmem)
        rw [ha'] at ha
        cases ha
        exact .inr ⟨_, _, ⟨_, hi, hk⟩, href, rfl⟩
    obtain ⟨s', hs', -⟩ := inv.finish (E := E) (t := { popped with calls := s.calls ++ new }) hg hq hv
      ⟨rfl, rfl, rfl, rfl⟩ hkind
    refine ⟨s', ?_⟩
    simp only [seqBody, hq]
    rw [show seqCompute plan env id _ = _ from hcomp]
    simp only [ok_bind, hs']
  obtain ⟨s', hs'⟩ := hbody
  obtain ⟨id', q', v', new', dsts, hp⟩ := seqBody_next hs'
  have hcons := hp.queue
  rw [hq, List.cons.injEq] at hcons
  obtain ⟨rfl, rfl⟩ := hcons
  obtain ⟨rfl, rfl⟩ := hc.unique hp.computes
  exact ⟨s', dsts, hs', hp⟩

/-- What an iteration leaves the loop with, and the calls made by then. -/
inductive Leaves (plan : Plan K O E ω) (env : Nat → ω) (s : SeqState O R) :
    Outcome (ExecError K E) Unit → List (Invocation O) → Prop
  | drained (hq : s.q = []) : Leaves plan env s (ok ()) s.calls
  | failed {id : NodeId} {q : List NodeId} {nd : Node K O E ω} {f : TaskFn O E ω} {args : List O} {e : E}
      (hq : s.q = id :: q) (hi : plan.dag.nodes[id]? = some nd) (hk : nd.kind = .task f)
      (ha : gatherArgs s.vals nd.deps = (ok args : Outcome (ExecError K E) _))
      (hf : f (env (s.processed + 1)) args = .err e) :
      Leaves plan env s (err (.taskFailed nd.key e)) (s.calls ++ [⟨id, args⟩])
  | panicked {id : NodeId} {q : List NodeId} {nd : Node K O E ω} {f : TaskFn O E ω} {args : List O}
      (hq : s.q = id :: q) (hi : plan.dag.nodes[id]? = some nd) (hk : nd.kind = .task f)
      (ha : gatherArgs s.vals nd.deps = (ok args : Outcome (ExecError K E) _))
      (hf : f (env (s.processed + 1)) args = .panic) :
      Leaves plan env s (panic .taskPanicked) (s.calls ++ [⟨id, args⟩])

theorem Leaves.body {o : Outcome (ExecError K E) Unit} {calls : List (Invocation O)} (h : Leaves plan env s o calls) :
    ∃ s', seqBody plan env s = .done (o, s') ∧ s'.calls = calls ∧ (s.q = [] → s' = s) := by
  cases h with
  | drained hq => exact ⟨s, by simp only [seqBody, hq], rfl, fun _ => rfl⟩
  | failed hq hi hk ha hf =>
    simp only [seqBody, hq, seqCompute, index_of_get hi, hk, ha, hf, Call.toOutcome, err_bind]
    exact ⟨_, rfl, rfl, fun hnil => absurd hnil (List.cons_ne_nil _ _)⟩
  | panicked hq hi hk ha hf =>
    simp only [seqBody, hq, seqCompute, index_of_get hi, hk, ha, hf, Call.toOutcome, panic_bind]
    exact ⟨_, rfl, rfl, fun hnil => absurd hnil (List.cons_ne_nil _ _)⟩

/-- **What an iteration that does not run again has done.** -/
theorem SeqInv.leaves (inv : SeqInv plan s) (hg : plan.Good outs) {r : Outcome (ExecError K E) Unit × SeqState O R}
    (hb : seqBody plan env s = .done r) : Leaves plan env s r.1 r.2.calls := by
  have hsame : ∀ {o calls}, Leaves plan env s o calls → Leaves plan env s r.1 r.2.calls := by
    intro o calls h
    obtain ⟨s', hb', hcalls, -⟩ := h.body
    rw [hb] at hb'
    cases hb'
    rw [← hcalls] at h
    exact h
  cases hq : s.q with
  | nil => exact hsame (.drained hq)
  | cons id q =>
    have hopen : 0 < s.q.count id := List.count_pos_iff.mpr (by rw [hq]; exact List.mem_cons_self)
    have hnext : ∀ {v new}, ¬ Computes plan env s id v new := by
      intro v new hc
      obtain ⟨s', dsts, hnext, -⟩ := inv.processes hg hq hc
      rw [hb] at hnext
      cases hnext
    obtain ⟨nd, hi⟩ : ∃ nd, plan.dag.nodes[id]? = some nd :=
      ⟨_, List.getElem?_eq_getElem (inv.books.needed_of_open hg hopen).lt⟩
    cases hk : nd.kind with
    | source v => exact absurd (Computes.source hi hk) hnext
    | task f =>
      obtain ⟨args, ha, -⟩ := inv.books.gather hi hopen
      cases hf : f (env (s.processed + 1)) args with
      | ok v => exact absurd (Computes.task hi hk ha hf) hnext
      | err e => exact hsame (.failed hq hi hk ha hf)
      | panic => exact hsame (.panicked hq hi hk ha hf)

/-! ## Runs -/

/-- `s` is a state at the top of the main loop of `execute`. -/
def SeqReach (dag : Dag K O E ω) (outs : List K) (env : Nat → ω) (observer : R) (plan : Plan K O E ω) (s : SeqState O R) :
    Prop := ∃ p, seqStart dag outs observer = ok p ∧ p.plan = plan ∧ Visits (seqBody plan env) p.seqState s

/-- What a run that is not rejected starts from. -/
theorem seqStart_start {p : Prepared K O E ω R} (h : seqStart dag outs observer = ok p) : p.plan.dag = dag ∧
    p.plan.Good outs ∧ SeqInv p.plan p.seqState ∧ doneCount p.vals = 0 ∧ p.ready = p.plan.seeds ∧
      p.observer = replay (readyHooks 0 p.plan.seeds) observer ∧ outs ≠ [] ∧ dag.KeysExist outs := by
  unfold seqStart at h
  split at h
  · cases h
  rename_i hne
  have hkeys : dag.KeysExist outs := by
    by_contra hk
    obtain ⟨k, -, -, herr⟩ := prepare_missing hk observer
    rw [herr] at h
    cases h
  obtain ⟨p', hp, hd, hg, hb, h0, hr⟩ := prepare_ok hkeys observer
  rw [hp] at h
  cases h
  exact ⟨hd, hg, Prepared.seqInv hb h0, h0, hr, hr ▸ prepare_hooks hp, by simpa using hne, hkeys⟩

/-- A request for existing keys is not rejected. -/
theorem seqStart_ok (hne : outs ≠ []) (hk : dag.KeysExist outs) (observer : R) :
    ∃ p, seqStart dag outs observer = ok p := by
  obtain ⟨p, hp, -⟩ := prepare_ok hk observer
  exact ⟨p, (seqStart_eq hne dag observer).trans hp⟩

theorem SeqReach.inv (h : SeqReach dag outs env observer plan s) :
    plan.dag = dag ∧ plan.Good outs ∧ SeqInv plan s := by
  obtain ⟨p, hp, rfl, hv⟩ := h
  obtain ⟨hd, hg, inv, -⟩ := seqStart_start hp
  exact ⟨hd, hg, hv.invariant inv fun t t' _ ht hb => (ht.next hg hb).1⟩

theorem SeqReach.next (h : SeqReach dag outs env observer plan s) (hb : seqBody plan env s = .next s') :
    SeqReach dag outs env observer plan s' := by
  obtain ⟨p, hp, hd, hv⟩ := h
  exact ⟨p, hp, hd, hv.next hb⟩

/-- **The induction rule for sequential runs.** -/
theorem SeqReach.induct {P : SeqState O R → Prop} (h : SeqReach dag outs env observer plan s)
    (h0 : ∀ p, seqStart dag outs observer = ok p → p.plan = plan → P p.seqState)
    (hnext : ∀ s s', SeqReach dag outs env observer plan s → P s → seqBody plan env s = .next s' → P s') : P s := by
  obtain ⟨p, hp, hd, hv⟩ := h
  exact hv.invariant (h0 p hp hd) fun t t' ht hP hb => hnext t t' ⟨p, hp, hd, ht⟩ hP hb

/-- What the run returns when its loop ends at the state. -/
theorem SeqReach.execute_eq {o : Outcome (ExecError K E) Unit} (h : SeqReach dag outs env observer plan s)
    (hb : seqBody plan env s = .done (o, s')) :
    execute dag outs env observer = ⟨o >>= fun _ => seqVerdict plan s', s'.observer, s'.calls⟩ := by
  obtain ⟨p, hp, rfl, hv⟩ := h
  have hloop : loop (seqBody p.plan env) p.seqState = some (o, s') := hv.loop_eq.trans (loop_done hb)
  simp only [execute, hp, hloop]

/-- What `run_sequential` returns when its queue is empty: `Ok` with the entries of the requested nodes if every needed
node is processed, and otherwise a cycle. -/
theorem SeqReach.drained [DecidableEq K] {s : SeqState O Unit} (h : SeqReach dag outs env () plan s) (hq : s.q = []) :
    (runSequential dag outs env).2 = s.calls ∧
    (((∀ i, dag.Needed outs i → isDone s.vals i = true) ∧ ∃ m, (runSequential dag outs env).1 = ok m ∧
        ∀ k v, m.get k = some v ↔ k ∈ outs ∧ ∃ i, dag.index.get k = some i ∧ valAt s.vals i = some v) ∨
      ((¬ ∀ i, dag.Needed outs i → isDone s.vals i = true) ∧
        ∃ rem, (runSequential dag outs env).1 = err (.cycle rem))) := by
  obtain ⟨hdag, hg, inv⟩ := h.inv
  obtain ⟨p, hp, -⟩ := id h
  obtain ⟨-, -, -, -, -, -, -, hkeys⟩ := seqStart_start hp
  have hleaves : Leaves plan env s (ok ()) s.calls := .drained hq
  obtain ⟨s', hbody, -, hsame⟩ := hleaves.body
  obtain rfl := hsame hq
  rw [runSequential, h.execute_eq hbody]
  refine ⟨rfl, ?_⟩
  subst hdag
  rcases inv.verdict (E := E) hg with ⟨hdone, hverdict⟩ | ⟨⟨i, hi, hnd⟩, hverdict⟩
  · obtain ⟨m, hm, hget⟩ := collect_of_done hkeys hdone
    refine .inl ⟨hdone, m, ?_, hget⟩
    simp only [ok_bind, hverdict, hm]
  · refine .inr ⟨fun hdone => ?_, plan.report s'.indeg, ?_⟩
    · rw [hdone i hi] at hnd
      cases hnd
    · simp only [ok_bind, hverdict, err_bind]

/-- A run that is not rejected ends at a state it comes to. -/
theorem execute_reach (hne : outs ≠ []) (hk : dag.KeysExist outs) (env : Nat → ω) (observer : R) :
    ∃ plan s o t, SeqReach dag outs env observer plan s ∧ seqBody plan env s = .done (o, t) ∧
      execute dag outs env observer = ⟨o >>= fun _ => seqVerdict plan t, t.observer, t.calls⟩ := by
  obtain ⟨p, hstart⟩ := seqStart_ok hne hk observer
  obtain ⟨-, hg, inv, -⟩ := seqStart_start hstart
  have hlast : ∃ s a, Visits (seqBody p.plan env) p.seqState s ∧ seqBody p.plan env s = .done a ∧
      loop (seqBody p.plan env) p.seqState = some a := by
    exact exists_last wellFounded_lt (I := SeqInv p.plan) (fun s => p.plan.neededCount - s.processed) inv
      fun s s' hs hnext => hs.next hg hnext
  obtain ⟨s, ⟨o, t⟩, hv, hdone, -⟩ := hlast
  have hreach : SeqReach dag outs env observer p.plan s := ⟨p, hstart, rfl, hv⟩
  exact ⟨p.plan, s, o, t, hreach, hdone, hreach.execute_eq hdone⟩

/-- A run is rejected for its request, or it starts. -/
theorem execute_start_cases (dag : Dag K O E ω) (outs : List K) (env : Nat → ω) (observer : R) :
    (∃ msg, (execute dag outs env observer).result = err (.internalInvariant msg)) ∨
    (∃ k, (execute dag outs env observer).result = err (.outputMissing k)) ∨ outs ≠ [] ∧ dag.KeysExist outs := by
  by_cases hne : outs = []
  · subst hne
    exact .inl ⟨_, rfl⟩
  by_cases hk : dag.KeysExist outs
  · exact .inr (.inr ⟨hne, hk⟩)
  · obtain ⟨k, -, -, herr⟩ := prepare_missing hk observer
    refine .inr (.inl ⟨k, ?_⟩)
    simp only [execute, seqStart_eq hne, herr]

/-- A run that returns is not rejected. -/
theorem execute_started {artifacts : List (Option O) × List Bool}
    (h : (execute dag outs env observer).result = ok artifacts) : outs ≠ [] ∧ dag.KeysExist outs := by
  rcases execute_start_cases dag outs env observer with ⟨msg, herr⟩ | ⟨k, herr⟩ | hstart
  · rw [h] at herr
    cases herr
  · rw [h] at herr
    cases herr
  · exact hstart

/-- A run that returns has processed every needed node, and its observer and its calls are those of its last state. -/
theorem execute_ok {artifacts : List (Option O) × List Bool} (h : (execute dag outs env observer).result = ok artifacts) :
    ∃ plan s, SeqReach dag outs env observer plan s ∧ artifacts = (s.vals, plan.needed) ∧
      (execute dag outs env observer).observer = s.observer ∧ (execute dag outs env observer).calls = s.calls ∧
      ∀ i, dag.Needed outs i → isDone s.vals i = true := by
  obtain ⟨hne, hk⟩ := execute_started h
  obtain ⟨plan, s, o, t, hreach, hdone, hex⟩ := execute_reach hne hk env observer
  obtain ⟨rfl, hg, inv⟩ := hreach.inv
  rw [hex] at h ⊢
  have hstep := seqBody_step hg env inv
  rw [hdone] at hstep
  cases hstep with
  | drained hq =>
    rcases inv.verdict (E := E) hg with ⟨hdone, hverdict⟩ | ⟨-, hverdict⟩
    · rw [ok_bind, hverdict] at h
      cases h
      exact ⟨plan, s, hreach, rfl, rfl, rfl, hdone⟩
    · rw [ok_bind, hverdict] at h
      cases h
  | failed => cases h
  | panicked => cases h

end DagExec
