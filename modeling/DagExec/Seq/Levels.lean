import DagExec.Seq.Observed
import DagExec.Lib.Levels

/-!
# The sequential executor runs level by level

A node is pushed when its last dependency has been processed. That dependency is as deep as any of its others, since
nodes have been processed by depth so far; so what is pushed is one level below the front, and the queue stays in order
(`SeqReach.leveled`). A run that fails therefore fails at a task as near to the roots as any that would fail.
-/

namespace DagExec

open Outcome DepGraph

variable {K O E ω R : Type} {dag : Dag K O E ω} {outs : List K} {env : Nat → ω} {plan : Plan K O E ω}

/-- The nodes that have been started, and those that wait, by depth; in insertion order those of depth zero. -/
structure Leveled (plan : Plan K O E ω) (s : SeqState O (List Hook)) : Prop where
  order : LevelOrder (depth plan.dag.depsOf) (· < ·) (popped s.observer) s.q
  defined : ∀ i ∈ popped s.observer ++ s.q, ∃ n, Depth plan.dag.depsOf i n

section

variable {s s' : SeqState O (List Hook)}

/-- What an iteration pushes is one level deeper than what it has popped. -/
theorem Leveled.pushed (h : Leveled plan s) (hlog : Logged s) {id : NodeId} {q : List NodeId} (hq : s.q = id :: q)
    {i : NodeId} (hmem : id ∈ plan.dag.depsOf i)
    (hdeps : ∀ d ∈ plan.dag.depsOf i, d = id ∨ isDone s.vals d = true) :
    Depth plan.dag.depsOf i (depth plan.dag.depsOf id + 1) := by
  have hid : id ∈ s.q := hq ▸ List.mem_cons_self
  have hdepth := depth_spec (h.defined id (List.mem_append_right _ hid))
  refine .of_deepest hmem hdepth fun d hd => ?_
  rcases hdeps d hd with rfl | hdone
  · exact ⟨_, Nat.le_refl _, hdepth⟩
  · have hpopped := (hlog.done_iff d).mp hdone
    exact ⟨_, h.order.past_le hpopped hid, depth_spec (h.defined d (List.mem_append_left _ hpopped))⟩

theorem Leveled.processes (h : Leveled plan s) (hlog : Logged s) (inv : SeqInv plan s) (hg : plan.Good outs) {id : NodeId}
    {q : List NodeId} {v : O} {new : List (Invocation O)} {dsts : List NodeId}
    (hp : Processes plan env s s' id q v new dsts) : Leveled plan s' := by
  obtain ⟨rel, hq, -, hrel⟩ := hp.opened inv hg
  have hpopped := (hp.log inv hg hq).1
  have hdepth : ∀ i ∈ rel, Depth plan.dag.depsOf i (depth plan.dag.depsOf id + 1) := by
    intro i hi
    obtain ⟨-, hmem, hdeps⟩ := (hrel i).mp hi
    exact h.pushed hlog hp.queue hmem hdeps
  have horder := h.order
  have hall := h.defined
  rw [hp.queue] at horder hall
  refine ⟨?_, fun i hi => ?_⟩
  · rw [hpopped, hq]
    exact horder.step fun i hi => (hdepth i hi).depth_eq
  · rw [hpopped, hq, List.append_assoc, List.singleton_append, ← List.cons_append, ← List.append_assoc] at hi
    rcases List.mem_append.mp hi with hi | hi
    · exact hall i hi
    · exact ⟨_, hdepth i hi⟩

/-- **At the top of the loop, what has been started and what waits is in order of depth.** -/
theorem SeqReach.leveled (h : SeqReach dag outs env ([] : List Hook) plan s) : Leveled plan s := by
  refine h.induct (P := Leveled plan) (fun p hp hd => ?_) fun s s' hs hlev hb => ?_
  · subst hd
    have hstart : SeqReach dag outs env ([] : List Hook) p.plan p.seqState := ⟨p, hp, rfl, .start⟩
    obtain ⟨-, hg, -, -, hr, -⟩ := seqStart_start hp
    have hseeds : p.seqState.q = p.plan.seeds := hr
    have hnil : popped p.seqState.observer = [] := List.eq_nil_iff_length_eq_zero.mpr hstart.logged.processed.symm
    have hroot : ∀ i ∈ p.plan.seeds, Depth p.plan.dag.depsOf i 0 := fun i hi => .root ((mem_seeds hg).mp hi).2
    refine ⟨?_, fun i hi => ?_⟩
    · rw [hnil, hseeds]
      exact .start (fun i hi => (hroot i hi).depth_eq) (seeds_sorted p.plan)
    · rw [hnil, hseeds] at hi
      exact ⟨0, hroot i hi⟩
  · obtain ⟨-, hg, inv⟩ := hs.inv
    obtain ⟨id, q, v, new, dsts, hp⟩ := seqBody_next hb
    exact hlev.processes hs.logged inv hg hp

/-- An unprocessed node with a depth has a node in the queue that is at most as deep. -/
theorem SeqInv.exists_queued (inv : SeqInv plan s) (hg : plan.Good outs) {i : NodeId} {n : ℕ}
    (h : Depth plan.dag.depsOf i n) (hn : plan.dag.Needed outs i) (hd : isDone s.vals i = false) :
    ∃ j ∈ s.q, ∃ m ≤ n, Depth plan.dag.depsOf j m := by
  induction n using Nat.strongRecOn generalizing i with
  | _ n ih =>
    rcases inv.books.ledger.open_or_blocked ((hg.needed i).mpr hn) hd with hopen | ⟨d, hdep, hdd⟩
    · exact ⟨i, List.count_pos_iff.mp hopen, n, Nat.le_refl n, h⟩
    · obtain ⟨m, hm, hdm⟩ := h.dep hdep
      obtain ⟨j, hj, k, hk, hjk⟩ := ih m hm hdm (hn.dep hdep) hdd
      exact ⟨j, hj, k, by omega, hjk⟩

end

/-! ## The task a failing run names -/

/-- Only nodes of the graph have dependencies. -/
theorem Dag.deps_finite (dag : Dag K O E ω) : { i | dag.depsOf i ≠ [] }.Finite := by
  refine (Set.finite_lt_nat dag.nodes.length).subset fun i hi => ?_
  by_contra hlt
  refine hi ?_
  rw [Dag.depsOf, List.getElem?_eq_none (Nat.le_of_not_lt hlt)]
  rfl

theorem Evaluable.not_reachesCycle {i : NodeId} (h : Evaluable dag i) : ¬ ReachesCycle dag.depsOf i := by
  rintro ⟨j, hj, hc⟩
  have hdep : DependsOn dag.depsOf i j := by
    rcases Relation.reflTransGen_iff_eq_or_transGen.mp hj with rfl | hdep
    · exact hc
    · exact hdep
  exact (h j hdep).1 hc

/-- A run that returns `TaskFailed` has failed at the node at the front of its queue. -/
theorem execute_failed [ExecObserver R] {observer : R} {k : K} {e : E}
    (h : (execute dag outs env observer).result = err (.taskFailed k e)) :
    ∃ plan s id q nd, SeqReach dag outs env observer plan s ∧ s.q = id :: q ∧ dag.nodes[id]? = some nd ∧ nd.key = k ∧
      FailsWith dag id e := by
  have hstart : outs ≠ [] ∧ dag.KeysExist outs := by
    rcases execute_start_cases dag outs env observer with ⟨msg, herr⟩ | ⟨k', herr⟩ | hstart
    · rw [h] at herr
      cases herr
    · rw [h] at herr
      cases herr
    · exact hstart
  obtain ⟨plan, s, o, t, hreach, hdone, hex⟩ := execute_reach hstart.1 hstart.2 env observer
  obtain ⟨rfl, hg, inv⟩ := hreach.inv
  have hleaves := inv.leaves hg hdone
  rw [hex] at h
  obtain ⟨s', hdone', -, hsame⟩ := hleaves.body
  rw [hdone] at hdone'
  cases hdone'
  generalize t.calls = calls at hleaves
  cases hleaves with
  | drained hq =>
    obtain rfl := hsame hq
    rcases inv.verdict (E := E) hg with ⟨-, hverdict⟩ | ⟨-, hverdict⟩ <;> rw [ok_bind, hverdict] at h <;> cases h
  | @failed id q nd f args e' hq hi hk ha hf =>
    cases h
    have hopen : 0 < s.q.count id := List.count_pos_iff.mpr (hq ▸ List.mem_cons_self)
    obtain ⟨args', ha', href⟩ := inv.books.gather hi hopen
    rw [ha'] at ha
    cases ha
    exact ⟨plan, s, id, q, nd, hreach, hq, hi, rfl, evaluable_iff.mpr ⟨_, href⟩, f, _, _, ⟨nd, hi, hk⟩, href, hf⟩
  | panicked => cases h

/-- When the loop fails, it fails at a task no deeper than any needed task that fails. -/
theorem SeqReach.shallowest {s : SeqState O (List Hook)} (h : SeqReach dag outs env ([] : List Hook) plan s)
    (hdet : dag.Deterministic) {id : NodeId} {q : List NodeId} (hq : s.q = id :: q) {j : NodeId} {e : E}
    (hj : dag.Needed outs j) (hf : FailsWith dag j e) :
    ∃ m, Depth dag.depsOf j m ∧ depth dag.depsOf id ≤ m := by
  have hlev := h.leveled
  obtain ⟨rfl, hg, inv⟩ := h.inv
  obtain ⟨m, hm⟩ := (exists_depth_iff plan.dag.deps_finite).mpr hf.1.not_reachesCycle
  have hnd : isDone s.vals j = false := by
    by_contra hd
    obtain ⟨v, hv⟩ := isDone_iff.mp (by simpa using hd)
    exact hf.not_evaluates hdet ⟨v, inv.books.value j v hv⟩
  obtain ⟨i, hi, n, hn, hin⟩ := inv.exists_queued hg hm hj hnd
  refine ⟨m, hm, Nat.le_trans ?_ hn⟩
  have horder := hlev.order
  rw [hq] at horder hi
  rcases List.mem_cons.mp hi with rfl | hi
  · exact Nat.le_of_eq hin.depth_eq
  · have hle := horder.front_le hi
    rwa [hin.depth_eq] at hle

/-- The nodes that `run_sequential` starts, in order: those its loop pops. -/
def startOrder (dag : Dag K O E ω) (outs : List K) (env : Nat → ω) : List NodeId :=
  popped (execute dag outs env ([] : List Hook)).observer

/-- What is started is part of what has been popped by the last state, and waits there. -/
theorem startOrder_sublist (dag : Dag K O E ω) (outs : List K) (env : Nat → ω) : startOrder dag outs env = [] ∨
    ∃ plan s, SeqReach dag outs env ([] : List Hook) plan s ∧
      (startOrder dag outs env).Sublist (popped s.observer ++ s.q) := by
  rcases execute_log dag outs env with hnil | ⟨plan, s, hreach, -, next, hnext, -, hpopped⟩
  · refine .inl ?_
    rw [startOrder, hnil]
    rfl
  · refine .inr ⟨plan, s, hreach, ?_⟩
    rw [startOrder, hpopped]
    exact hnext.sublist.append_left _

/-- **The sequential executor runs level by level and reports a shallowest failure.** The depth of a node is defined
exactly when it reaches no cycle. The observer changes nothing, so the order in which nodes are started is that of the
log. Every node that is started has a depth; they are started by non-decreasing depth, and those of depth zero in
insertion order. With deterministic task functions, a task named by `TaskFailed` is a needed failing task that is no
deeper than any other. -/
theorem level_by_level [DecidableEq K] (dag : Dag K O E ω) (outs : List K) (env : Nat → ω) :
    (∀ i, (∃ n, Depth dag.depsOf i n) ↔ ¬ ReachesCycle dag.depsOf i) ∧
    execute dag outs env () =
      ⟨(execute dag outs env ([] : List Hook)).result, (), (execute dag outs env ([] : List Hook)).calls⟩ ∧
    (∀ i ∈ startOrder dag outs env, Depth dag.depsOf i (depth dag.depsOf i)) ∧
    ((startOrder dag outs env).Pairwise fun i j =>
      depth dag.depsOf i ≤ depth dag.depsOf j ∧ (depth dag.depsOf j = 0 → i < j)) ∧
    (dag.Deterministic → ∀ k e, (runSequential dag outs env).1 = err (.taskFailed k e) →
      ∃ i nd n, dag.nodes[i]? = some nd ∧ nd.key = k ∧ dag.Needed outs i ∧ FailsWith dag i e ∧ Depth dag.depsOf i n ∧
        ∀ j e', dag.Needed outs j → FailsWith dag j e' → ∃ m, Depth dag.depsOf j m ∧ n ≤ m) := by
  refine ⟨fun i => exists_depth_iff dag.deps_finite, execute_unobserved dag outs env ([] : List Hook), ?_, ?_, ?_⟩
  · intro i hi
    rcases startOrder_sublist dag outs env with hnil | ⟨plan, s, hreach, hsub⟩
    · rw [hnil] at hi
      cases hi
    · have hlev := hreach.leveled
      obtain ⟨rfl, -⟩ := hreach.inv
      exact depth_spec (hlev.defined i (hsub.subset hi))
  · rcases startOrder_sublist dag outs env with hnil | ⟨plan, s, hreach, hsub⟩
    · rw [hnil]
      exact .nil
    · have hlev := hreach.leveled
      obtain ⟨rfl, -⟩ := hreach.inv
      exact hlev.order.sorted.sublist hsub
  · intro hdet k e hr
    have hres : (execute dag outs env ([] : List Hook)).result = err (.taskFailed k e) := by
      rw [runSequential, execute_unobserved dag outs env ([] : List Hook)] at hr
      rcases bind_eq_err.mp hr with herr | ⟨artifacts, hok, hcollect⟩
      · exact herr
      · -- a run that returns has every output
        obtain ⟨-, hk⟩ := execute_started hok
        obtain ⟨plan, s, -, rfl, -, -, hall⟩ := execute_ok hok
        obtain ⟨m, hm, -⟩ := collect_of_done hk hall
        rw [hm] at hcollect
        cases hcollect
    obtain ⟨plan, s, i, q, nd, hreach, hq, hi, hkey, hf⟩ := execute_failed hres
    have hlev := hreach.leveled
    obtain ⟨hdag, hg, inv⟩ := hreach.inv
    have hiq : i ∈ s.q := hq ▸ List.mem_cons_self
    subst hdag
    exact ⟨i, nd, _, hi, hkey, inv.needed_of_queued hg hiq, hf, depth_spec (hlev.defined i (List.mem_append_right _ hiq)),
      fun j e' hj hfj => hreach.shallowest hdet hq hj hfj⟩

end DagExec
