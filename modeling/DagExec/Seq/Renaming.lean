import DagExec.Seq.Reach
import DagExec.Seq.Runs
import DagExec.Spec.Embedding

/-!
# Sequential runs of a graph inside a graph

`run_sequential` on two graphs, one inside the other in the same order of insertion, for outputs that are in the
smaller one. The states of the two runs go together (`Renamed`): the same entries, the same queue and the same calls
up to the renumbering of the nodes. What is in the larger graph only is not needed, so it is in no queue.

- `Renamed.step`: an iteration of one run is an iteration of the other;
- `SeqReach.renamed`: the run lemma;
- `Dag.Inside.same_run`: the outcome and the calls are the same.
-/

namespace DagExec

open Outcome

variable {K O E ω : Type}

/-- `dag'` is inside `dag`, in the same order of insertion, and has the requested keys. -/
structure Dag.Inside (dag' dag : Dag K O E ω) (ρ : NodeId → NodeId) (outs : List K) : Prop where
  embeds : dag'.Embeds dag ρ
  mono : ∀ i j, i < j → j < dag'.nodes.length → ρ i < ρ j
  keys : dag'.KeysExist outs

def Invocation.rename (ρ : NodeId → NodeId) (c : Invocation O) : Invocation O := { c with id := ρ c.id }

variable {dag' dag : Dag K O E ω} {ρ : NodeId → NodeId} {outs : List K}

namespace Dag.Inside

/-- The needed nodes with a property are the images of those with the property that goes with it. -/
theorem needed_and_iff (h : dag'.Inside dag ρ outs) {P P' : NodeId → Prop}
    (hP : ∀ i < dag'.nodes.length, P (ρ i) ↔ P' i) (j : NodeId) :
    dag.Needed outs j ∧ P j ↔ ∃ i, (dag'.Needed outs i ∧ P' i) ∧ ρ i = j := by
  rw [h.embeds.needed_iff h.keys]
  constructor
  · rintro ⟨⟨i, hn, rfl⟩, hp⟩
    exact ⟨i, ⟨hn, (hP i hn.lt).mp hp⟩, rfl⟩
  · rintro ⟨i, ⟨hn, hp⟩, rfl⟩
    exact ⟨⟨i, hn, rfl⟩, (hP i hn.lt).mpr hp⟩

theorem map_sorted (h : dag'.Inside dag ρ outs) {ids : List NodeId} (hs : ids.Pairwise (· < ·))
    (hn : ∀ i ∈ ids, dag'.Needed outs i) : (ids.map ρ).Pairwise (· < ·) := by
  refine List.pairwise_map.mpr (hs.imp_of_mem fun _ hj hij => ?_)
  exact h.mono _ _ hij (hn _ hj).lt

/-- Listed in insertion order, they are the renamed list. -/
theorem map_eq (h : dag'.Inside dag ρ outs) {P P' : NodeId → Prop} (hP : ∀ i < dag'.nodes.length, P (ρ i) ↔ P' i)
    {ids ids' : List NodeId} (hs : ids.Pairwise (· < ·)) (hs' : ids'.Pairwise (· < ·))
    (hmem : ∀ j, j ∈ ids ↔ dag.Needed outs j ∧ P j) (hmem' : ∀ i, i ∈ ids' ↔ dag'.Needed outs i ∧ P' i) :
    ids = ids'.map ρ := by
  refine hs.eq_of_mem_iff (h.map_sorted hs' fun i hi => ((hmem' i).mp hi).1) fun j => ?_
  rw [hmem, h.needed_and_iff hP, List.mem_map]
  simp only [hmem']

theorem cyclicKeys (h : dag'.Inside dag ρ outs) {rem : List K} (hrem : CyclicKeys dag' outs rem) :
    CyclicKeys dag outs rem := by
  obtain ⟨ids, rfl, hsorted, hmem⟩ := hrem
  have hn : ∀ i ∈ ids, dag'.Needed outs i := fun i hi => ((hmem i).mp hi).1
  refine ⟨ids.map ρ, ?_, h.map_sorted hsorted hn, fun j => ?_⟩
  · unfold Dag.keysOf
    rw [List.filterMap_map]
    refine List.filterMap_congr fun i hi => ?_
    obtain ⟨nd, hnd, hnd'⟩ := h.embeds.get (hn i hi).lt
    rw [Function.comp_apply, hnd, hnd']
    rfl
  · rw [h.needed_and_iff fun i hi => h.embeds.graph.reachesCycle_iff hi, List.mem_map]
    simp only [hmem]

end Dag.Inside

/-- The state of a run of `dag` and the state of the run of `dag'` that it goes with. -/
structure Renamed (dag' : Dag K O E ω) (ρ : NodeId → NodeId) (s s' : SeqState O Unit) : Prop where
  vals : ∀ i < dag'.nodes.length, valAt s.vals (ρ i) = valAt s'.vals i
  queue : s.q = s'.q.map ρ
  processed : s.processed = s'.processed
  calls : s.calls = s'.calls.map (Invocation.rename ρ)

variable {env : Nat → ω} {plan plan' : Plan K O E ω} {s s₁ s' : SeqState O Unit}

namespace Renamed

theorem isDone_eq (h : Renamed dag' ρ s s') {i : NodeId} (hi : i < dag'.nodes.length) :
    isDone s.vals (ρ i) = isDone s'.vals i := by
  unfold isDone
  rw [h.vals i hi]

/-- The same arguments are gathered. -/
theorem gather (h : Renamed dag' ρ s s') {i : NodeId} {nd : Node K O E ω}
    (hnd : dag'.nodes[i]? = some nd) {args : List O} :
    (gatherArgs s.vals (nd.rename ρ).deps : Outcome (ExecError K E) _) = ok args ↔
      (gatherArgs s'.vals nd.deps : Outcome (ExecError K E) _) = ok args := by
  rw [gatherArgs_eq_ok, gatherArgs_eq_ok, Node.rename]
  refine ListFacts.forall₂_map_congr fun d hd v => ?_
  rw [h.vals d (dag'.deps_lt nd (List.mem_of_getElem? hnd) d hd)]

/-- The value of a node is computed in the same way. -/
theorem computes (h : Renamed dag' ρ s s') (hin : plan'.dag.Embeds plan.dag ρ) (hdag : plan'.dag = dag') {i : NodeId}
    (hi : i < plan'.dag.nodes.length) {v : O} {new : List (Invocation O)} (hc : Computes plan env s (ρ i) v new) :
    ∃ new', Computes plan' env s' i v new' ∧ new = new'.map (Invocation.rename ρ) := by
  subst hdag
  obtain ⟨nd, hnd, hren⟩ := hin.get hi
  cases hc with
  | source hj hk =>
    rw [hren] at hj
    cases hj
    exact ⟨[], .source hnd hk, rfl⟩
  | task hj hk ha hf =>
    rw [hren] at hj
    cases hj
    rw [h.processed] at hf
    exact ⟨_, .task hnd hk ((h.gather hnd).mp ha) hf, rfl⟩

/-- Processing a node opens a node of `dag'` and its image alike: their other dependencies are processed alike. -/
theorem opens_iff (h : Renamed dag' ρ s s') (hin : dag'.Embeds dag ρ) {id i : NodeId} (hid : id < dag'.nodes.length)
    (hi : i < dag'.nodes.length) :
    (ρ id ∈ dag.depsOf (ρ i) ∧ ∀ d ∈ dag.depsOf (ρ i), d = ρ id ∨ isDone s.vals d = true) ↔
      id ∈ dag'.depsOf i ∧ ∀ d ∈ dag'.depsOf i, d = id ∨ isDone s'.vals d = true := by
  have hlt : ∀ d ∈ dag'.depsOf i, d < dag'.nodes.length := fun d hd => Dag.lt_of_mem_depsOf hd
  have hsame : ∀ d ∈ dag'.depsOf i, ρ d = ρ id → d = id := fun d hd heq => hin.injective (hlt d hd) hid heq
  rw [hin.depsOf hi]
  refine and_congr ⟨fun hd => ?_, fun hd => List.mem_map_of_mem hd⟩ ?_
  · obtain ⟨d, hd, heq⟩ := List.mem_map.mp hd
    rwa [← hsame d hd heq]
  · rw [List.forall_mem_map]
    refine forall₂_congr fun d hd => ?_
    rw [h.isDone_eq (hlt d hd)]
    exact or_congr_left ⟨hsame d hd, fun heq => by rw [heq]⟩

/-- **An iteration** of the run of `dag` is one of the run of `dag'`. -/
theorem step (h : Renamed plan'.dag ρ s s') (hin : plan'.dag.Inside plan.dag ρ outs) (hg : plan.Good outs)
    (hg' : plan'.Good outs) (inv : SeqInv plan s) (inv' : SeqInv plan' s') (hb : seqBody plan env s = .next s₁) :
    ∃ s₁', seqBody plan' env s' = .next s₁' ∧ Renamed plan'.dag ρ s₁ s₁' := by
  obtain ⟨j, q, v, new, dsts, hp⟩ := seqBody_next hb
  obtain ⟨id, q', hq', rfl, rfl⟩ := List.map_eq_cons_iff.mp (h.queue.symm.trans hp.queue)
  have hid : id < plan'.dag.nodes.length := (inv'.needed_of_queued hg' (by rw [hq']; exact List.mem_cons_self)).lt
  obtain ⟨new', hc', hnew⟩ := h.computes hin.embeds rfl hid hp.computes
  obtain ⟨s₁', dsts', hb', hp'⟩ := inv'.processes hg' hq' hc'
  obtain ⟨rel, hq₁, hsorted, hmem⟩ := hp.opened inv hg
  obtain ⟨rel', hq₁', hsorted', hmem'⟩ := hp'.opened inv' hg'
  have hrel : rel = rel'.map ρ :=
    hin.map_eq (fun i hi => h.opens_iff hin.embeds hid hi) hsorted hsorted' hmem hmem'
  refine ⟨s₁', hb', fun i hi => ?_, ?_, ?_, ?_⟩
  · rw [hp.vals, hp'.vals, valAt_set hp.lt, valAt_set hp'.lt, h.vals i hi]
    by_cases heq : i = id
    · rw [if_pos heq, if_pos (by rw [heq])]
    · rw [if_neg heq, if_neg fun hc => heq (hin.embeds.injective hi hid hc)]
  · rw [hq₁, hq₁', hrel, List.map_append]
  · rw [hp.processed, hp'.processed, h.processed]
  · rw [hp.calls, hp'.calls, h.calls, hnew, List.map_append]

/-- What one run leaves its loop with, the other one does. -/
theorem leaves (h : Renamed plan'.dag ρ s s') (hin : plan'.dag.Inside plan.dag ρ outs) (hg' : plan'.Good outs)
    (inv' : SeqInv plan' s') {o : Outcome (ExecError K E) Unit} {calls : List (Invocation O)}
    (hl : Leaves plan env s o calls) :
    ∃ calls', Leaves plan' env s' o calls' ∧ calls = calls'.map (Invocation.rename ρ) := by
  have hfront : ∀ {j q}, s.q = j :: q → ∃ i q', s'.q = i :: q' ∧ ρ i = j ∧ i < plan'.dag.nodes.length := by
    intro j q hq
    obtain ⟨i, q', hq', hi, -⟩ := List.map_eq_cons_iff.mp (h.queue.symm.trans hq)
    refine ⟨i, q', hq', hi, (inv'.needed_of_queued hg' ?_).lt⟩
    rw [hq']
    exact List.mem_cons_self
  cases hl with
  | drained hq =>
    have hq' : s'.q = [] := List.map_eq_nil_iff.mp (h.queue.symm.trans hq)
    exact ⟨s'.calls, .drained hq', h.calls⟩
  | @failed _ _ _ _ args e hq hj hk ha hf =>
    obtain ⟨i, q', hq', rfl, hi⟩ := hfront hq
    obtain ⟨nd, hnd, hren⟩ := hin.embeds.get hi
    rw [hren] at hj
    cases hj
    rw [h.processed] at hf
    have hleft : Leaves plan' env s' (err (.taskFailed nd.key e)) (s'.calls ++ [⟨i, args⟩]) :=
      .failed hq' hnd hk ((h.gather hnd).mp ha) hf
    refine ⟨_, hleft, ?_⟩
    rw [h.calls, List.map_append]
    rfl
  | panicked hq hj hk ha hf =>
    obtain ⟨i, q', hq', rfl, hi⟩ := hfront hq
    obtain ⟨nd, hnd, hren⟩ := hin.embeds.get hi
    rw [hren] at hj
    cases hj
    rw [h.processed] at hf
    refine ⟨_, .panicked hq' hnd hk ((h.gather hnd).mp ha) hf, ?_⟩
    rw [h.calls, List.map_append]
    rfl

end Renamed

/-! ## Runs -/

/-- The first states of the two runs. -/
theorem Dag.Inside.start (hin : dag'.Inside dag ρ outs) {p p' : Prepared K O E ω Unit}
    (hp : seqStart dag outs () = ok p) (hp' : seqStart dag' outs () = ok p') :
    Renamed dag' ρ p.seqState p'.seqState := by
  obtain ⟨rfl, hg, -, h0, hready, -⟩ := seqStart_start hp
  obtain ⟨rfl, hg', -, h0', hready', -⟩ := seqStart_start hp'
  refine ⟨fun i hi => ?_, ?_, rfl, rfl⟩
  · have hnone : ∀ {vals : List (Option O)}, doneCount vals = 0 → ∀ i, valAt vals i = none := by
      intro vals hzero i
      have := not_done_of_doneCount_zero hzero i
      unfold isDone at this
      rwa [Option.isSome_eq_false_iff, Option.isNone_iff_eq_none] at this
    exact (hnone h0 _).trans (hnone h0' _).symm
  · show p.ready = p'.ready.map ρ
    rw [hready, hready']
    refine hin.map_eq (fun i hi => ?_) (seeds_sorted _) (seeds_sorted _) (fun j => mem_seeds hg) fun i => mem_seeds hg'
    rw [hin.embeds.depsOf hi, List.map_eq_nil_iff]

/-- **The run lemma.** -/
theorem SeqReach.renamed (hin : dag'.Inside dag ρ outs) (hne : outs ≠ []) (h : SeqReach dag outs env () plan s) :
    ∃ plan' s', SeqReach dag' outs env () plan' s' ∧ Renamed dag' ρ s s' := by
  obtain ⟨p', hp'⟩ := seqStart_ok hne hin.keys ()
  refine ⟨p'.plan, ?_⟩
  refine h.induct (P := fun s => ∃ s', SeqReach dag' outs env () p'.plan s' ∧ Renamed dag' ρ s s')
    (fun p hp _ => ⟨p'.seqState, ⟨p', hp', rfl, .start⟩, hin.start hp hp'⟩) fun s s₁ hs ⟨s', hs', hren⟩ hb => ?_
  obtain ⟨rfl, hg, inv⟩ := hs.inv
  obtain ⟨hdag', hg', inv'⟩ := hs'.inv
  rw [← hdag'] at hren hin
  obtain ⟨s₁', hb', hren'⟩ := hren.step hin hg hg' inv inv' hb
  exact ⟨s₁', hs'.next hb', hdag' ▸ hren'⟩

variable [DecidableEq K]

/-- What the two runs return when their queues are empty. -/
theorem Renamed.drained (h : Renamed dag' ρ s s') (hin : dag'.Inside dag ρ outs) (hs : SeqReach dag outs env () plan s)
    (hs' : SeqReach dag' outs env () plan' s') (hq : s.q = []) (hq' : s'.q = []) :
    (runSequential dag outs env).1 = (runSequential dag' outs env).1 := by
  have hdone : (∀ i, dag.Needed outs i → isDone s.vals i = true) ↔ ∀ i, dag'.Needed outs i → isDone s'.vals i = true := by
    constructor
    · intro hall i hi
      rw [← h.isDone_eq hi.lt]
      exact hall (ρ i) ((hin.embeds.needed_iff hin.keys).mpr ⟨i, hi, rfl⟩)
    · intro hall j hj
      obtain ⟨i, hi, rfl⟩ := (hin.embeds.needed_iff hin.keys).mp hj
      rw [h.isDone_eq hi.lt]
      exact hall i hi
  obtain ⟨-, hres⟩ := hs.drained hq
  obtain ⟨-, hres'⟩ := hs'.drained hq'
  rw [hdone] at hres
  rcases hres with ⟨hall, m, hm, hget⟩ | ⟨hno, rem, hrem⟩
  · obtain ⟨m', hm', hget'⟩ := (hres'.resolve_right fun hr => hr.1 hall).2
    have hsame : m = m' := by
      refine HashMap.ext fun k v => ?_
      rw [hget, hget']
      refine and_congr_right fun hk => ?_
      obtain ⟨i, hi⟩ := hin.keys k hk
      rw [hi, hin.embeds.index_get hi]
      simp only [Option.some.injEq, exists_eq_left', h.vals i (Dag.index_lt hi)]
    rw [hm, hm', hsame]
  · obtain ⟨rem', hrem'⟩ := (hres'.resolve_left fun hr => hno hr.1).2
    have hcyc := hin.cyclicKeys (runSequential_cyclicKeys hrem')
    rw [hrem, hrem', (runSequential_cyclicKeys hrem).unique hcyc]

/-- **The outcome and the calls are the same**, up to the renumbering of the nodes that are called. -/
theorem Dag.Inside.same_run (hin : dag'.Inside dag ρ outs) (hne : outs ≠ []) (env : Nat → ω) :
    (runSequential dag outs env).1 = (runSequential dag' outs env).1 ∧
      (runSequential dag outs env).2 = (runSequential dag' outs env).2.map (Invocation.rename ρ) := by
  obtain ⟨plan, s, o, t, hs, hdone, hexec⟩ := execute_reach hne (hin.embeds.keysExist hin.keys) env ()
  obtain ⟨plan', s', hs', hren⟩ := hs.renamed hin hne
  obtain ⟨hdag, hg, inv⟩ := hs.inv
  obtain ⟨hdag', hg', inv'⟩ := hs'.inv
  have hl : Leaves plan env s o t.calls := inv.leaves hg hdone
  generalize hmade : t.calls = calls at hl
  have hin' : plan'.dag.Inside plan.dag ρ outs := by
    rw [hdag, hdag']
    exact hin
  obtain ⟨calls', hl', hcalls⟩ := (hdag'.symm ▸ hren : Renamed plan'.dag ρ s s').leaves hin' hg' inv' hl
  obtain ⟨t', hdone', hcalls', -⟩ := hl'.body
  have hexec' := hs'.execute_eq hdone'
  constructor
  · cases hl with
    | drained hq =>
      have hq' : s'.q = [] := List.map_eq_nil_iff.mp (hren.queue.symm.trans hq)
      exact hren.drained hin hs hs' hq hq'
    | failed =>
      rw [runSequential, runSequential, hexec, hexec']
      rfl
    | panicked =>
      rw [runSequential, runSequential, hexec, hexec']
      rfl
  · rw [runSequential, runSequential, hexec, hexec']
    show t.calls = t'.calls.map _
    rw [hmade, hcalls, hcalls']

end DagExec
