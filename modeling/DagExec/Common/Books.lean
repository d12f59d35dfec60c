import DagExec.Common.Release
import DagExec.Lib.Kahn

/-!
# The books both executors keep

`Books plan vals indeg opn` is the ledger of Kahn's algorithm on the executors' tables, `opn` saying how often a node
is open wherever the executor keeps it, together with the meaning of the value table: whatever it holds is a value of
its node. Processing an open node keeps the books (`Books.finish`); so do both executors, whatever order they choose.
-/

namespace DagExec

open Outcome Kahn

variable {K O E ω R ε : Type}

/-- The entry of the value table. -/
def valAt (vals : List (Option O)) (i : NodeId) : Option O := vals[i]?.join

/-- Node `i` has been processed. -/
def isDone (vals : List (Option O)) (i : NodeId) : Bool := (valAt vals i).isSome

/-- The number of processed nodes. -/
def doneCount (vals : List (Option O)) : Nat := vals.countP Option.isSome

theorem valAt_set {vals : List (Option O)} {i j : NodeId} {v : Option O} (hi : i < vals.length) :
    valAt (vals.set i v) j = if j = i then v else valAt vals j := by
  unfold valAt
  rw [List.getElem?_set]
  by_cases h : j = i
  · subst h; simp [hi]
  · simp [h, Ne.symm h]

theorem valAt_eq_some {vals : List (Option O)} {i : NodeId} {v : O} :
    valAt vals i = some v ↔ vals[i]? = some (some v) := by
  unfold valAt
  cases h : vals[i]? <;> simp

theorem isDone_iff {vals : List (Option O)} {i : NodeId} : isDone vals i = true ↔ ∃ v, valAt vals i = some v := by
  simp [isDone, Option.isSome_iff_exists]

theorem isDone_set {vals : List (Option O)} {i : NodeId} {v : O} (hi : i < vals.length) :
    isDone (vals.set i (some v)) = Function.update (isDone vals) i true := by
  funext j
  unfold isDone
  rw [valAt_set hi]
  by_cases h : j = i
  · subst h; simp
  · simp [h]

theorem isDone_set_ne {vals : List (Option O)} {x i : NodeId} {v : O} (hx : x < vals.length) (hi : i ≠ x) :
    isDone (vals.set x (some v)) i = isDone vals i := by
  rw [isDone_set hx, Function.update_of_ne hi]

theorem isDone_set_iff {vals : List (Option O)} {x i : NodeId} {v : O} (hx : x < vals.length) :
    isDone (vals.set x (some v)) i = true ↔ isDone vals i = true ∨ i = x := by
  by_cases hi : i = x
  · subst hi
    simp [isDone_set hx]
  · rw [isDone_set_ne hx hi]
    simp [hi]

theorem doneCount_set {vals : List (Option O)} {i : NodeId} {v : O} (hi : i < vals.length)
    (hd : isDone vals i = false) : doneCount (vals.set i (some v)) = doneCount vals + 1 := by
  have hnone : vals[i] = none := by
    simp only [isDone, valAt, List.getElem?_eq_getElem hi, Option.join_some] at hd
    simpa using hd
  unfold doneCount
  rw [List.countP_set hi, hnone]
  simp

theorem not_done_of_doneCount_zero {vals : List (Option O)} (h : doneCount vals = 0) (i : NodeId) :
    isDone vals i = false := by
  by_contra hd
  obtain ⟨v, hv⟩ := isDone_iff.mp (by simpa using hd)
  have := List.countP_eq_zero.mp h _ (List.mem_of_getElem? (valAt_eq_some.mp hv))
  simp at this

/-- Arguments are gathered when every dependency has an entry, and they are the entries. -/
theorem gatherArgs_eq_ok {vals : List (Option O)} {deps : List NodeId} {args : List O} :
    (gatherArgs vals deps : Outcome (ExecError K E) _) = ok args ↔
      List.Forall₂ (fun d v => valAt vals d = some v) deps args := by
  unfold gatherArgs
  rw [mapM_eq_ok]
  have hone : ∀ d v, (index vals d >>= fun slot => okOr slot (.internalInvariant "dep missing during exec") :
      Outcome (ExecError K E) O) = ok v ↔ valAt vals d = some v := by
    intro d v
    rw [bind_eq_ok, valAt_eq_some]
    simp only [index_eq_ok, okOr_eq_ok, exists_eq_right]
  simp only [hone]

/-- What `prepare` establishes about the plan. -/
structure Plan.Good (plan : Plan K O E ω) (outs : List K) : Prop where
  needed_length : plan.needed.length = plan.dag.nodes.length
  needed : ∀ i, flag plan.needed i = true ↔ plan.dag.Needed outs i
  dependents : ∀ d < plan.dag.nodes.length,
    plan.dependents[d]? = some (dependentsBelow plan.dag plan.needed d plan.dag.nodes.length)
  count : plan.neededCount = plan.needed.count true

/-- The `Cycle` report at a state with the given counters. -/
def Plan.report (plan : Plan K O E ω) (indeg : List Nat) : List K :=
  plan.dag.keysOf (pickIds plan.needed fun i => decide (0 < counter indeg i))

structure Books (plan : Plan K O E ω) (vals : List (Option O)) (indeg : List Nat) (opn : NodeId → Nat) : Prop where
  vals_length : vals.length = plan.dag.nodes.length
  indeg_length : indeg.length = plan.dag.nodes.length
  ledger : Ledger plan.dag.depsOf (flag plan.needed) (isDone vals) (counter indeg) opn
  value : ∀ i v, valAt vals i = some v → Evaluates plan.dag i v

variable {plan : Plan K O E ω} {outs : List K} {vals : List (Option O)} {indeg : List Nat} {opn : NodeId → Nat}

/-- How often `i` is listed as a dependent of `d`. -/
theorem Plan.Good.dependents_count (hg : plan.Good outs) (d i : NodeId) :
    (dependentsBelow plan.dag plan.needed d plan.dag.nodes.length).count i =
      if flag plan.needed i = true then (plan.dag.depsOf i).count d else 0 := by
  rw [dependentsBelow_count]
  have hlt : flag plan.needed i = true → i < plan.dag.nodes.length := fun h => ((hg.needed i).mp h).lt
  simp only [and_iff_right_of_imp hlt]

namespace Books

theorem congr {opn' : NodeId → Nat} (h : Books plan vals indeg opn) (ho : ∀ i, opn' i = opn i) :
    Books plan vals indeg opn' := by
  rw [funext ho]; exact h

theorem needed_of_open (h : Books plan vals indeg opn) (hg : plan.Good outs) {i : NodeId} (ho : 0 < opn i) :
    plan.dag.Needed outs i := (hg.needed i).mp (h.ledger.of_open ho).1

theorem needed_of_done (h : Books plan vals indeg opn) (hg : plan.Good outs) {i : NodeId}
    (hd : isDone vals i = true) : plan.dag.Needed outs i := (hg.needed i).mp (h.ledger.needed_of_done hd)

/-- An open node's arguments can be gathered, and they are values of its dependencies. -/
theorem gather (h : Books plan vals indeg opn) {i : NodeId} {nd : Node K O E ω}
    (hi : plan.dag.nodes[i]? = some nd) (ho : 0 < opn i) : ∃ args, gatherArgs vals nd.deps =
      (ok args : Outcome (ExecError K E) _) ∧ RefArgs plan.dag i args := by
  have hdone : ∀ d ∈ nd.deps, ∃ v, valAt vals d = some v := fun d hd =>
    isDone_iff.mp (h.ledger.deps_done_of_open ho d (by rw [Dag.depsOf_of_get hi]; exact hd))
  obtain ⟨args, hargs⟩ : ∃ args, List.Forall₂ (fun d v => valAt vals d = some v) nd.deps args := by
    generalize nd.deps = ds at hdone
    induction ds with
    | nil => exact ⟨[], .nil⟩
    | cons d ds ih =>
      obtain ⟨v, hv⟩ := hdone d List.mem_cons_self
      obtain ⟨vs, hvs⟩ := ih fun d' hd' => hdone d' (List.mem_cons_of_mem _ hd')
      exact ⟨v :: vs, .cons hv hvs⟩
  refine ⟨args, gatherArgs_eq_ok.mpr hargs, ?_⟩
  rw [RefArgs, Dag.depsOf_of_get hi]
  exact hargs.imp fun d v hv => h.value d v hv

/-- **Processing an open node keeps the books.** The stores and the release loop succeed, and what the loop opens is
exactly the needed nodes whose last unprocessed dependency was `x`. -/
theorem finish [ExecObserver R] (h : Books plan vals indeg opn) (hg : plan.Good outs) {x : NodeId} {v : O}
    (hx : 0 < opn x) (hv : Evaluates plan.dag x v) (ready : List NodeId) (observer : R) :
    ∃ dsts indeg' rel observer', x < vals.length ∧ plan.dependents[x]? = some dsts ∧
      (dsts.foldlM releaseBody (indeg, ready, observer) : Outcome ε _) = ok (indeg', ready ++ rel, observer') ∧
      releaseDependents plan.dependents indeg ready x observer =
        (ok (indeg', ready ++ rel, observer') : Outcome ε _) ∧
      doneCount (vals.set x (some v)) = doneCount vals + 1 ∧ (∀ d ∈ rel, x ∈ plan.dag.depsOf d) ∧
      ∀ opn', (∀ i, opn' i + (if i = x then 1 else 0) = opn i + rel.count i) →
        Books plan (vals.set x (some v)) indeg' opn' := by
  have hxn := h.needed_of_open hg hx
  obtain ⟨-, -, hxd, -⟩ := h.ledger.of_open hx
  have hxlt : x < vals.length := h.vals_length ▸ hxn.lt
  have hdep := hg.dependents x hxn.lt
  have hcount := hg.dependents_count x
  generalize dependentsBelow plan.dag plan.needed x plan.dag.nodes.length = dsts at hdep hcount
  -- a node is listed at most as often as its counter says: `x` is among its unfinished dependencies that often
  have hle : ∀ d, dsts.count d ≤ counter indeg d := fun d => by
    rw [hcount]
    split
    · rename_i hf
      have := missing_update hxd (plan.dag.depsOf d)
      rw [h.ledger.counter d hf]; omega
    · exact Nat.zero_le _
  have hlt : ∀ d ∈ dsts, d < indeg.length := fun d hd => by
    rw [h.indeg_length]
    by_contra hc
    have hpos := List.count_pos_iff.mpr hd
    rw [hcount] at hpos
    split at hpos
    · rename_i hf
      exact hc ((hg.needed d).mp hf).lt
    · omega
  obtain ⟨indeg', rel, observer', hfold, hlen, hind, hrel, hsub⟩ := release_ok dsts indeg ready observer hlt hle
  refine ⟨dsts, indeg', rel, observer', hxlt, hdep, hfold, (releaseDependents_eq hdep hlt hle).trans hfold,
    doneCount_set hxlt hxd, fun d hd => ?_, fun opn' hopn => ?_⟩
  · have hpos := List.count_pos_iff.mpr (hsub.subset hd)
    rw [hcount] at hpos
    split at hpos
    · exact List.count_pos_iff.mp hpos
    · omega
  · refine ⟨by rw [List.length_set, h.vals_length], by rw [hlen, h.indeg_length], ?_, fun i w hw => ?_⟩
    · rw [isDone_set hxlt]
      refine h.ledger.finish hx (fun i => ?_) (fun i => ?_)
      · have := hind i
        rw [hcount] at this
        omega
      · rw [hopn i, hrel]
        have hi := hind i
        have hopen : (0 < dsts.count i ∧ counter indeg' i = 0) ↔ (0 < counter indeg i ∧ counter indeg' i = 0) :=
          ⟨fun hc => ⟨by omega, hc.2⟩, fun hc => ⟨by omega, hc.2⟩⟩
        simp only [hopen]
    · rw [valAt_set hxlt] at hw
      by_cases hix : i = x
      · subst hix; rw [if_pos rfl] at hw; cases hw; exact hv
      · rw [if_neg hix] at hw; exact h.value i w hw

/-! ## Counting the processed nodes -/

theorem done_mask (h : Books plan vals indeg opn) (hg : plan.Good outs) :
    List.Forall₂ (fun x y => x = true → y = true) (vals.map Option.isSome) plan.needed := by
  refine List.forall₂_iff_get.mpr ⟨by rw [List.length_map, h.vals_length, hg.needed_length], fun i hi hi' hd => ?_⟩
  rw [List.length_map] at hi
  have hdone : isDone vals i = true := by simpa [isDone, valAt, List.getElem?_eq_getElem hi] using hd
  have hflag := flag_eq_true.mp (h.ledger.needed_of_done hdone)
  rw [List.getElem?_eq_getElem hi'] at hflag
  exact Option.some.inj hflag

theorem doneCount_eq : doneCount vals = (vals.map Option.isSome).count true := by
  simp [doneCount, List.count, List.countP_map, Function.comp_def]

theorem doneCount_le (h : Books plan vals indeg opn) (hg : plan.Good outs) : doneCount vals ≤ plan.neededCount := by
  rw [doneCount_eq, hg.count]
  exact (ListFacts.count_true_of_imp (h.done_mask hg)).1

/-- As many nodes are processed as are needed exactly when every needed node is processed. -/
theorem doneCount_eq_iff (h : Books plan vals indeg opn) (hg : plan.Good outs) :
    doneCount vals = plan.neededCount ↔ ∀ i, plan.dag.Needed outs i → isDone vals i = true := by
  have hcount := ListFacts.count_true_of_imp (h.done_mask hg)
  rw [doneCount_eq, hg.count]
  have hmask : ∀ i < vals.length, (vals.map Option.isSome)[i]? = some (isDone vals i) := fun i hi => by
    simp [isDone, valAt, List.getElem?_eq_getElem hi]
  constructor
  · intro heq i hn
    have hsame := hcount.2 heq
    have hflag := flag_eq_true.mp ((hg.needed i).mpr hn)
    rw [← hsame, hmask i (h.vals_length ▸ hn.lt)] at hflag
    exact Option.some.inj hflag
  · intro hall
    congr 1
    refine List.ext_getElem? fun i => ?_
    by_cases hi : i < vals.length
    · rw [hmask i hi]
      have hi' : i < plan.needed.length := by rw [hg.needed_length, ← h.vals_length]; exact hi
      have hflag : plan.needed[i]? = some (flag plan.needed i) := by simp [flag, List.getElem?_eq_getElem hi']
      rw [hflag]
      congr 1
      rw [Bool.eq_iff_iff]
      exact ⟨fun hd => h.ledger.needed_of_done hd, fun hf => hall i ((hg.needed i).mp hf)⟩
    · rw [List.getElem?_eq_none (by simpa using hi), List.getElem?_eq_none (by
        rw [hg.needed_length, ← h.vals_length]; omega)]

/-- An open node is not counted yet. -/
theorem doneCount_lt (h : Books plan vals indeg opn) (hg : plan.Good outs) {i : NodeId} (ho : 0 < opn i) :
    doneCount vals < plan.neededCount := by
  refine Nat.lt_of_le_of_ne (h.doneCount_le hg) fun heq => ?_
  have hd := (h.doneCount_eq_iff hg).mp heq i (h.needed_of_open hg ho)
  rw [(h.ledger.of_open ho).2.2.1] at hd
  cases hd

/-! ## When nothing is open -/

section Idle

variable (h : Books plan vals indeg opn) (hg : plan.Good outs) (hidle : ∀ i, opn i = 0)
include h hidle

/-- The needed nodes with a positive counter are those not processed. -/
theorem blocked_iff {i : NodeId} (hn : flag plan.needed i = true) : 0 < counter indeg i ↔ isDone vals i = false := by
  have hp := h.ledger.place i
  rw [hidle, hn] at hp
  cases hd : isDone vals i <;> simp [hd] at hp ⊢ <;> omega

include hg

/-- Every needed node with a value is processed: its dependencies are, so it is not blocked. -/
theorem done_of_evaluates {i : NodeId} {v : O} (he : Evaluates plan.dag i v) (hn : plan.dag.Needed outs i) :
    isDone vals i = true := by
  induction he with
  | source hi hk =>
    by_contra hd
    obtain ⟨d, hd', _⟩ := h.ledger.stuck hidle ((hg.needed _).mpr hn) (by simpa using hd)
    rw [Dag.depsOf_source hi hk] at hd'
    cases hd'
  | task hi hk hlen hargs hf ih =>
    by_contra hd
    obtain ⟨d, hd', hdd⟩ := h.ledger.stuck hidle ((hg.needed _).mpr hn) (by simpa using hd)
    have hdn := hn.dep hd'
    rw [Dag.depsOf_of_get hi] at hd'
    obtain ⟨j, hj⟩ := List.getElem?_of_mem hd'
    have hlt := (List.getElem?_eq_some_iff.mp hj).1
    rw [ih j d _ hj (List.getElem?_eq_getElem (hlen ▸ hlt)) hdn] at hdd
    cases hdd

/-- Every needed node whose arguments have values is processed. -/
theorem done_of_refArgs {i : NodeId} {args : List O} (ha : RefArgs plan.dag i args) (hn : plan.dag.Needed outs i) :
    isDone vals i = true := by
  by_contra hd
  obtain ⟨d, hd', hdd⟩ := h.ledger.stuck hidle ((hg.needed _).mpr hn) (by simpa using hd)
  obtain ⟨w, hw⟩ := refArgs_dep ha hd'
  rw [h.done_of_evaluates hg hidle hw (hn.dep hd')] at hdd
  cases hdd

/-- A needed node is processed exactly when it has a value, and otherwise it reaches a cycle. -/
theorem not_done_iff {i : NodeId} (hn : plan.dag.Needed outs i) :
    isDone vals i = false ↔ DepGraph.ReachesCycle plan.dag.depsOf i := by
  constructor
  · intro hd
    refine h.ledger.reachesCycle hidle (fun j hj d hd => ?_) ?_ ((hg.needed i).mpr hn) hd
    · exact (hg.needed d).mpr (((hg.needed j).mp hj).dep hd)
    · exact Dag.needed_finite.subset fun j hj => (hg.needed j).mp hj
  · intro hc
    by_contra hd
    obtain ⟨v, hv⟩ := isDone_iff.mp (by simpa using hd)
    exact evaluates_not_reachesCycle (h.value i v hv) hc

end Idle

end Books

/-! ## The start of a run -/

/-- The seeded queue: the needed nodes without dependencies, in insertion order. -/
def Plan.seeds (plan : Plan K O E ω) : List NodeId := pickIds plan.needed fun i => (plan.dag.depsOf i).isEmpty

theorem mem_seeds (hg : plan.Good outs) {i : NodeId} :
    i ∈ plan.seeds ↔ plan.dag.Needed outs i ∧ plan.dag.depsOf i = [] := by
  rw [Plan.seeds, mem_pickIds, hg.needed, List.isEmpty_iff]

theorem seeds_sorted (plan : Plan K O E ω) : plan.seeds.Pairwise (· < ·) := pickIds_sorted _ _

theorem valAt_replicate_none {n : Nat} (i : NodeId) : valAt (List.replicate n (none : Option O)) i = none := by
  unfold valAt
  rw [List.getElem?_replicate]
  split <;> rfl

/-- With all keys present, the preparation succeeds and the books are in order. -/
theorem prepare_ok [ExecObserver R] {dag : Dag K O E ω} (h : dag.KeysExist outs) (observer : R) :
    ∃ p, prepare dag outs observer = ok p ∧ p.plan.dag = dag ∧ p.plan.Good outs ∧
      Books p.plan p.vals p.indeg (fun i => p.ready.count i) ∧ doneCount p.vals = 0 ∧ p.ready = p.plan.seeds := by
  obtain ⟨needed, hmark, hlen, hneeded⟩ := markNeeded_ok h
  obtain ⟨m, hm, hup⟩ := buildKahnMetadata_ok (ε := ExecError K E) hlen
  obtain ⟨observer', hseed⟩ := seed_ok (ε := ExecError K E) (hlen.trans hup.indeg_length.symm) observer
  have hcounter : ∀ i, counter m.2.1 i = if flag needed i = true then (dag.depsOf i).length else 0 := fun i => by
    have hlt : flag needed i = true → i < dag.nodes.length := fun hf => ((hneeded i).mp hf).lt
    rw [hup.indeg]
    simp only [and_iff_right_of_imp hlt]
  have hready : (pickIds needed fun i => counter m.2.1 i == 0) = pickIds needed fun i => (dag.depsOf i).isEmpty := by
    unfold pickIds
    congr 1
    refine List.filter_congr fun x hx => ?_
    obtain ⟨b, i⟩ := x
    have hb := List.mk_mem_zipIdx_iff_getElem?.mp hx
    cases b with
    | false => rfl
    | true =>
      simp only [Bool.true_and, hcounter, flag_eq_true.mpr hb, if_true]
      cases dag.depsOf i <;> rfl
  refine ⟨_, by rw [prepare, hmark, ok_bind, hm, ok_bind, hseed, ok_bind]; rfl, rfl, ⟨hlen, hneeded, hup.dependents, ?_⟩,
    ⟨by simp, hup.indeg_length, ⟨fun i hi => ?_, fun i hi => ?_, fun i => ?_⟩, fun i v hv => ?_⟩, ?_, hready⟩
  · rw [hup.count, List.take_of_length_le (Nat.le_of_eq hlen)]
  · simp only
    rw [hcounter, if_pos hi]
    simp [missing, isDone, valAt_replicate_none]
  · simp only
    rw [hcounter, if_neg (by simp [hi])]
  · simp only
    rw [pickIds_count, hcounter]
    cases hf : flag needed i with
    | false => simp [isDone, valAt_replicate_none]
    | true => cases hd : (dag.depsOf i).length <;> simp [isDone, valAt_replicate_none]
  · simp [valAt_replicate_none] at hv
  · simp [doneCount, List.countP_replicate]

/-- With a key missing, the preparation reports the first missing one. -/
theorem prepare_missing [ExecObserver R] {dag : Dag K O E ω} (h : ¬ dag.KeysExist outs) (observer : R) :
    ∃ k ∈ outs, dag.index.get k = none ∧
      prepare dag outs observer = (err (.outputMissing k) : Outcome _ (Prepared K O E ω R)) := by
  obtain ⟨pre, k, post, rfl, -, hk, herr⟩ := markNeeded_missing h
  exact ⟨k, by simp, hk, by rw [prepare, herr, err_bind]⟩

end DagExec
