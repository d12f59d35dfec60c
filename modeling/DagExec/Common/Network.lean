import DagExec.Common.Books
import DagExec.Lib.Dataflow

/-!
# A request as a dataflow network

The needed nodes of a request are a network: a source takes its value, a task what its function returns on the values of
its dependencies. The value table of an executor is the network's table: storing a node's value is firing the node
(`fires_store`), and when nothing is open no node may fire (`Books.network_stuck`).
-/

namespace DagExec

open Dataflow

variable {K O E ω : Type} {dag : Dag K O E ω} {outs : List K} {vals : List (Option O)}

/-- What a run has to compute. -/
def Dag.network (dag : Dag K O E ω) (outs : List K) : Network NodeId O where
  needed := dag.Needed outs
  deps := dag.depsOf
  eval i args v := (∃ nd, dag.nodes[i]? = some nd ∧ nd.kind = .source v) ∨ ∃ f w, dag.IsTask i f ∧ f w args = .ok v

/-- The table holds `args` for the dependencies of `i`. -/
abbrev Reads (dag : Dag K O E ω) (vals : List (Option O)) (i : NodeId) (args : List O) : Prop :=
  List.Forall₂ (fun d a => valAt vals d = some a) (dag.depsOf i) args

theorem Dag.network_functional (dag : Dag K O E ω) (outs : List K) (hdet : dag.Deterministic) : Functional (dag.network outs) := by
  intro i args v v' h h'
  rcases h with ⟨nd, hi, hk⟩ | ⟨f, w, hf, hv⟩
  · rcases h' with ⟨nd', hi', hk'⟩ | ⟨f, w, hf, -⟩
    · rw [hi] at hi'
      cases hi'
      rw [hk] at hk'
      cases hk'
      rfl
    · exact absurd ⟨nd, v, hi, hk⟩ hf.not_source
  · rcases h' with ⟨nd', hi', hk'⟩ | ⟨f', w', hf', hv'⟩
    · exact absurd ⟨nd', v', hi', hk'⟩ hf.not_source
    · obtain ⟨nd, hnd, hk⟩ := hf
      have hk' := hf'.get hnd
      rw [hk] at hk'
      cases hk'
      rw [hdet i f ⟨nd, hnd, hk⟩ w w', hv'] at hv
      cases hv
      rfl

theorem valAt_store {x : NodeId} {v : O} (hx : x < vals.length) :
    valAt (vals.set x (some v)) = Function.update (valAt vals) x (some v) := by
  funext j
  rw [valAt_set hx, Function.update_apply]

/-- A node that is not processed has no value in the table. -/
theorem valAt_eq_none {i : NodeId} : valAt vals i = none ↔ isDone vals i = false := by
  rw [isDone, Option.isSome_eq_false_iff, Option.isNone_iff_eq_none]

/-- **Storing a node's value fires the node.** -/
theorem fires_store {x : NodeId} {v : O} {args : List O} (hn : dag.Needed outs x) (hx : x < vals.length)
    (hfree : isDone vals x = false) (hargs : Reads dag vals x args) (hv : (dag.network outs).eval x args v) :
    Fires (dag.network outs) (valAt vals) x (valAt (vals.set x (some v))) := by
  rw [valAt_store hx]
  exact .intro hn (valAt_eq_none.mpr hfree) hargs hv

/-- What the table holds for the dependencies stays when an unprocessed node's value is stored. -/
theorem Reads.store {i x : NodeId} {v : O} {args : List O} (h : Reads dag vals i args) (hx : x < vals.length)
    (hfree : isDone vals x = false) : Reads dag (vals.set x (some v)) i args := by
  refine List.Forall₂.imp (fun d a hd => ?_) h
  have hne : d ≠ x := fun hdx => by
    rw [hdx, valAt_eq_none.mpr hfree] at hd
    cases hd
  rw [valAt_set hx, if_neg hne]
  exact hd

/-- When every needed node is processed, no node may fire. -/
theorem network_stuck_of_done (h : ∀ i, dag.Needed outs i → isDone vals i = true) :
    Stuck (dag.network outs) (valAt vals) := by
  rintro σ ⟨i, hi⟩
  cases hi with
  | intro hn hfree =>
    have hd := h i hn
    rw [valAt_eq_none.mp hfree] at hd
    cases hd

/-- When nothing is open, no node may fire. -/
theorem Books.network_stuck {plan : Plan K O E ω} {indeg : List Nat} {opn : NodeId → Nat}
    (h : Books plan vals indeg opn) (hg : plan.Good outs) (hidle : ∀ i, opn i = 0) :
    Stuck (plan.dag.network outs) (valAt vals) := by
  rintro σ ⟨i, hi⟩
  cases hi with
  | intro hn hfree hargs =>
    obtain ⟨d, hd, hdd⟩ := h.ledger.stuck hidle ((hg.needed i).mpr hn) (valAt_eq_none.mp hfree)
    obtain ⟨j, hj⟩ := List.getElem?_of_mem hd
    obtain ⟨a, -, ha⟩ := ListFacts.forall₂_get_left hargs hj
    rw [valAt_eq_none.mpr hdd] at ha
    cases ha

end DagExec
