import DagExec.Spec.Reference
import Mathlib.Order.Lattice.Nat
import Mathlib.Data.Set.Card
import Mathlib.Order.Interval.Finset.Nat

/-!
# How many nodes can be in progress together

A set of needed nodes is independent when no node of it depends on another, directly or not. `Dag.antichainWidth` is the
size of the largest such set.
-/

namespace DagExec

open DepGraph

variable {K O E ω : Type}

namespace Dag

variable (dag : Dag K O E ω) (outs : List K)

/-- Needed nodes none of which depends on another. -/
structure Independent (S : Finset NodeId) : Prop where
  needed : ∀ i ∈ S, dag.Needed outs i
  apart : ∀ i ∈ S, ∀ j ∈ S, i ≠ j → ¬ DependsOn dag.depsOf i j

/-- The size of the largest set of pairwise independent needed nodes. -/
noncomputable def antichainWidth : ℕ := sSup { n | ∃ S, dag.Independent outs S ∧ S.card = n }

/-- The needed nodes without dependencies. -/
def Roots : Set NodeId := { i | dag.Needed outs i ∧ dag.depsOf i = [] }

variable {dag outs}

theorem Independent.card_le {S : Finset NodeId} (h : dag.Independent outs S) : S.card ≤ dag.nodes.length := by
  have hsub : S ⊆ Finset.range dag.nodes.length := fun i hi => Finset.mem_range.mpr (h.needed i hi).lt
  have hle := Finset.card_le_card hsub
  rwa [Finset.card_range] at hle

theorem antichainWidth_isGreatest :
    IsGreatest { n | ∃ S, dag.Independent outs S ∧ S.card = n } (dag.antichainWidth outs) := by
  have hbdd : BddAbove { n | ∃ S, dag.Independent outs S ∧ S.card = n } :=
    ⟨dag.nodes.length, fun n ⟨S, hS, hn⟩ => hn ▸ hS.card_le⟩
  refine ⟨Nat.sSup_mem ⟨0, ∅, ⟨nofun, nofun⟩, rfl⟩ hbdd, fun n hn => le_csSup hbdd hn⟩

theorem Independent.card_le_width {S : Finset NodeId} (h : dag.Independent outs S) :
    S.card ≤ dag.antichainWidth outs := antichainWidth_isGreatest.2 ⟨S, h, rfl⟩

end Dag

end DagExec
