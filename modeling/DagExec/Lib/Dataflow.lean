import Mathlib.Logic.Relation
import Mathlib.Data.Set.Finite.Basic
import Mathlib.Data.Set.Card
import Mathlib.Data.List.Forall2

/-!
# Dataflow networks

A network has nodes to be computed; a node depends on a list of nodes, and `eval i args v` says that it may take the value
`v` when they have the values `args`. A node that has no value may fire once all it depends on have one; nodes fire in any
order, one at a time.

- `Fires.commute`: two nodes that may fire may fire one after the other, in both orders, with the same result;
- `confluent`, `stuck_unique`: when `eval` is functional, all runs end in the same table;
- `exists_stuck`: with finitely many nodes to compute, every run can be completed;
- `Consistent`: in a table that a run reaches, every value is one the node may take on the values in the table.
-/

namespace Dataflow

open Relation

variable {ι β : Type}

structure Network (ι β : Type) where
  needed : ι → Prop
  deps : ι → List ι
  eval : ι → List β → β → Prop

/-- The values in the table of what a node depends on. -/
def Args (net : Network ι β) (σ : ι → Option β) (i : ι) (args : List β) : Prop :=
  List.Forall₂ (fun d a => σ d = some a) (net.deps i) args

section Tables

variable {net : Network ι β} {σ σ₁ : ι → Option β} {i : ι} {args args' : List β}

theorem Args.mono (h : Args net σ i args) (hk : ∀ d v, σ d = some v → σ₁ d = some v) : Args net σ₁ i args :=
  List.Forall₂.imp hk h

theorem Args.unique (h : Args net σ i args) (h' : Args net σ i args') : args = args' := by
  unfold Args at h h'
  generalize net.deps i = ds at h h'
  induction h generalizing args' with
  | nil => cases h'; rfl
  | cons hd _ ih =>
    cases h' with
    | cons hd' htl' =>
      rw [hd] at hd'
      cases hd'
      rw [ih htl']

end Tables

variable [DecidableEq ι]

/-- Node `i` fires. -/
inductive Fires (net : Network ι β) (σ : ι → Option β) (i : ι) : (ι → Option β) → Prop
  | intro {args : List β} {v : β} (hn : net.needed i) (hfree : σ i = none) (hargs : Args net σ i args)
      (hv : net.eval i args v) : Fires net σ i (Function.update σ i (some v))

def Step (net : Network ι β) (σ σ' : ι → Option β) : Prop := ∃ i, Fires net σ i σ'

/-- No node may fire. -/
def Stuck (net : Network ι β) (σ : ι → Option β) : Prop := ∀ σ', ¬ Step net σ σ'

/-- A node takes one value on given arguments. -/
def Functional (net : Network ι β) : Prop := ∀ i args v v', net.eval i args v → net.eval i args v' → v = v'

/-- Every value is one the node may take on the values in the table. -/
def Consistent (net : Network ι β) (σ : ι → Option β) : Prop :=
  ∀ i v, σ i = some v → net.needed i ∧ ∃ args, Args net σ i args ∧ net.eval i args v

variable {net : Network ι β} {σ σ₁ σ₂ : ι → Option β} {i j : ι}

/-- A value stays in the table. -/
theorem Fires.keeps (h : Fires net σ i σ₁) {v : β} (hj : σ j = some v) : σ₁ j = some v := by
  cases h with
  | intro hn hfree hargs hv =>
    have hne : j ≠ i := fun hij => by rw [hij, hfree] at hj; cases hj
    rw [Function.update_of_ne hne]
    exact hj

/-! ## All orders lead to the same table -/

/-- **Two nodes commute.** -/
theorem Fires.commute (hij : i ≠ j) (hi : Fires net σ i σ₁) (hj : Fires net σ j σ₂) :
    ∃ σ₃, Fires net σ₁ j σ₃ ∧ Fires net σ₂ i σ₃ := by
  have hkeep₁ : ∀ d v, σ d = some v → σ₁ d = some v := fun d v => hi.keeps
  have hkeep₂ : ∀ d v, σ d = some v → σ₂ d = some v := fun d v => hj.keeps
  cases hi with
  | @intro args v hn hfree hargs hv =>
    cases hj with
    | @intro args' v' hn' hfree' hargs' hv' =>
      refine ⟨_, .intro hn' ?_ (hargs'.mono hkeep₁) hv', ?_⟩
      · rw [Function.update_of_ne hij.symm]
        exact hfree'
      · rw [Function.update_comm hij]
        refine .intro hn ?_ (hargs.mono hkeep₂) hv
        rw [Function.update_of_ne hij]
        exact hfree

theorem Fires.unique (hf : Functional net) (h : Fires net σ i σ₁) (h' : Fires net σ i σ₂) : σ₁ = σ₂ := by
  cases h with
  | intro _ _ hargs hv =>
    cases h' with
    | intro _ _ hargs' hv' =>
      rw [hargs.unique hargs'] at hv
      rw [hf _ _ _ _ hv hv']

theorem confluent (hf : Functional net) (h₁ : ReflTransGen (Step net) σ σ₁) (h₂ : ReflTransGen (Step net) σ σ₂) :
    Join (ReflTransGen (Step net)) σ₁ σ₂ := by
  refine church_rosser ?_ h₁ h₂
  rintro a b c ⟨i, hi⟩ ⟨j, hj⟩
  by_cases hij : i = j
  · subst hij
    rw [hi.unique hf hj]
    exact ⟨c, .refl, .refl⟩
  · obtain ⟨d, hb, hc⟩ := hi.commute hij hj
    exact ⟨d, .single ⟨j, hb⟩, .single ⟨i, hc⟩⟩

/-- A run goes nowhere from a table in which no node may fire. -/
theorem Stuck.eq (h : Stuck net σ) (hr : ReflTransGen (Step net) σ σ₁) : σ₁ = σ := by
  rcases hr.cases_head with rfl | ⟨σ', hstep, -⟩
  · rfl
  · exact absurd hstep (h σ')

/-- **All runs end in the same table.** -/
theorem stuck_unique (hf : Functional net) (h₁ : ReflTransGen (Step net) σ σ₁) (hs₁ : Stuck net σ₁)
    (h₂ : ReflTransGen (Step net) σ σ₂) (hs₂ : Stuck net σ₂) : σ₁ = σ₂ := by
  obtain ⟨σ₃, hr₁, hr₂⟩ := confluent hf h₁ h₂
  rw [← hs₁.eq hr₁, hs₂.eq hr₂]

/-! ## Runs end -/

/-- The nodes left to compute. -/
def left (net : Network ι β) (σ : ι → Option β) : Set ι := { i | net.needed i ∧ σ i = none }

theorem Fires.left_lt (h : Fires net σ i σ₁) (hfin : (left net σ).Finite) : (left net σ₁).ncard < (left net σ).ncard := by
  have hkeep : ∀ d v, σ d = some v → σ₁ d = some v := fun d v => h.keeps
  cases h with
  | intro hn hfree hargs hv =>
    refine Set.ncard_lt_ncard ⟨fun j hj => ⟨hj.1, ?_⟩, fun hsub => ?_⟩ hfin
    · cases hσ : σ j with
      | none => rfl
      | some w =>
        have hw := hkeep j w hσ
        rw [hj.2] at hw
        cases hw
    · have hi := (hsub ⟨hn, hfree⟩).2
      rw [Function.update_self] at hi
      cases hi

/-- Every run can be completed. -/
theorem exists_stuck (hfin : { i | net.needed i }.Finite) (σ : ι → Option β) :
    ∃ σ', ReflTransGen (Step net) σ σ' ∧ Stuck net σ' := by
  induction hn : (left net σ).ncard using Nat.strong_induction_on generalizing σ with
  | _ n ih =>
    by_cases hs : Stuck net σ
    · exact ⟨σ, .refl, hs⟩
    · obtain ⟨σ₁, hstep⟩ := not_forall.mp hs
      rw [not_not] at hstep
      obtain ⟨i, hi⟩ := hstep
      have hlt : (left net σ₁).ncard < n := by
        rw [← hn]
        exact hi.left_lt (hfin.subset fun j hj => hj.1)
      obtain ⟨σ', hr, hs'⟩ := ih _ hlt σ₁ rfl
      exact ⟨σ', .head ⟨i, hi⟩ hr, hs'⟩

/-! ## What the table says -/

theorem Consistent.step (h : Consistent net σ) (hs : Step net σ σ₁) : Consistent net σ₁ := by
  obtain ⟨i, hi⟩ := hs
  have hkeep : ∀ d v, σ d = some v → σ₁ d = some v := fun d v => hi.keeps
  intro j w hj
  cases hi with
  | @intro args v hn hfree hargs hv =>
    by_cases hji : j = i
    · subst hji
      rw [Function.update_self] at hj
      cases hj
      exact ⟨hn, args, hargs.mono hkeep, hv⟩
    · rw [Function.update_of_ne hji] at hj
      obtain ⟨hneed, args', hargs', hv'⟩ := h j w hj
      exact ⟨hneed, args', hargs'.mono hkeep, hv'⟩

end Dataflow
