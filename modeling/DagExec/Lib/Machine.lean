import Mathlib.Order.WellFounded
import Mathlib.Data.Finset.Basic

/-!
# Machines that step by named actions

A machine is a partial function `step : α → σ → Option σ`: `step a s` is the state after action `a`, or `none` when `a`
is not enabled at `s`. The actions carry all the nondeterminism, so an interleaving is a list of actions.

- `Reach step s t`: some interleaving leads from `s` to `t`; `Reach.invariant` is the induction rule;
- `play step as s`: the state that the interleaving `as` leads to, computed (`reach_iff_play`);
- `Final step s`: no action is enabled;
- `Reach.map`, `Reach.lift`: when a view of the states commutes with the steps, the runs of the viewed machine are the
  views of the runs;
- `exists_final`: a machine whose steps decrease a measure along the states of an invariant reaches a final state, and
  when some actions are held back (`exists_held`), a state in which only these are enabled.
-/

namespace Machine

variable {σ α : Type}

/-- Some interleaving of actions leads from `s` to the given state. -/
inductive Reach (step : α → σ → Option σ) (s : σ) : σ → Prop
  | refl : Reach step s s
  | tail {t u : σ} (a : α) : Reach step s t → step a t = some u → Reach step s u

/-- No action is enabled. -/
def Final (step : α → σ → Option σ) (s : σ) : Prop := ∀ a, step a s = none

variable {step : α → σ → Option σ}

theorem Reach.trans {s t u : σ} (h : Reach step s t) (h' : Reach step t u) : Reach step s u := by
  induction h' with
  | refl => exact h
  | tail a _ hs ih => exact ih.tail a hs

theorem Reach.single {s t : σ} {a : α} (h : step a s = some t) : Reach step s t := Reach.refl.tail a h

/-- **The invariant rule**: what holds first and is kept by every step holds in every reachable state. -/
theorem Reach.invariant {I : σ → Prop} {s t : σ} (h : Reach step s t) (h0 : I s)
    (hstep : ∀ a t u, I t → step a t = some u → I u) : I t := by
  induction h with
  | refl => exact h0
  | tail a _ hs ih => exact hstep a _ _ ih hs

/-- The state after a list of actions, if each is enabled in its turn. -/
def play (step : α → σ → Option σ) : List α → σ → Option σ
  | [], s => some s
  | a :: as, s =>
    match step a s with
    | some t => play step as t
    | none => none

theorem play_cons {a : α} {as : List α} {s t u : σ} (h : step a s = some t) (ht : play step as t = some u) :
    play step (a :: as) s = some u := by
  simp only [play, h]
  exact ht

theorem play_append {as bs : List α} {s t u : σ} (h : play step as s = some t) (ht : play step bs t = some u) :
    play step (as ++ bs) s = some u := by
  induction as generalizing s with
  | nil =>
    cases h
    exact ht
  | cons a as ih =>
    cases hs : step a s with
    | none =>
      simp only [play, hs] at h
      cases h
    | some v =>
      simp only [play, hs] at h
      exact play_cons hs (ih h)

/-- **The reachable states are those that an interleaving leads to.** -/
theorem reach_iff_play {s t : σ} : Reach step s t ↔ ∃ as, play step as s = some t := by
  constructor
  · intro h
    induction h with
    | refl => exact ⟨[], rfl⟩
    | tail a _ hs ih =>
      obtain ⟨as, has⟩ := ih
      exact ⟨as ++ [a], play_append has (play_cons hs rfl)⟩
  · rintro ⟨as, has⟩
    induction as generalizing s with
    | nil =>
      cases has
      exact .refl
    | cons a as ih =>
      cases hs : step a s with
      | none =>
        simp only [play, hs] at has
        cases has
      | some u =>
        simp only [play, hs] at has
        exact (Reach.single hs).trans (ih has)

/-- What a list of actions leads to: `f` looks at the state. -/
theorem Reach.of_play {β : Type} {f : σ → β} {as : List α} {s : σ} {b : β} (h : (play step as s).map f = some b) :
    ∃ t, Reach step s t ∧ f t = b := by
  obtain ⟨t, ht, hb⟩ := Option.map_eq_some_iff.mp h
  exact ⟨t, reach_iff_play.mpr ⟨as, ht⟩, hb⟩

section View

variable {τ : Type} {step' : α → τ → Option τ} {view : σ → τ}
  (hview : ∀ a s, step' a (view s) = (step a s).map view)
include hview

theorem Reach.map {s t : σ} (h : Reach step s t) : Reach step' (view s) (view t) := by
  induction h with
  | refl => exact .refl
  | tail a _ hs ih =>
    apply ih.tail a
    rw [hview, hs]
    rfl

theorem Reach.lift {s : σ} {u : τ} (h : Reach step' (view s) u) : ∃ t, Reach step s t ∧ view t = u := by
  induction h with
  | refl => exact ⟨s, .refl, rfl⟩
  | tail a _ hs ih =>
    obtain ⟨t, ht, rfl⟩ := ih
    rw [hview] at hs
    obtain ⟨t', hs', rfl⟩ := Option.map_eq_some_iff.mp hs
    exact ⟨t', ht.tail a hs', rfl⟩

end View

/-- **The termination rule**, with some actions held back: under a measure that every step from an invariant state
decreases, a state is reached in which only actions that are held back are enabled. -/
theorem exists_held {β : Type} {r : β → β → Prop} (hr : WellFounded r) {I : σ → Prop} (μ : σ → β) (held : α → σ → Prop)
    (hI : ∀ a t u, ¬ held a t → I t → step a t = some u → I u) (hμ : ∀ a t u, I t → step a t = some u → r (μ u) (μ t)) :
    ∀ s, I s → ∃ t, Reach step s t ∧ I t ∧ ∀ a, ¬ held a t → step a t = none := by
  intro s
  induction hs : μ s using hr.induction generalizing s with
  | _ b ih =>
    subst hs
    intro h
    by_cases hf : ∀ a, ¬ held a s → step a s = none
    · exact ⟨s, .refl, h, hf⟩
    · obtain ⟨a, ha⟩ := not_forall.mp hf
      obtain ⟨hfree, ha⟩ := Classical.not_imp.mp ha
      obtain ⟨u, hu⟩ := Option.ne_none_iff_exists'.mp ha
      obtain ⟨t, ht, hrest⟩ := ih (μ u) (hμ a s u h hu) u rfl (hI a s u hfree h hu)
      exact ⟨t, (Reach.single hu).trans ht, hrest⟩

/-- With none held back, a final state is reached. -/
theorem exists_final {β : Type} {r : β → β → Prop} (hr : WellFounded r) {I : σ → Prop} (μ : σ → β)
    (hI : ∀ a t u, I t → step a t = some u → I u) (hμ : ∀ a t u, I t → step a t = some u → r (μ u) (μ t)) :
    ∀ s, I s → ∃ t, Reach step s t ∧ Final step t := by
  intro s hs
  obtain ⟨t, ht, -, hf⟩ := exists_held hr μ (fun _ _ => False) (fun a t u _ => hI a t u) hμ s hs
  exact ⟨t, ht, fun a => hf a id⟩

/-- Under such a measure no run is infinite. -/
theorem no_infinite_run {β : Type} {r : β → β → Prop} (hr : WellFounded r) {I : σ → Prop} (μ : σ → β)
    (hI : ∀ a t u, I t → step a t = some u → I u) (hμ : ∀ a t u, I t → step a t = some u → r (μ u) (μ t))
    (run : ℕ → σ) (acts : ℕ → α) (h0 : I (run 0)) : ¬ ∀ n, step (acts n) (run n) = some (run (n + 1)) := by
  intro h
  have hinv : ∀ n, I (run n) := fun n => by
    induction n with
    | zero => exact h0
    | succ n ih => exact hI _ _ _ ih (h n)
  obtain ⟨n, hn⟩ := WellFounded.not_rel_apply_succ (r := r) (h := ⟨hr⟩) (fun n => μ (run n))
  exact hn (hμ _ _ _ (hinv n) (h n))

end Machine
