import DagExec.Lib.Machine
import DagExec.Lib.WhileLoop
import Mathlib.Logic.Relation
import Mathlib.Order.Bounds.Basic
import Mathlib.Order.Lattice.Nat

/-!
# High-water marks

States have a level and a mark. If the mark starts at the level and each step raises it to the new level at most, it is the
greatest level on the way (`isGreatest_mark`). `Reach.iff_reflTransGen` and `Visits.iff_reflTransGen` make the rule one for
machines and for loops.
-/

namespace Machine

variable {σ α : Type} {step : α → σ → Option σ}

theorem Reach.iff_reflTransGen {s t : σ} :
    Reach step s t ↔ Relation.ReflTransGen (fun s t => ∃ a, step a s = some t) s t := by
  constructor
  · intro h
    induction h with
    | refl => exact .refl
    | tail a _ hs ih => exact ih.tail ⟨a, hs⟩
  · intro h
    induction h with
    | refl => exact .refl
    | tail _ hs ih =>
      obtain ⟨a, ha⟩ := hs
      exact ih.tail a ha

end Machine

namespace WhileLoop

variable {σ ρ : Type} {body : σ → Ctl σ ρ}

theorem Visits.iff_reflTransGen {s t : σ} :
    Visits body s t ↔ Relation.ReflTransGen (fun s t => body s = .next t) s t := by
  constructor
  · intro h
    induction h with
    | start => exact .refl
    | next _ hb ih => exact ih.tail hb
  · intro h
    induction h with
    | refl => exact .start
    | tail _ hb ih => exact ih.next hb

end WhileLoop

namespace HighWater

open Relation

variable {σ : Type} {r : σ → σ → Prop} {level mark : σ → ℕ} {s0 s : σ}

/-- The levels on the way from `s0` to `s`. -/
def Levels (r : σ → σ → Prop) (level : σ → ℕ) (s0 s : σ) : Set ℕ :=
  { n | ∃ t, ReflTransGen r s0 t ∧ ReflTransGen r t s ∧ level t = n }

section

variable (h0 : mark s0 = level s0)
  (hstep : ∀ t t', ReflTransGen r s0 t → r t t' → level t ≤ mark t → mark t' = max (mark t) (level t'))
include h0 hstep

theorem level_le (h : ReflTransGen r s0 s) : level s ≤ mark s := by
  induction h with
  | refl => exact Nat.le_of_eq h0.symm
  | tail ht hs ih =>
    rw [hstep _ _ ht hs ih]
    exact Nat.le_max_right _ _

theorem mark_mono {t : σ} (ht : ReflTransGen r s0 t) (h : ReflTransGen r t s) : mark t ≤ mark s := by
  induction h with
  | refl => exact Nat.le_refl _
  | tail hu hs ih =>
    have hreach := ht.trans hu
    rw [hstep _ _ hreach hs (level_le h0 hstep hreach)]
    exact Nat.le_trans ih (Nat.le_max_left _ _)

/-- The mark is a level the run has come to. -/
theorem exists_level (h : ReflTransGen r s0 s) : mark s ∈ Levels r level s0 s := by
  induction h with
  | refl => exact ⟨s0, .refl, .refl, h0.symm⟩
  | @tail t t' ht hs ih =>
    have hnew := hstep t t' ht hs (level_le h0 hstep ht)
    rcases Nat.le_total (level t') (mark t) with hle | hle
    · obtain ⟨u, hu, hut, hlevel⟩ := ih
      rw [Nat.max_eq_left hle] at hnew
      exact ⟨u, hu, hut.tail hs, hlevel.trans hnew.symm⟩
    · rw [Nat.max_eq_right hle] at hnew
      exact ⟨t', ht.tail hs, .refl, hnew.symm⟩

variable (level mark) in
/-- **The mark is the greatest level on the way.** -/
theorem isGreatest_mark (h : ReflTransGen r s0 s) : IsGreatest (Levels r level s0 s) (mark s) := by
  refine ⟨exists_level h0 hstep h, ?_⟩
  rintro n ⟨t, ht, hts, rfl⟩
  exact Nat.le_trans (level_le h0 hstep ht) (mark_mono h0 hstep ht hts)

end

end HighWater
