import Mathlib.Order.WellFounded

/-!
# While loops with a break

A loop body takes the loop's state to the next state or ends the loop with a result. `loop body s` is the result of
the loop entered at `s`, or `none` when the loop never ends: no fuel, no bound. `loop_total` is the rule for it: a loop
that keeps an invariant and decreases a measure ends, with a result the last iteration allows. `within` computes the
result of a loop that ends within a number of iterations (`loop_of_within`).
-/

namespace WhileLoop

variable {σ ρ : Type}

/-- What one iteration does: continue with a new state, or leave the loop with a result. -/
inductive Ctl (σ ρ : Type)
  | next (s : σ)
  | done (r : ρ)

def Ctl.map {σ' ρ' : Type} (f : σ → σ') (g : ρ → ρ') : Ctl σ ρ → Ctl σ' ρ'
  | .next s => .next (f s)
  | .done r => .done (g r)

/-- The result of a loop that goes on with `c`, `none` when it never ends. -/
def Ctl.run (body : σ → Ctl σ ρ) (c : Ctl σ ρ) : Option ρ :=
  match c with
  | .next s => body s |>.run body
  | .done r => some r
partial_fixpoint

/-- The result of the loop entered at `s`. -/
def loop (body : σ → Ctl σ ρ) (s : σ) : Option ρ := (body s).run body

variable {body : σ → Ctl σ ρ}

theorem loop_next {s s' : σ} (h : body s = .next s') : loop body s = loop body s' := by
  rw [loop, h, Ctl.run, loop]

theorem loop_done {s : σ} {r : ρ} (h : body s = .done r) : loop body s = some r := by
  rw [loop, h, Ctl.run]

/-- **Total correctness**: an invariant, a measure that decreases, and what the last iteration returns. -/
theorem loop_total {β : Type} {r : β → β → Prop} (hr : WellFounded r) {I : σ → Prop} {Q : ρ → Prop} (μ : σ → β)
    (hnext : ∀ s s', I s → body s = .next s' → I s' ∧ r (μ s') (μ s)) (hdone : ∀ s a, I s → body s = .done a → Q a) :
    ∀ s, I s → ∃ a, loop body s = some a ∧ Q a := by
  intro s
  induction hs : μ s using hr.induction generalizing s with
  | _ m ih =>
    subst hs
    intro h
    cases hb : body s with
    | done a => exact ⟨a, loop_done hb, hdone s a h hb⟩
    | next s' =>
      obtain ⟨h', hlt⟩ := hnext s s' h hb
      obtain ⟨a, ha, hq⟩ := ih (μ s') hlt s' rfl h'
      exact ⟨a, (loop_next hb).trans ha, hq⟩

/-- The result of the loop if it ends within that many iterations. -/
def within (body : σ → Ctl σ ρ) : ℕ → σ → Option ρ
  | 0, _ => none
  | n + 1, s =>
    match body s with
    | .next s' => within body n s'
    | .done r => some r

theorem loop_of_within {n : ℕ} {s : σ} {r : ρ} (h : within body n s = some r) : loop body s = some r := by
  induction n generalizing s with
  | zero => cases h
  | succ n ih =>
    cases hb : body s with
    | next s' =>
      simp only [within, hb] at h
      rw [loop_next hb, ih h]
    | done a =>
      simp only [within, hb] at h
      rw [loop_done hb, h]

/-! ## The states at the top of the loop -/

/-- The states an execution of the loop comes to. -/
inductive Visits (body : σ → Ctl σ ρ) (s0 : σ) : σ → Prop
  | start : Visits body s0 s0
  | next {s s' : σ} (h : Visits body s0 s) (hb : body s = .next s') : Visits body s0 s'

namespace Visits

variable {s0 s : σ}

theorem loop_eq (h : Visits body s0 s) : loop body s0 = loop body s := by
  induction h with
  | start => rfl
  | next _ hb ih => rw [ih, loop_next hb]

/-- What holds at the start and is kept by each iteration holds at every state the loop comes to. -/
theorem invariant {I : σ → Prop} (h : Visits body s0 s) (h0 : I s0)
    (hnext : ∀ s s', Visits body s0 s → I s → body s = .next s' → I s') : I s := by
  induction h with
  | start => exact h0
  | next hv hb ih => exact hnext _ _ hv ih hb

/-- A loop seen through a function on its states is a loop that comes to the states seen through it. -/
theorem map {σ' ρ' : Type} {body' : σ' → Ctl σ' ρ'} {f : σ → σ'} {g : ρ → ρ'}
    (hbody : ∀ s, body' (f s) = (body s).map f g) (h : Visits body s0 s) : Visits body' (f s0) (f s) := by
  induction h with
  | start => exact .start
  | next _ hb ih => exact ih.next (by rw [hbody, hb, Ctl.map])

end Visits

/-- A loop that ends does so at one of the states it comes to. -/
theorem exists_last {β : Type} {r : β → β → Prop} (hr : WellFounded r) {I : σ → Prop} (μ : σ → β) {s0 : σ} (h0 : I s0)
    (hnext : ∀ s s', I s → body s = .next s' → I s' ∧ r (μ s') (μ s)) :
    ∃ s a, Visits body s0 s ∧ body s = .done a ∧ loop body s0 = some a := by
  obtain ⟨a, ha, s, hv, hb⟩ := loop_total hr (I := fun s => I s ∧ Visits body s0 s)
    (Q := fun a => ∃ s, Visits body s0 s ∧ body s = .done a) μ
    (fun s s' hs hb => ⟨⟨(hnext s s' hs.1 hb).1, hs.2.next hb⟩, (hnext s s' hs.1 hb).2⟩)
    (fun s a hs hb => ⟨s, hs.2, hb⟩) s0 ⟨h0, .start⟩
  exact ⟨s, a, hv, hb, ha⟩

end WhileLoop
