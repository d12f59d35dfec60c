import DagExec.Lib.WhileLoop
import Mathlib.Data.List.Forall2

/-!
# What running Rust code can give

A call returns `Ok`, returns `Err`, panics, or never returns. Indexing, subtraction and `debug_assert!` are modelled as
in a debug build: an index out of bounds, an underflow and a failed assertion panic.
-/

namespace DagExec

open WhileLoop

/-- Why a thread panicked. -/
inductive Panic
  | indexOutOfBounds
  | subtractOverflow
  | debugAssert (text : String)
  | taskPanicked
  deriving DecidableEq, Repr

/-- The outcome of running code of type `Result<α, ε>`. -/
inductive Outcome (ε α : Type)
  | ok (a : α)
  | err (e : ε)
  | panic (p : Panic)
  | diverge

namespace Outcome

variable {ε α β γ : Type}

/-- The `?` operator; a panic and divergence pass through it. -/
def bind (o : Outcome ε α) (f : α → Outcome ε β) : Outcome ε β :=
  match o with
  | ok a => f a
  | err e => err e
  | panic p => panic p
  | diverge => diverge

instance : Monad (Outcome ε) where
  pure := ok
  bind := bind

@[simp] theorem pure_eq (a : α) : (pure a : Outcome ε α) = ok a := rfl
@[simp] theorem ok_bind (a : α) (f : α → Outcome ε β) : (ok a >>= f) = f a := rfl
@[simp] theorem err_bind (e : ε) (f : α → Outcome ε β) : (err e >>= f) = err e := rfl
@[simp] theorem panic_bind (p : Panic) (f : α → Outcome ε β) : ((panic p : Outcome ε α) >>= f) = panic p := rfl
@[simp] theorem diverge_bind (f : α → Outcome ε β) : ((diverge : Outcome ε α) >>= f) = diverge := rfl

instance : LawfulMonad (Outcome ε) :=
  LawfulMonad.mk' _ (fun x => by cases x <;> rfl) (fun _ _ => rfl) (fun x _ _ => by cases x <;> rfl)

/-- What a successful computation did: both of its parts succeeded. -/
theorem bind_eq_ok {o : Outcome ε α} {f : α → Outcome ε β} {b : β} :
    (o >>= f) = ok b ↔ ∃ a, o = ok a ∧ f a = ok b := by
  cases o <;> simp

/-- A loop that maps a fallible function succeeds exactly when each call does. -/
theorem mapM_eq_ok {f : α → Outcome ε β} {xs : List α} {ys : List β} :
    xs.mapM f = ok ys ↔ List.Forall₂ (fun x y => f x = ok y) xs ys := by
  induction xs generalizing ys with
  | nil => simp [List.mapM_nil, eq_comm]
  | cons x xs ih =>
    simp only [List.mapM_cons, bind_eq_ok, pure_eq, ok.injEq]
    constructor
    · rintro ⟨y, hy, ys', hys, rfl⟩
      exact .cons hy (ih.mp hys)
    · rintro (_ | ⟨hy, hys⟩)
      exact ⟨_, hy, _, ih.mpr hys, rfl⟩

theorem bind_eq_err {o : Outcome ε α} {f : α → Outcome ε β} {e : ε} :
    (o >>= f) = err e ↔ o = err e ∨ ∃ a, o = ok a ∧ f a = err e := by
  cases o <;> simp

theorem bind_eq_panic {o : Outcome ε α} {f : α → Outcome ε β} {p : Panic} :
    (o >>= f) = panic p ↔ o = panic p ∨ ∃ a, o = ok a ∧ f a = panic p := by
  cases o <;> simp

/-- Such a loop fails at the first element the function fails on. -/
theorem mapM_eq_err {f : α → Outcome ε β} {xs : List α} {e : ε} : xs.mapM f = err e ↔
    ∃ pre x post, xs = pre ++ x :: post ∧ (∀ y ∈ pre, ∃ b, f y = ok b) ∧ f x = err e := by
  induction xs with
  | nil => simp [List.mapM_nil]
  | cons x xs ih =>
    simp only [List.mapM_cons, bind_eq_err, pure_eq, reduceCtorEq, and_false, exists_false, or_false, ih]
    constructor
    · rintro (hx | ⟨b, hb, pre, y, post, rfl, hpre, hy⟩)
      · exact ⟨[], x, xs, rfl, nofun, hx⟩
      · refine ⟨x :: pre, y, post, rfl, fun z hz => ?_, hy⟩
        rcases List.mem_cons.mp hz with rfl | hz
        · exact ⟨b, hb⟩
        · exact hpre z hz
    · rintro ⟨pre, y, post, hsplit, hpre, hy⟩
      cases pre with
      | nil =>
        cases hsplit
        exact .inl hy
      | cons z pre =>
        cases hsplit
        obtain ⟨b, hb⟩ := hpre x List.mem_cons_self
        exact .inr ⟨b, hb, pre, y, post, rfl, fun z hz => hpre z (List.mem_cons_of_mem _ hz), hy⟩

/-- It returns when each call does. -/
theorem mapM_returns {f : α → Outcome ε β} {xs : List α} (h : ∀ x ∈ xs, (∃ b, f x = ok b) ∨ ∃ e, f x = err e) :
    (∃ ys, xs.mapM f = ok ys) ∨ ∃ e, xs.mapM f = err e := by
  induction xs with
  | nil => exact .inl ⟨[], List.mapM_nil⟩
  | cons x xs ih =>
    rw [List.mapM_cons]
    rcases h x List.mem_cons_self with ⟨b, hb⟩ | ⟨e, he⟩
    · rcases ih fun y hy => h y (List.mem_cons_of_mem _ hy) with ⟨ys, hys⟩ | ⟨e, he⟩
      · exact .inl ⟨b :: ys, by rw [hb, ok_bind, hys, ok_bind, pure_eq]⟩
      · exact .inr ⟨e, by rw [hb, ok_bind, he, err_bind]⟩
    · exact .inr ⟨e, by rw [he, err_bind]⟩

/-- It succeeds when each call does. -/
theorem mapM_ok_iff {f : α → Outcome ε β} {xs : List α} : (∃ ys, xs.mapM f = ok ys) ↔ ∀ x ∈ xs, ∃ b, f x = ok b := by
  constructor
  · rintro ⟨ys, hys⟩ x hx
    rw [mapM_eq_ok] at hys
    induction hys with
    | nil => cases hx
    | cons hy _ ih =>
      rcases List.mem_cons.mp hx with rfl | hx
      · exact ⟨_, hy⟩
      · exact ih hx
  · intro h
    rcases mapM_returns fun x hx => .inl (h x hx) with hok | ⟨e, he⟩
    · exact hok
    · obtain ⟨pre, x, post, rfl, -, hx⟩ := mapM_eq_err.mp he
      obtain ⟨b, hb⟩ := h x (by simp)
      rw [hx] at hb
      cases hb

/-- A loop whose accumulator is seen through a function. -/
theorem foldlM_seen {f : β → γ} {body : β → α → Outcome ε β} {body' : γ → α → Outcome ε γ}
    (h : ∀ acc x, body' (f acc) x = f <$> body acc x) (xs : List α) (acc : β) :
    xs.foldlM body' (f acc) = f <$> xs.foldlM body acc := by
  induction xs generalizing acc with
  | nil => rfl
  | cons x xs ih =>
    rw [List.foldlM_cons, List.foldlM_cons, h]
    cases body acc x with
    | ok acc' => exact ih acc'
    | _ => rfl

/-- `opt.ok_or_else(|| e)`. -/
def okOr (o : Option α) (e : ε) : Outcome ε α :=
  match o with
  | some a => ok a
  | none => err e

/-- A loop body with `?` in it: it runs again from the new state, or leaves the function. -/
def andThen {σ ρ : Type} (o : Outcome ε σ) : Ctl σ (Outcome ε ρ) :=
  match o with
  | ok s => .next s
  | err e => .done (err e)
  | panic p => .done (panic p)
  | diverge => .done diverge

/-- `while`. -/
def whileLoop {σ ρ : Type} (body : σ → Ctl σ (Outcome ε ρ)) (s : σ) : Outcome ε ρ := (loop body s).getD diverge

theorem whileLoop_of_within {σ ρ : Type} {body : σ → Ctl σ (Outcome ε ρ)} {n : Nat} {s : σ} {o : Outcome ε ρ}
    (h : within body n s = some o) : whileLoop body s = o := by
  rw [whileLoop, loop_of_within h]
  rfl

/-- `xs[i]`. -/
def index (xs : List α) (i : Nat) : Outcome ε α :=
  match xs[i]? with
  | some a => ok a
  | none => panic .indexOutOfBounds

/-- `xs[i] = a`. -/
def store (xs : List α) (i : Nat) (a : α) : Outcome ε (List α) :=
  if i < xs.length then ok (xs.set i a) else panic .indexOutOfBounds

/-- `result.is_ok()`. -/
def isOk : Outcome ε α → Bool
  | ok _ => true
  | _ => false

/-- `n - 1` on an unsigned integer. -/
def decrement (n : Nat) : Outcome ε Nat := if n = 0 then panic .subtractOverflow else ok (n - 1)

/-- `debug_assert!(b)`, named by the text of its condition. -/
def debugAssert (b : Bool) (text : String) : Outcome ε Unit := if b then ok () else panic (.debugAssert text)

@[simp] theorem index_eq_ok {xs : List α} {i : Nat} {a : α} :
    (index xs i : Outcome ε α) = ok a ↔ xs[i]? = some a := by
  unfold index; split <;> simp_all

@[simp] theorem okOr_eq_ok {o : Option α} {e : ε} {a : α} : okOr o e = ok a ↔ o = some a := by
  cases o <;> simp [okOr]

@[simp] theorem okOr_eq_err {o : Option α} {e e' : ε} : okOr o e = err e' ↔ o = none ∧ e = e' := by
  cases o <;> simp [okOr]

theorem okOr_returns (o : Option α) (e : ε) : (∃ a, okOr o e = ok a) ∨ ∃ e', okOr o e = err e' := by
  cases o with
  | some a => exact .inl ⟨a, rfl⟩
  | none => exact .inr ⟨e, rfl⟩

@[simp] theorem store_eq_ok {xs ys : List α} {i : Nat} {a : α} :
    (store xs i a : Outcome ε (List α)) = ok ys ↔ i < xs.length ∧ xs.set i a = ys := by
  unfold store
  split <;> simp_all

theorem index_of_get {xs : List α} {i : Nat} {a : α} (h : xs[i]? = some a) : (index xs i : Outcome ε α) = ok a :=
  index_eq_ok.mpr h

theorem store_of_lt {xs : List α} {i : Nat} (a : α) (h : i < xs.length) :
    (store xs i a : Outcome ε (List α)) = ok (xs.set i a) := if_pos h

end Outcome

end DagExec
