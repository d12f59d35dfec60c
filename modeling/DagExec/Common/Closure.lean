import DagExec.Model.Common
import DagExec.Spec.Reference
import Mathlib.Order.WellFounded
import Mathlib.Order.Bounds.Basic
import Mathlib.Data.Prod.Lex

/-!
# `mark_needed` computes the dependency closure

The invariant of the marking loop: only needed nodes are marked or stacked, every requested node is marked or stacked,
and so is every dependency of a marked node. Each iteration marks a node or shortens the stack. So the loop ends with the
closure marked (`mark_needed_exact`).
-/

namespace DagExec

open Outcome WhileLoop DepGraph

variable {K O E ω : Type}

/-- The `i`-th flag of a mask. -/
def flag (mask : List Bool) (i : NodeId) : Bool := mask[i]?.getD false

theorem flag_eq_true {mask : List Bool} {i : NodeId} : flag mask i = true ↔ mask[i]? = some true := by
  unfold flag
  cases mask[i]? <;> simp

theorem flag_set {mask : List Bool} {i j : NodeId} {b : Bool} (hi : i < mask.length) :
    flag (mask.set i b) j = if j = i then b else flag mask j := by
  unfold flag
  rw [List.getElem?_set]
  by_cases h : j = i
  · subst h; simp [hi]
  · simp [h, Ne.symm h]

section

variable {dag : Dag K O E ω} {outs : List K}

/-- The invariant at the top of the marking loop. -/
structure Marking (dag : Dag K O E ω) (outs : List K) (s : List Bool × List NodeId) : Prop where
  length : s.1.length = dag.nodes.length
  marked : ∀ i, flag s.1 i = true → dag.Needed outs i
  stacked : ∀ i ∈ s.2, dag.Needed outs i
  root : ∀ i ∈ dag.Requested outs, flag s.1 i = true ∨ i ∈ s.2
  expanded : ∀ i, flag s.1 i = true → ∀ d ∈ dag.depsOf i, flag s.1 d = true ∨ d ∈ s.2

/-- What one iteration does: the popped node was marked already, or it is marked and its dependencies are pushed. -/
theorem markBody_cons {needed : List Bool} {id : NodeId} {stack : List NodeId}
    (hlen : needed.length = dag.nodes.length) (hid : id < dag.nodes.length) :
    markBody dag (needed, id :: stack) = .next (if flag needed id then (needed, stack)
      else (needed.set id true, (dag.depsOf id).reverse ++ stack)) := by
  have hget : needed[id]? = some (flag needed id) := by
    simp [flag, List.getElem?_eq_getElem (hlen ▸ hid)]
  have hnode := List.getElem?_eq_getElem hid
  simp only [markBody, index_of_get hget, ok_bind]
  cases flag needed id with
  | true => rfl
  | false =>
    simp only [Bool.false_eq_true, if_false, store_of_lt true (hlen ▸ hid : id < needed.length), ok_bind,
      index_of_get hnode, Dag.depsOf_of_get hnode, pure_eq]
    rfl

/-- An iteration keeps the invariant. -/
theorem Marking.step {needed : List Bool} {id : NodeId} {stack : List NodeId}
    (h : Marking dag outs (needed, id :: stack)) :
    Marking dag outs (if flag needed id then (needed, stack)
      else (needed.set id true, (dag.depsOf id).reverse ++ stack)) := by
  obtain ⟨hlen, hmarked, hstacked, hroot, hexp⟩ := h
  simp only at hlen hmarked hstacked hroot hexp
  have hid : dag.Needed outs id := hstacked id List.mem_cons_self
  cases hf : flag needed id with
  | true =>
    -- `id` is marked, so leaving the stack loses nothing
    have hkeep : ∀ i, flag needed i = true ∨ i ∈ id :: stack → flag needed i = true ∨ i ∈ stack := by
      rintro i (hi | hi)
      · exact .inl hi
      · rcases List.mem_cons.mp hi with rfl | hi
        · exact .inl hf
        · exact .inr hi
    exact ⟨hlen, hmarked, fun i hi => hstacked i (List.mem_cons_of_mem _ hi), fun i hi => hkeep i (hroot i hi),
      fun i hi d hd => hkeep d (hexp i hi d hd)⟩
  | false =>
    have hset : ∀ j, flag (needed.set id true) j = if j = id then true else flag needed j :=
      fun j => flag_set (hlen ▸ hid.lt)
    simp only [Bool.false_eq_true, if_false]
    have hkeep : ∀ i, flag needed i = true ∨ i ∈ id :: stack →
        flag (needed.set id true) i = true ∨ i ∈ (dag.depsOf id).reverse ++ stack := by
      intro i hi
      rw [hset]
      by_cases hii : i = id
      · exact .inl (if_pos hii)
      · rcases hi with hi | hi
        · exact .inl (by rw [if_neg hii]; exact hi)
        · rcases List.mem_cons.mp hi with rfl | hi
          · exact absurd rfl hii
          · exact .inr (List.mem_append.mpr (.inr hi))
    refine ⟨by simp [hlen], fun i hi => ?_, fun i hi => ?_, fun i hi => hkeep i (hroot i hi), fun i hi d hd => ?_⟩
    · rw [hset] at hi
      by_cases hii : i = id
      · exact hii ▸ hid
      · rw [if_neg hii] at hi; exact hmarked i hi
    · rcases List.mem_append.mp hi with hi | hi
      · exact hid.dep (List.mem_reverse.mp hi)
      · exact hstacked i (List.mem_cons_of_mem _ hi)
    · rw [hset] at hi
      by_cases hii : i = id
      · subst hii
        exact .inr (List.mem_append.mpr (.inl (List.mem_reverse.mpr hd)))
      · rw [if_neg hii] at hi; exact hkeep d (hexp i hi d hd)

/-- The unmarked nodes, then the stack. -/
def markMeasure (s : List Bool × List NodeId) : Nat × Nat := (s.1.count false, s.2.length)

theorem markMeasure_lt {needed : List Bool} {id : NodeId} {stack : List NodeId} (hid : id < needed.length)
    (ds : List NodeId) : Prod.Lex (· < ·) (· < ·) (markMeasure (if flag needed id then (needed, stack)
      else (needed.set id true, ds))) (markMeasure (needed, id :: stack)) := by
  cases hf : flag needed id with
  | true => exact .right _ (by simp)
  | false =>
    refine .left _ _ ?_
    have hget : needed[id] = false := by simpa [flag, List.getElem?_eq_getElem hid] using hf
    have hpos : 0 < needed.count false := List.count_pos_iff.mpr (hget ▸ List.getElem_mem hid)
    simp only [Bool.false_eq_true, if_false]
    have hcount : (needed.set id true).count false = needed.count false - 1 := by simp [List.count_set hid, hget]
    show (needed.set id true).count false < needed.count false
    omega

theorem Marking.next {s s' : List Bool × List NodeId} (h : Marking dag outs s) (hb : markBody dag s = .next s') :
    Marking dag outs s' ∧ Prod.Lex (· < ·) (· < ·) (markMeasure s') (markMeasure s) := by
  obtain ⟨needed, stack⟩ := s
  cases stack with
  | nil => simp [markBody] at hb
  | cons id stack =>
    have hid := (h.stacked id List.mem_cons_self).lt
    rw [markBody_cons h.length hid] at hb
    cases hb
    exact ⟨h.step, markMeasure_lt (h.length ▸ hid) _⟩

/-- When the stack is empty the marked nodes are the needed ones: they contain the requested nodes and are closed
under dependencies, and the closure is the least such set. -/
theorem Marking.done {s : List Bool × List NodeId} {o : Outcome (ExecError K E) (List Bool)} (h : Marking dag outs s)
    (hb : markBody dag s = .done o) : ∃ needed, o = ok needed ∧ needed.length = dag.nodes.length ∧
      ∀ i, flag needed i = true ↔ dag.Needed outs i := by
  obtain ⟨needed, stack⟩ := s
  cases stack with
  | nil =>
    simp only [markBody] at hb
    cases hb
    refine ⟨needed, rfl, h.length, fun i => ⟨h.marked i, fun hi => ?_⟩⟩
    exact Closure.least (T := { i | flag needed i = true }) (fun i hi => by simpa using h.root i hi)
      (fun i hi d hd => by simpa using h.expanded i hi d hd) hi
  | cons id stack =>
    rw [markBody_cons h.length (h.stacked id List.mem_cons_self).lt] at hb
    cases hb

/-- The requested keys are looked up when they exist. -/
theorem lookups_ok_iff :
    (∃ ids, outs.mapM (fun k => okOr (dag.index.get k) (ExecError.outputMissing k : ExecError K E)) = ok ids) ↔
      dag.KeysExist outs := by
  simp only [mapM_ok_iff, okOr_eq_ok]
  exact Iff.rfl

/-- With all keys present, marking ends and marks exactly the needed nodes. -/
theorem markNeeded_ok (h : dag.KeysExist outs) : ∃ needed, markNeeded dag outs = .ok needed ∧
    needed.length = dag.nodes.length ∧ ∀ i, flag needed i = true ↔ dag.Needed outs i := by
  obtain ⟨ids, hmap⟩ := lookups_ok_iff.mpr h
  have hids : List.Forall₂ (fun k i => dag.index.get k = some i) outs ids := by
    simpa only [okOr_eq_ok] using mapM_eq_ok.mp hmap
  have hstart : Marking dag outs (List.replicate dag.nodes.length false, ids.reverse) := by
    have hnone : ∀ i, flag (List.replicate dag.nodes.length false) i = false := fun i => by
      unfold flag
      rw [List.getElem?_replicate]
      split <;> rfl
    refine ⟨by simp, fun i hi => by simp [hnone] at hi, fun i hi => ?_, fun i hi => .inr ?_,
      fun i hi => by simp [hnone] at hi⟩
    · obtain ⟨k, hk, hki⟩ := ListFacts.forall₂_mem_right hids (List.mem_reverse.mp hi)
      exact Closure.base ⟨k, hk, hki⟩
    · obtain ⟨k, hk, hki⟩ := hi
      obtain ⟨i', hi', hki'⟩ := ListFacts.forall₂_mem_right hids.flip hk
      rw [hki] at hki'
      cases hki'
      exact List.mem_reverse.mpr hi'
  obtain ⟨o, ho, hq⟩ := loop_total (wellFounded_lt.prod_lex wellFounded_lt) markMeasure
    (fun _ _ hs hb => hs.next (E := E) hb) (fun _ _ hs hb => hs.done (E := E) hb) _ hstart
  obtain ⟨needed, rfl, hn⟩ := hq
  refine ⟨needed, ?_, hn⟩
  rw [markNeeded, hmap, ok_bind, whileLoop, ho]
  rfl

/-- With a key missing, the first missing one is reported. -/
theorem markNeeded_missing (h : ¬ dag.KeysExist outs) : ∃ pre k post, outs = pre ++ k :: post ∧
    dag.KeysExist pre ∧ dag.index.get k = none ∧ markNeeded dag outs = .err (.outputMissing k) := by
  rw [← lookups_ok_iff] at h
  rcases mapM_returns fun k (_ : k ∈ outs) => okOr_returns (dag.index.get k) (ExecError.outputMissing k : ExecError K E)
    with hok | ⟨e, he⟩
  · exact absurd hok h
  · obtain ⟨pre, k, post, hsplit, hpre, hk⟩ := mapM_eq_err.mp he
    obtain ⟨hnone, rfl⟩ := okOr_eq_err.mp hk
    exact ⟨pre, k, post, hsplit, lookups_ok_iff.mp (mapM_ok_iff.mpr hpre), hnone, by rw [markNeeded, he, err_bind]⟩

/-- With a key missing is the only way to fail. -/
theorem markNeeded_err_iff {k : K} : markNeeded dag outs = .err (.outputMissing k : ExecError K E) ↔
    ∃ pre post, outs = pre ++ k :: post ∧ dag.KeysExist pre ∧ dag.index.get k = none := by
  constructor
  · intro h
    have hmiss : ¬ dag.KeysExist outs := fun hk => by
      obtain ⟨needed, hok, -⟩ := markNeeded_ok hk
      rw [h] at hok
      cases hok
    obtain ⟨pre, k', post, hsplit, hpre, hk', herr⟩ := markNeeded_missing hmiss
    rw [h] at herr
    cases herr
    exact ⟨pre, post, hsplit, hpre, hk'⟩
  · rintro ⟨pre, post, rfl, hpre, hk⟩
    have hmiss : ¬ dag.KeysExist (pre ++ k :: post) := fun hall => by
      obtain ⟨i, hi⟩ := hall k (by simp)
      rw [hk] at hi
      cases hi
    obtain ⟨pre', k', post', hsplit, hpre', hk', herr⟩ := markNeeded_missing hmiss
    have hne : ∀ {x}, dag.index.get x = none → ¬ ∃ i, dag.index.get x = some i := fun hx => by simp [hx]
    have hfirst : k = k' := ListFacts.first_unique hsplit hpre (hne hk) hpre' (hne hk')
    rw [herr, hfirst]

end

/-- **`mark_needed` computes exactly the dependency closure.** It returns for every request. It fails exactly when a key
is absent, naming the first one; otherwise a node is marked exactly when some requested node reaches it, so the marked
nodes are the least set that contains the requested ones and is closed under dependencies. -/
theorem mark_needed_exact (dag : Dag K O E ω) (outs : List K) :
    ((∃ needed, markNeeded dag outs = ok needed) ∨ ∃ k, markNeeded dag outs = err (.outputMissing k)) ∧
    ((∃ k, markNeeded dag outs = err (.outputMissing k)) ↔ ∃ k ∈ outs, dag.index.get k = none) ∧
    (∀ k, markNeeded dag outs = err (.outputMissing k) ↔
      ∃ pre post, outs = pre ++ k :: post ∧ dag.KeysExist pre ∧ dag.index.get k = none) ∧
    ∀ needed, markNeeded dag outs = ok needed → needed.length = dag.nodes.length ∧
      (∀ i : NodeId, needed[i]? = some true ↔ ∃ s ∈ dag.Requested outs, Reaches dag.depsOf s i) ∧
      IsLeast { T : Set NodeId | dag.Requested outs ⊆ T ∧ ∀ i ∈ T, ∀ d ∈ dag.depsOf i, d ∈ T }
        { i | needed[i]? = some true } := by
  refine ⟨?_, ⟨?_, ?_⟩, fun k => markNeeded_err_iff, fun needed hok => ?_⟩
  · by_cases hkeys : dag.KeysExist outs
    · obtain ⟨needed, hok, -⟩ := markNeeded_ok hkeys
      exact .inl ⟨needed, hok⟩
    · obtain ⟨pre, k, post, -, -, -, herr⟩ := markNeeded_missing hkeys
      exact .inr ⟨k, herr⟩
  · rintro ⟨k, herr⟩
    obtain ⟨pre, post, rfl, -, hk⟩ := markNeeded_err_iff.mp herr
    exact ⟨k, by simp, hk⟩
  · rintro ⟨k, hmem, hk⟩
    have hmiss : ¬ dag.KeysExist outs := fun hall => by
      obtain ⟨i, hi⟩ := hall k hmem
      rw [hk] at hi
      cases hi
    obtain ⟨pre, k', post, -, -, -, herr⟩ := markNeeded_missing hmiss
    exact ⟨k', herr⟩
  · have hkeys : dag.KeysExist outs := by
      by_contra hmiss
      obtain ⟨pre, k, post, -, -, -, herr⟩ := markNeeded_missing hmiss
      rw [hok] at herr
      cases herr
    obtain ⟨needed', hok', hlen, hneeded⟩ := markNeeded_ok hkeys
    rw [hok] at hok'
    cases hok'
    have hmarked : { i : NodeId | needed[i]? = some true } = Closure dag.depsOf (dag.Requested outs) := Set.ext fun i =>
      flag_eq_true.symm.trans (hneeded i)
    refine ⟨hlen, fun i => Set.ext_iff.mp hmarked i, ?_⟩
    rw [hmarked]
    exact ⟨⟨fun i hi => Closure.base hi, fun i hi d hd => Closure.dep hi hd⟩, fun T hT => Closure.least hT.1 hT.2⟩

end DagExec
