import DagExec.Lib.DepGraph
import Mathlib.Data.List.Basic

/-!
# Logs of dependent activities

Each activity becomes ready, starts and finishes; a log notes these moments as they come. `Lawful deps log`: nothing is
noted twice, an activity starts after it was ready and finishes after it started, and it becomes ready only after all
its dependencies have finished. Times are positions in the log.

- `Lawful.ready_lt_start`, `Lawful.start_lt_finish`, `Lawful.finish_lt_ready`: the order of the moments;
- `Lawful.starts_nodup`, `Lawful.starts_topological`: the activities in the order they started, dependencies first.
-/

namespace Lifecycle

inductive Phase
  | ready
  | start
  | finish

variable {ι : Type} {deps : ι → List ι}

/-- What may be noted after the given log. -/
def Allowed (deps : ι → List ι) (log : List (Phase × ι)) : Phase × ι → Prop
  | (.ready, i) => (.ready, i) ∉ log ∧ ∀ d ∈ deps i, (.finish, d) ∈ log
  | (.start, i) => (.start, i) ∉ log ∧ (.ready, i) ∈ log
  | (.finish, i) => (.finish, i) ∉ log ∧ (.start, i) ∈ log

inductive Lawful (deps : ι → List ι) : List (Phase × ι) → Prop
  | nil : Lawful deps []
  | snoc {log : List (Phase × ι)} {e : Phase × ι} (h : Lawful deps log) (ha : Allowed deps log e) :
      Lawful deps (log ++ [e])

theorem Allowed.fresh {log : List (Phase × ι)} {e : Phase × ι} (h : Allowed deps log e) : e ∉ log := by
  obtain ⟨phase, i⟩ := e
  cases phase <;> exact h.1

namespace Lawful

variable {log : List (Phase × ι)}

theorem snoc_inv {e : Phase × ι} (h : Lawful deps (log ++ [e])) : Lawful deps log ∧ Allowed deps log e := by
  generalize hlog : log ++ [e] = log' at h
  cases h with
  | nil => simp at hlog
  | snoc h ha =>
    obtain ⟨rfl, he⟩ := List.append_inj' hlog rfl
    cases he
    exact ⟨h, ha⟩

/-- What is noted at a position was allowed there. -/
theorem allowed (h : Lawful deps log) {p : ℕ} {e : Phase × ι} (hp : log[p]? = some e) :
    Allowed deps (log.take p) e := by
  induction h with
  | nil => cases hp
  | @snoc log e' _ ha ih =>
    have hlt : p < log.length + 1 := by simpa using (List.getElem?_eq_some_iff.mp hp).1
    rcases Nat.lt_succ_iff_lt_or_eq.mp hlt with hold | rfl
    · rw [List.getElem?_append_left hold] at hp
      rw [List.take_append_of_le_length (Nat.le_of_lt hold)]
      exact ih hp
    · rw [List.getElem?_concat_length, Option.some.injEq] at hp
      subst hp
      rw [List.take_left']
      · exact ha
      · rfl

/-- What is in the first `p` entries has a position before `p`. -/
theorem exists_lt_of_mem_take {e : Phase × ι} {p : ℕ} (h : e ∈ log.take p) : ∃ q < p, log[q]? = some e := by
  obtain ⟨q, hq⟩ := List.getElem?_of_mem h
  have hlt : q < p := by
    have := (List.getElem?_eq_some_iff.mp hq).1
    rw [List.length_take] at this
    omega
  rw [List.getElem?_take_of_lt hlt] at hq
  exact ⟨q, hlt, hq⟩

theorem mem_take_of_lt {e : Phase × ι} {p q : ℕ} (h : log[q]? = some e) (hlt : q < p) : e ∈ log.take p := by
  rw [← List.getElem?_take_of_lt hlt] at h
  exact List.mem_of_getElem? h

/-- Nothing is noted twice. -/
theorem position_unique (h : Lawful deps log) {e : Phase × ι} {p q : ℕ} (hp : log[p]? = some e)
    (hq : log[q]? = some e) : p = q := by
  rcases Nat.lt_trichotomy p q with hlt | heq | hlt
  · exact absurd (mem_take_of_lt hp hlt) (h.allowed hq).fresh
  · exact heq
  · exact absurd (mem_take_of_lt hq hlt) (h.allowed hp).fresh

theorem ready_lt_start (h : Lawful deps log) {i : ι} {p q : ℕ} (hp : log[p]? = some (.ready, i))
    (hq : log[q]? = some (.start, i)) : p < q := by
  obtain ⟨p', hlt, hp'⟩ := exists_lt_of_mem_take (h.allowed hq).2
  rw [h.position_unique hp hp']
  exact hlt

theorem start_lt_finish (h : Lawful deps log) {i : ι} {p q : ℕ} (hp : log[p]? = some (.start, i))
    (hq : log[q]? = some (.finish, i)) : p < q := by
  obtain ⟨p', hlt, hp'⟩ := exists_lt_of_mem_take (h.allowed hq).2
  rw [h.position_unique hp hp']
  exact hlt

/-- A dependency has finished before. -/
theorem finish_lt_ready (h : Lawful deps log) {i d : ι} (hd : d ∈ deps i) {p q : ℕ} (hp : log[p]? = some (.finish, d))
    (hq : log[q]? = some (.ready, i)) : p < q := by
  obtain ⟨p', hlt, hp'⟩ := exists_lt_of_mem_take ((h.allowed hq).2 d hd)
  rw [h.position_unique hp hp']
  exact hlt

theorem start_of_finish (h : Lawful deps log) {i : ι} (hi : (.finish, i) ∈ log) : (.start, i) ∈ log := by
  obtain ⟨p, hp⟩ := List.getElem?_of_mem hi
  exact List.mem_of_mem_take (h.allowed hp).2

end Lawful

/-- Several activities become ready one after the other. -/
theorem Lawful.readys {log : List (Phase × ι)} (h : Lawful deps log) {ids : List ι} (hnd : ids.Nodup)
    (hids : ∀ i ∈ ids, Allowed deps log (.ready, i)) : Lawful deps (log ++ ids.map fun i => (.ready, i)) := by
  induction ids generalizing log with
  | nil => rwa [List.map_nil, List.append_nil]
  | cons i ids ih =>
    obtain ⟨hi, hnd⟩ := List.nodup_cons.mp hnd
    rw [List.map_cons, List.append_cons]
    refine ih (h.snoc (hids i List.mem_cons_self)) hnd fun j hj => ?_
    obtain ⟨hfresh, hdeps⟩ := hids j (List.mem_cons_of_mem _ hj)
    refine ⟨fun hmem => ?_, fun d hd => List.mem_append_left _ (hdeps d hd)⟩
    rcases List.mem_append.mp hmem with hold | hnew
    · exact hfresh hold
    · cases List.mem_singleton.mp hnew
      exact hi hj

/-! ## The activities in the order they started -/

def started : Phase × ι → Option ι
  | (.start, i) => some i
  | _ => none

theorem mem_starts {log : List (Phase × ι)} {i : ι} : i ∈ log.filterMap started ↔ (.start, i) ∈ log := by
  rw [List.mem_filterMap]
  constructor
  · rintro ⟨⟨phase, j⟩, hmem, hj⟩
    cases phase <;> cases hj
    exact hmem
  · exact fun h => ⟨_, h, rfl⟩

/-- The activity that starts now comes last. -/
theorem starts_snoc_start (log : List (Phase × ι)) (i : ι) :
    (log ++ [(Phase.start, i)]).filterMap started = log.filterMap started ++ [i] := List.filterMap_append

theorem starts_snoc {log : List (Phase × ι)} {e : Phase × ι} (h : started e = none) :
    (log ++ [e]).filterMap started = log.filterMap started := by
  rw [List.filterMap_append, List.filterMap_cons_none h, List.filterMap_nil, List.append_nil]

theorem Lawful.starts_nodup {log : List (Phase × ι)} (h : Lawful deps log) : (log.filterMap started).Nodup := by
  induction h with
  | nil => exact List.nodup_nil
  | @snoc log e _ ha ih =>
    obtain ⟨phase, i⟩ := e
    cases phase with
    | start =>
      rw [starts_snoc_start]
      refine ih.append (List.nodup_singleton i) fun j hj hj' => ?_
      rw [List.mem_singleton.mp hj'] at hj
      exact ha.1 (mem_starts.mp hj)
    | ready => rwa [starts_snoc rfl]
    | finish => rwa [starts_snoc rfl]

/-- A dependency has started before. -/
theorem Lawful.starts_topological {log : List (Phase × ι)} (h : Lawful deps log) {pre post : List ι} {i : ι}
    (hsplit : log.filterMap started = pre ++ i :: post) : ∀ d ∈ deps i, d ∈ pre := by
  intro d hd
  induction h generalizing post with
  | nil => simp at hsplit
  | @snoc log e hlog ha ih =>
    obtain ⟨phase, j⟩ := e
    cases phase with
    | start =>
      rw [starts_snoc_start] at hsplit
      rcases List.eq_nil_or_concat post with rfl | ⟨post', x, rfl⟩
      · -- `i` is the one that starts now: its dependencies have finished, so they have started
        obtain ⟨hpre, hlast⟩ := List.append_inj' hsplit rfl
        cases hlast
        obtain ⟨p, hp⟩ := List.getElem?_of_mem ha.2
        have hfin := List.mem_of_mem_take ((hlog.allowed hp).2 d hd)
        rw [← hpre]
        exact mem_starts.mpr (hlog.start_of_finish hfin)
      · rw [List.concat_eq_append, ← List.cons_append, ← List.append_assoc] at hsplit
        exact ih (List.append_inj' hsplit rfl).1
    | ready => exact ih (by rwa [starts_snoc rfl] at hsplit)
    | finish => exact ih (by rwa [starts_snoc rfl] at hsplit)

/-! ## The activities in the order they became ready -/

def readied : Phase × ι → Option ι
  | (.ready, i) => some i
  | _ => none

theorem Lawful.nodup {log : List (Phase × ι)} (h : Lawful deps log) : log.Nodup := by
  induction h with
  | nil => exact List.nodup_nil
  | @snoc log e _ ha ih =>
    refine ih.append (List.nodup_singleton e) fun x hx hx' => ?_
    rw [List.mem_singleton.mp hx'] at hx
    exact ha.fresh hx

theorem Lawful.readied_nodup {log : List (Phase × ι)} (h : Lawful deps log) : (log.filterMap readied).Nodup := by
  apply h.nodup.filterMap
  rintro ⟨phase, i⟩ ⟨phase', i'⟩ j hj hj'
  cases phase <;> cases hj
  cases phase' <;> cases hj'
  rfl

end Lifecycle
