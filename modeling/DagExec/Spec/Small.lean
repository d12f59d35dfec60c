import DagExec.Spec.Reference
import DagExec.Model.Builder
import DagExec.Model.Common
import Mathlib.Algebra.GroupWithZero.Nat

/-!
# Small graphs

- `Dag.solo`, a node without dependencies, and `Dag.selfDep`, a task that depends on itself: a single node is already
  enough to hang or to misjudge a parallel run;
- `Dag.diamond`: a source, two tasks on it, a task on both, and a knot on top that no run gets past. What the results
  about runs say can be read off on it, with a first task that succeeds, fails or panics (`diamond_evaluates`,
  `diamond_of_failsWith`).
-/

namespace DagExec

variable {K O E ω : Type} [DecidableEq K]

theorem solo_index_get (nd : Node K O E ω) (k : K) (i : NodeId) :
    (HashMap.empty.insert nd.key 0).get k = some i ↔ [nd][i]?.map Node.key = some k := by
  rw [HashMap.get_insert]
  cases i with
  | zero =>
    by_cases h : k = nd.key
    · simp [h]
    · simp [h, Ne.symm h]
  | succ i => by_cases h : k = nd.key <;> simp [h]

/-- The graph of one node without dependencies. -/
def Dag.solo (k : K) (kind : NodeKind O E ω) : Dag K O E ω where
  nodes := [⟨k, [], kind⟩]
  index := HashMap.empty.insert k 0
  index_get := solo_index_get ⟨k, [], kind⟩
  deps_lt nd hnd d hd := by
    rw [List.mem_singleton] at hnd
    subst hnd
    cases hd
  source_deps nd hnd v hv := by
    rw [List.mem_singleton] at hnd
    subst hnd
    rfl

/-- The graph of one task that depends on itself. -/
def Dag.selfDep (k : K) (f : TaskFn O E ω) : Dag K O E ω where
  nodes := [⟨k, [0], .task f⟩]
  index := HashMap.empty.insert k 0
  index_get := solo_index_get ⟨k, [0], .task f⟩
  deps_lt nd hnd d hd := by
    rw [List.mem_singleton] at hnd
    subst hnd
    rw [List.mem_singleton] at hd
    exact hd ▸ Nat.one_pos
  source_deps nd hnd v hv := by
    rw [List.mem_singleton] at hnd
    subst hnd
    cases hv

-- The builder builds them.
example (k : K) (f : TaskFn O E ω) :
    ((DagBuilder.new : DagBuilder K O E ω).addTask k [] f).2.build = .ok (Dag.solo k (.task f)) := rfl

example (k : K) (v : O) :
    ((DagBuilder.new : DagBuilder K O E ω).addSource k v).2.build = .ok (Dag.solo k (.source v)) := rfl

example (f : TaskFn O E ω) :
    ((DagBuilder.new : DagBuilder Nat O E ω).addTask 0 [0] f).2.build = .ok (Dag.selfDep 0 f) := rfl

namespace Dag

variable {k : K} {kind : NodeKind O E ω} {f : TaskFn O E ω} {v : O}

theorem solo_zero {i : NodeId} (h : i < (solo k kind).nodes.length) : i = 0 := Nat.lt_one_iff.mp h

theorem solo_keysExist : (solo k kind).KeysExist [k] := fun k' hk' =>
  ⟨0, by rw [List.mem_singleton.mp hk']; exact if_pos rfl⟩

theorem solo_needed : (solo k kind).Needed [k] 0 := .base ⟨k, List.mem_singleton_self k, if_pos rfl⟩

theorem solo_depsOf (i : NodeId) : (solo k kind).depsOf i = [] := by
  cases i <;> rfl

theorem solo_acyclic (outs : List K) : (solo k kind).Acyclic outs := by
  intro i hi hc
  obtain ⟨d, hd, -⟩ := Relation.TransGen.head'_iff.mp hc
  rw [DepGraph.Edge, solo_depsOf] at hd
  cases hd

theorem solo_isSource : (solo k (.source v) : Dag K O E ω).IsSource 0 := ⟨_, v, rfl, rfl⟩

theorem IsTask.solo {i : NodeId} (h : (solo k kind).IsTask i f) : kind = .task f := by
  obtain rfl := solo_zero h.lt
  obtain ⟨nd, hi, hk⟩ := h
  cases hi
  exact hk

/-- The graph of one task whose function always does the same. -/
abbrev const (k : K) (c : Call O E) : Dag K O E ω := solo k (.task fun _ _ => c)

theorem source_tasksSucceed (k : K) (v : O) (outs : List K) :
    TasksSucceed (solo k (.source v) : Dag K O E ω) outs := by
  intro i f args _ hf
  cases hf.solo

theorem selfDep_keysExist : (selfDep k f).KeysExist [k] := fun k' hk' =>
  ⟨0, by rw [List.mem_singleton.mp hk']; exact if_pos rfl⟩

theorem selfDep_needed : (selfDep k f).Needed [k] 0 := .base ⟨k, List.mem_singleton_self k, if_pos rfl⟩

theorem selfDep_onCycle : DepGraph.OnCycle (selfDep k f).depsOf 0 := .single (List.mem_singleton_self 0)

/-- Its node is the one that reaches a cycle. -/
theorem selfDep_reachesCycle {i : NodeId} :
    i ∈ [0] ↔ (selfDep k f).Needed [k] i ∧ DepGraph.ReachesCycle (selfDep k f).depsOf i := by
  rw [List.mem_singleton]
  constructor
  · rintro rfl
    exact ⟨selfDep_needed, 0, .refl, selfDep_onCycle⟩
  · rintro ⟨hi, -⟩
    exact Nat.lt_one_iff.mp hi.lt

theorem IsTask.selfDep {i : NodeId} {g : TaskFn O E ω} (h : (selfDep k f).IsTask i g) : g = f := by
  obtain rfl : i = 0 := Nat.lt_one_iff.mp h.lt
  obtain ⟨nd, hi, hk⟩ := h
  cases hi
  cases hk
  rfl

theorem selfDep_not_acyclic : ¬ (selfDep k f).Acyclic [k] := fun h => h 0 selfDep_needed selfDep_onCycle

/-! ## A diamond and a knot -/

theorem positions_get (k : ℕ) (i : NodeId) :
    (((((HashMap.empty.insert 0 0).insert 1 1).insert 2 2).insert 3 3).insert 4 4).get k = some i ↔
      [0, 1, 2, 3, 4][i]? = some k := by
  simp only [HashMap.get_insert, HashMap.get_empty]
  rcases i with _ | _ | _ | _ | _ | i <;> grind

/-- A source, two tasks on it, a task on both, and a task on that one and on itself. The first task does `c`. -/
def diamond (c : Call ℕ ℕ) : Dag ℕ ℕ ℕ Unit where
  nodes := [⟨0, [], .source 5⟩, ⟨1, [0], .task fun _ _ => c⟩, ⟨2, [0], .task fun _ args => .ok (args.sum + 2)⟩,
    ⟨3, [1, 2], .task fun _ args => .ok args.sum⟩, ⟨4, [3, 4], .task fun _ args => .ok args.sum⟩]
  index := ((((HashMap.empty.insert 0 0).insert 1 1).insert 2 2).insert 3 3).insert 4 4
  index_get k i := by
    rw [← List.getElem?_map]
    exact positions_get k i
  deps_lt := by simp
  source_deps := by simp

open DagBuilder in
example (c : Call ℕ ℕ) : (ofCalls [.source 0 5, .task 1 [0] fun _ _ => c, .task 2 [0] fun _ args => .ok (args.sum + 2),
    .task 3 [1, 2] fun _ args => .ok args.sum, .task 4 [3, 4] fun _ args => .ok args.sum]).build = .ok (diamond c) := rfl

section

variable {c : Call ℕ ℕ} {outs : List ℕ} {i : NodeId}

/-- Its keys are the positions. -/
theorem diamond_keysExist (h : ∀ k ∈ outs, k < 5) : (diamond c).KeysExist outs := by
  intro k hk
  have hlt := h k hk
  rcases k with _ | _ | _ | _ | _ | k
  · exact ⟨0, rfl⟩
  · exact ⟨1, rfl⟩
  · exact ⟨2, rfl⟩
  · exact ⟨3, rfl⟩
  · exact ⟨4, rfl⟩
  · omega

theorem diamond_index {k : ℕ} (h : (diamond c).index.get k = some i) : i = k := by
  obtain ⟨nd, hnd, hk⟩ := Option.map_eq_some_iff.mp (((diamond c).index_get k i).mp h)
  rcases i with _ | _ | _ | _ | _ | i <;> cases hnd <;> exact hk

/-- Below the knot, nothing of it is needed. -/
theorem diamond_needed_lt (h : ∀ k ∈ outs, k < 4) (hi : (diamond c).Needed outs i) : i < 4 := by
  refine DepGraph.Closure.least (T := { i | i < 4 }) (fun j hj => ?_) (fun j hj d hd => ?_) hi
  · obtain ⟨k, hk, hj⟩ := hj
    exact diamond_index hj ▸ h k hk
  · rcases j with _ | _ | _ | _ | j
    · cases hd
    · exact List.mem_singleton.mp hd ▸ (by decide : 0 < 4)
    · exact List.mem_singleton.mp hd ▸ (by decide : 0 < 4)
    · rcases List.mem_pair.mp hd with rfl | rfl
      · exact (by decide : 1 < 4)
      · exact (by decide : 2 < 4)
    · exact absurd hj (by simp)

theorem diamond_needed (h : i < 4) : (diamond c).Needed [3] i := by
  have h3 : (diamond c).Needed [3] 3 := .base ⟨3, List.mem_singleton_self 3, rfl⟩
  have h1 : (diamond c).Needed [3] 1 := h3.dep List.mem_cons_self
  rcases i with _ | _ | _ | _ | i
  · exact h1.dep List.mem_cons_self
  · exact h1
  · exact h3.dep (List.mem_cons_of_mem _ List.mem_cons_self)
  · exact h3
  · exact absurd h (by simp)

/-- Every task but the first succeeds. -/
theorem IsTask.diamond {f : TaskFn ℕ ℕ Unit} (h : (diamond c).IsTask i f) :
    (i = 1 ∧ ∀ w args, f w args = c) ∨ ∀ w args, ∃ v, f w args = .ok v := by
  obtain ⟨nd, hi, hk⟩ := h
  rcases i with _ | _ | _ | _ | _ | i <;> cases hi <;> cases hk
  · exact .inl ⟨rfl, fun _ _ => rfl⟩
  · exact .inr fun _ args => ⟨args.sum + 2, rfl⟩
  · exact .inr fun _ args => ⟨args.sum, rfl⟩
  · exact .inr fun _ args => ⟨args.sum, rfl⟩

theorem diamond_deterministic : (diamond c).Deterministic := fun _ _ _ _ _ _ => rfl

theorem diamond_tasksReturn (hc : c ≠ .panic) : TasksReturn (diamond c) outs := by
  intro i f args _ hf _ w hp
  rcases hf.diamond with ⟨-, he⟩ | hok
  · exact hc ((he w args).symm.trans hp)
  · obtain ⟨v, hv⟩ := hok w args
    rw [hv] at hp
    cases hp

theorem diamond_tasksSucceed (a : ℕ) : TasksSucceed (diamond (.ok a)) outs := by
  intro i f args _ hf _ w
  rcases hf.diamond with ⟨-, he⟩ | hok
  · exact ⟨a, he w args⟩
  · exact hok w args

/-- The source's value, the first task's, the second task's, and their sum. -/
theorem diamond_evaluates (a : ℕ) : Evaluates (diamond (.ok a)) 0 5 ∧ Evaluates (diamond (.ok a)) 1 a ∧
    Evaluates (diamond (.ok a)) 2 7 ∧ Evaluates (diamond (.ok a)) 3 (a + 7) := by
  have h0 : Evaluates (diamond (.ok a)) 0 5 := .source rfl rfl
  have h1 : Evaluates (diamond (.ok a)) 1 a := .of_refArgs ⟨_, rfl, rfl⟩ (.cons h0 .nil) (w := ()) rfl
  have h2 : Evaluates (diamond (.ok a)) 2 7 := .of_refArgs ⟨_, rfl, rfl⟩ (.cons h0 .nil) (w := ()) rfl
  exact ⟨h0, h1, h2, .of_refArgs ⟨_, rfl, rfl⟩ (.cons h1 (.cons h2 .nil)) (w := ()) rfl⟩

/-- Below the knot there is no cycle. -/
theorem diamond_acyclic (a : ℕ) (h : ∀ k ∈ outs, k < 4) : (diamond (.ok a)).Acyclic outs := by
  intro i hi hc
  have hlt := diamond_needed_lt h hi
  obtain ⟨h0, h1, h2, h3⟩ := diamond_evaluates a
  have hval : ∃ v, Evaluates (diamond (.ok a)) i v := by
    rcases i with _ | _ | _ | _ | i
    · exact ⟨5, h0⟩
    · exact ⟨a, h1⟩
    · exact ⟨7, h2⟩
    · exact ⟨a + 7, h3⟩
    · exact absurd hlt (by simp)
  obtain ⟨v, hv⟩ := hval
  exact evaluates_not_reachesCycle hv ⟨i, .refl, hc⟩

theorem diamond_failsWith (e : ℕ) : FailsWith (diamond (.err e)) 1 e := by
  have hargs : RefArgs (diamond (.err e)) 1 [5] := .cons (.source rfl rfl) .nil
  exact ⟨evaluable_iff.mpr ⟨[5], hargs⟩, _, [5], (), ⟨_, rfl, rfl⟩, hargs, rfl⟩

/-- Only the first task fails. -/
theorem diamond_of_failsWith {e e' : ℕ} (h : FailsWith (diamond (.err e)) i e') : i = 1 ∧ e' = e := by
  obtain ⟨-, f, args, w, hf, -, he⟩ := h
  rcases hf.diamond with ⟨rfl, hc⟩ | hok
  · rw [hc w args] at he
    cases he
    exact ⟨rfl, rfl⟩
  · obtain ⟨v, hv⟩ := hok w args
    rw [hv] at he
    cases he

end

/-! ## Its preparation -/

section Prepared

open Outcome WhileLoop

variable {R : Type} [ExecObserver R]

/-- What is prepared for a request of the task on both, -/
def diamondPrepared (c : Call ℕ ℕ) (observer : R) : Prepared ℕ ℕ ℕ Unit R where
  plan := ⟨diamond c, [true, true, true, true, false], [[1, 2], [3], [3], [], []], 4⟩
  vals := List.replicate 5 none
  indeg := [0, 1, 1, 2, 0]
  ready := [0]
  observer := ExecObserver.markReady 0 1 observer

/-- and for a request of the knot. -/
def knotPrepared (c : Call ℕ ℕ) (observer : R) : Prepared ℕ ℕ ℕ Unit R where
  plan := ⟨diamond c, [true, true, true, true, true], [[1, 2], [3], [3], [4], [4]], 5⟩
  vals := List.replicate 5 none
  indeg := [0, 1, 1, 2, 2]
  ready := [0]
  observer := ExecObserver.markReady 0 1 observer

theorem prepare_diamond (c : Call ℕ ℕ) (observer : R) :
    prepare (diamond c) [3] observer = ok (diamondPrepared c observer) := by
  have hmark : markNeeded (diamond c) [3] = ok [true, true, true, true, false] :=
    whileLoop_of_within (n := 10) rfl
  rw [prepare, hmark]
  rfl

theorem prepare_knot (c : Call ℕ ℕ) (observer : R) :
    prepare (diamond c) [4] observer = ok (knotPrepared c observer) := by
  have hmark : markNeeded (diamond c) [4] = ok [true, true, true, true, true] :=
    whileLoop_of_within (n := 12) rfl
  rw [prepare, hmark]
  rfl

end Prepared

end Dag

/-- A configuration to run them with. -/
theorem small_valid : ExecutorConfig.Valid ⟨4, 8, 2⟩ := ⟨by decide, by decide, by decide⟩

/-- A task that never returns a value gives its node none. -/
theorem solo_not_evaluates {k : K} {f : TaskFn O E ω} (hf : ∀ w args v, f w args ≠ .ok v) {i : NodeId} {v : O} :
    ¬ Evaluates (Dag.solo k (.task f)) i v := by
  intro h
  cases h with
  | source hi hk =>
    have hi0 := Dag.solo_zero (List.getElem?_eq_some_iff.mp hi).1
    subst hi0
    cases hi
    cases hk
  | @task _ _ _ args w _ hi hk hlen hargs hok =>
    cases Dag.IsTask.solo ⟨_, hi, hk⟩
    exact hf w args v hok

end DagExec
