import DagExec.Model.Outcome
import Mathlib.Tactic.Common

/-!
# The data model: `graph.rs` and `error.rs`

`HashMap` is the finite map of the standard library, seen through its lookups. Task functions are closures: beside
their arguments they may read whatever they captured (counters, clocks, shared cells), so a call also takes the
environment `w : ω` it happens in. `Arc<O>` is `O`: the values are immutable.
-/

namespace DagExec

/-! ## Hash maps -/

/-- A map by its lookups. -/
def HashMap (K V : Type) := K → Option V

namespace HashMap

variable {K V : Type} [DecidableEq K]

/-- `HashMap::new()`. -/
def empty : HashMap K V := fun _ => none

/-- `map.get(&k)`. -/
def get (m : HashMap K V) (k : K) : Option V := m k

/-- `map.contains_key(&k)`. -/
def containsKey (m : HashMap K V) (k : K) : Bool := (m k).isSome

/-- `map.insert(k, v)`. -/
def insert (m : HashMap K V) (k : K) (v : V) : HashMap K V := fun k' => if k' = k then some v else m k'

omit [DecidableEq K] in
@[simp] theorem get_empty (k : K) : (empty : HashMap K V).get k = none := rfl

theorem get_insert (m : HashMap K V) (k k' : K) (v : V) :
    (m.insert k v).get k' = if k' = k then some v else m.get k' := rfl

omit [DecidableEq K] in
theorem ext {m m' : HashMap K V} (h : ∀ k v, m.get k = some v ↔ m'.get k = some v) : m = m' :=
  funext fun k => Option.ext (h k)

end HashMap

/-! ## Errors -/

/-- `error.rs`: `BuildError`. -/
inductive BuildError (K : Type)
  | duplicateKey (k : K)
  | missingKey (k : K)
  | missingDependency (task missing : K)
  | emptyGraph
  deriving DecidableEq, Repr

/-- `error.rs`: `ExecError`. -/
inductive ExecError (K E : Type)
  | build (e : BuildError K)
  | cycle (remaining : List K)
  | taskFailed (task : K) (error : E)
  | outputMissing (k : K)
  | internalInvariant (msg : String)
  deriving DecidableEq, Repr

/-! ## Graphs -/

/-- Dense node identifier: the position in `Dag::nodes`. -/
abbrev NodeId := Nat

/-- The knobs of the parallel scheduler. -/
structure ExecutorConfig where
  maxWorkers : Nat
  maxInFlight : Nat
  workerQueueCap : Nat

/-- All knobs are positive. -/
structure ExecutorConfig.Valid (cfg : ExecutorConfig) : Prop where
  workers : 0 < cfg.maxWorkers
  inFlight : 0 < cfg.maxInFlight
  queue : 0 < cfg.workerQueueCap

/-- `ExecutorConfig::default`, from what `available_parallelism` reports, if it does. -/
def ExecutorConfig.default (availableParallelism : Option Nat) : ExecutorConfig :=
  let maxWorkers := availableParallelism.getD 4
  ⟨maxWorkers, maxWorkers * 2, 2⟩

/-- The default is valid; reported numbers are positive. -/
theorem ExecutorConfig.default_valid {availableParallelism : Option Nat} (h : ∀ n ∈ availableParallelism, 0 < n) :
    (ExecutorConfig.default availableParallelism).Valid := by
  have hpos : 0 < availableParallelism.getD 4 := by
    cases availableParallelism with
    | none => exact Nat.succ_pos 3
    | some n => exact h n rfl
  exact ⟨hpos, Nat.mul_pos hpos Nat.two_pos, Nat.two_pos⟩

/-- What a call of a task function does: it returns or it panics. -/
inductive Call (O E : Type)
  | ok (v : O)
  | err (e : E)
  | panic

/-- `dyn Fn(&[Arc<O>]) -> Result<O, E>`, called in an environment. -/
abbrev TaskFn (O E ω : Type) := ω → List O → Call O E

inductive NodeKind (O E ω : Type)
  | source (v : O)
  | task (f : TaskFn O E ω)

structure Node (K O E ω : Type) where
  key : K
  deps : List NodeId
  kind : NodeKind O E ω

/-- A compiled DAG, with what `DagBuilder::build` guarantees of it: `index` maps each node's key to its position and
nothing else, dependencies are positions, sources have none. It may have cycles. -/
structure Dag (K O E ω : Type) where
  nodes : List (Node K O E ω)
  index : HashMap K NodeId
  index_get : ∀ k i, index.get k = some i ↔ nodes[i]?.map Node.key = some k
  deps_lt : ∀ nd ∈ nodes, ∀ d ∈ nd.deps, d < nodes.length
  source_deps : ∀ nd ∈ nodes, ∀ v, nd.kind = .source v → nd.deps = []

namespace Dag

variable {K O E ω : Type} (dag : Dag K O E ω)

/-- The dependency list of a node, in declared order. -/
def depsOf (i : NodeId) : List NodeId := (dag.nodes[i]?.map Node.deps).getD []

variable {dag}

theorem depsOf_of_get {i : NodeId} {nd : Node K O E ω} (h : dag.nodes[i]? = some nd) : dag.depsOf i = nd.deps := by
  simp [depsOf, h]

theorem lt_of_mem_depsOf {i d : NodeId} (h : d ∈ dag.depsOf i) : d < dag.nodes.length := by
  unfold depsOf at h
  cases hi : dag.nodes[i]? with
  | none => simp [hi] at h
  | some nd =>
    simp only [hi, Option.map_some, Option.getD_some] at h
    exact dag.deps_lt nd (List.mem_of_getElem? hi) d h

theorem depsOf_source {i : NodeId} {nd : Node K O E ω} {v : O} (h : dag.nodes[i]? = some nd)
    (hk : nd.kind = .source v) : dag.depsOf i = [] := by
  rw [depsOf_of_get h, dag.source_deps nd (List.mem_of_getElem? h) v hk]

theorem index_lt {k : K} {i : NodeId} (h : dag.index.get k = some i) : i < dag.nodes.length := by
  have := (dag.index_get k i).mp h
  by_contra hc
  simp [List.getElem?_eq_none (Nat.le_of_not_lt hc)] at this

/-- Keys are distinct: the position of a key is unique. -/
theorem key_injective {i j : NodeId} {nd nd' : Node K O E ω} (hi : dag.nodes[i]? = some nd)
    (hj : dag.nodes[j]? = some nd') (h : nd.key = nd'.key) : i = j := by
  have h1 := (dag.index_get nd.key i).mpr (by simp [hi])
  have h2 := (dag.index_get nd.key j).mpr (by simp [hj, h])
  exact Option.some.inj (h1.symm.trans h2)

end Dag

end DagExec
