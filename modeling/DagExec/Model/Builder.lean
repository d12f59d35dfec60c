import DagExec.Model.Graph
import DagExec.Lib.ListFacts

/-!
# The builder: `builder.rs`

The builder's state is a staging list and a map from keys to staging positions that stays in step with it. `build`
resolves the dependency keys; the `Dag` it returns carries the representation invariant.
-/

namespace DagExec

open Outcome ListFacts

variable {K O E ω : Type}

inductive StagedKind (O E ω : Type)
  | source (v : O)
  | task (f : TaskFn O E ω)

def StagedKind.toNodeKind : StagedKind O E ω → NodeKind O E ω
  | source v => .source v
  | task f => .task f

structure StagedNode (K O E ω : Type) where
  key : K
  deps : List K
  kind : StagedKind O E ω

structure DagBuilder (K O E ω : Type) where
  index : HashMap K Nat
  staging : List (StagedNode K O E ω)
  index_get : ∀ k i, index.get k = some i ↔ staging[i]?.map StagedNode.key = some k
  source_deps : ∀ n ∈ staging, ∀ v, n.kind = .source v → n.deps = []

namespace DagBuilder

def new : DagBuilder K O E ω where
  index := HashMap.empty
  staging := []
  index_get := by simp
  source_deps := by simp

variable [DecidableEq K]

/-- `insert_node`: a key that is taken is rejected and nothing changes. -/
def insertNode (b : DagBuilder K O E ω) (key : K) (deps : List K) (kind : StagedKind O E ω)
    (hsrc : ∀ v, kind = .source v → deps = []) : Outcome (BuildError K) Unit × DagBuilder K O E ω :=
  if h : b.index.containsKey key then (.err (.duplicateKey key), b)
  else
    (.ok (), {
      index := b.index.insert key b.staging.length
      staging := b.staging ++ [⟨key, deps, kind⟩]
      index_get := by
        have hkey : b.index.get key = none := by simpa [HashMap.containsKey, HashMap.get] using h
        intro k i
        rw [HashMap.get_insert]
        by_cases hk : k = key
        · subst hk
          have hno : ∀ i : Nat, b.staging[i]?.map StagedNode.key ≠ some k := fun i hi => by
            simp [(b.index_get k i).mpr hi] at hkey
          rcases Nat.lt_trichotomy i b.staging.length with hlt | rfl | hgt
          · rw [List.getElem?_append_left hlt]
            simp only [if_true, Option.some.injEq]
            exact ⟨fun e => by omega, fun e => absurd e (hno i)⟩
          · simp
          · rw [List.getElem?_eq_none (by simp; omega)]
            simp; omega
        · rw [if_neg hk, b.index_get]
          rcases Nat.lt_trichotomy i b.staging.length with hlt | rfl | hgt
          · rw [List.getElem?_append_left hlt]
          · simp [Ne.symm hk]
          · rw [List.getElem?_eq_none (by omega), List.getElem?_eq_none (by simp; omega)]
      source_deps := by
        intro n hn v hv
        rcases List.mem_append.mp hn with hn | hn
        · exact b.source_deps n hn v hv
        · rw [List.mem_singleton] at hn
          subst hn
          exact hsrc v hv })

def addSource (b : DagBuilder K O E ω) (key : K) (value : O) : Outcome (BuildError K) Unit × DagBuilder K O E ω :=
  b.insertNode key [] (.source value) fun _ _ => rfl

def addTask (b : DagBuilder K O E ω) (key : K) (deps : List K) (f : TaskFn O E ω) :
    Outcome (BuildError K) Unit × DagBuilder K O E ω :=
  b.insertNode key deps (.task f) fun _ h => by cases h

/-- The second map, from keys to dense ids. -/
def keyToId (staging : List (StagedNode K O E ω)) : HashMap K NodeId :=
  staging.zipIdx.foldl (fun m p => m.insert p.1.key p.2) HashMap.empty

/-- The body of the resolving loop. -/
def resolveNode (ids : HashMap K NodeId) (n : StagedNode K O E ω) : Outcome (BuildError K) (Node K O E ω) := do
  let depIds ← n.deps.mapM fun depKey =>
    match ids.get depKey with
    | some id => .ok id
    | none => .err (.missingDependency n.key depKey)
  pure ⟨n.key, depIds, n.kind.toNodeKind⟩

/-- Rebuilding the map from the staging list gives the builder's own map again. -/
theorem keyToId_get (b : DagBuilder K O E ω) : keyToId b.staging = b.index := by
  have hrec : ∀ (l : List (StagedNode K O E ω)) (s : Nat) (m : HashMap K NodeId), (∀ (i : Nat) k, l[i]?.map StagedNode.key =
      some k → b.index.get k = some (s + i)) → ∀ k, ((l.zipIdx s).foldl (fun m p => m.insert p.1.key p.2) m).get k =
      if k ∈ l.map StagedNode.key then b.index.get k else m.get k := by
    intro l
    induction l with
    | nil => intro s m _ k; simp
    | cons n l ih =>
      intro s m hl k
      rw [List.zipIdx_cons, List.foldl_cons, ih (s + 1)]
      · have hhead : b.index.get n.key = some s := by simpa using hl 0 n.key (by simp)
        rw [HashMap.get_insert]
        by_cases hk : k = n.key
        · subst hk; simp [hhead]
        · simp [hk]
      · intro i k' hk'
        have := hl (i + 1) k' (by simpa using hk')
        rw [this]; congr 1; omega
  refine funext fun k => ?_
  have := hrec b.staging 0 HashMap.empty (fun i k h => by rw [Nat.zero_add]; exact (b.index_get k i).mpr h) k
  refine this.trans ?_
  by_cases hk : k ∈ b.staging.map StagedNode.key
  · rw [if_pos hk]; rfl
  · rw [if_neg hk]
    cases hi : b.index.get k with
    | none => exact hi.symm
    | some i =>
      exfalso
      apply hk
      obtain ⟨n, hn, hkey⟩ := Option.map_eq_some_iff.mp ((b.index_get k i).mp hi)
      exact hkey ▸ List.mem_map_of_mem (List.mem_of_getElem? hn)

omit [DecidableEq K] in
theorem resolveNode_ok {ids : HashMap K NodeId} {n : StagedNode K O E ω} {nd : Node K O E ω}
    (h : resolveNode ids n = .ok nd) : nd.key = n.key ∧ nd.kind = n.kind.toNodeKind ∧
      List.Forall₂ (fun k d => ids.get k = some d) n.deps nd.deps := by
  obtain ⟨depIds, hd, hnd⟩ := bind_eq_ok.mp h
  obtain rfl : (⟨n.key, depIds, n.kind.toNodeKind⟩ : Node K O E ω) = nd := by simpa using hnd
  refine ⟨rfl, rfl, (mapM_eq_ok.mp hd).imp fun k d hkd => ?_⟩
  cases hg : ids.get k with
  | none => simp [hg] at hkd
  | some id => simpa [hg] using hkd

section Resolved

variable {b : DagBuilder K O E ω} {nodes : List (Node K O E ω)}
  (h : List.Forall₂ (fun n nd => resolveNode (keyToId b.staging) n = .ok nd) b.staging nodes)
include h

theorem resolved_index_get (k : K) (i : NodeId) :
    (keyToId b.staging).get k = some i ↔ nodes[i]?.map Node.key = some k := by
  rw [keyToId_get, b.index_get]
  constructor
  · intro hk
    obtain ⟨n, hn, rfl⟩ := Option.map_eq_some_iff.mp hk
    obtain ⟨nd, hnd, hr⟩ := forall₂_get_left h hn
    rw [hnd, ← (resolveNode_ok hr).1]; rfl
  · intro hk
    obtain ⟨nd, hnd, rfl⟩ := Option.map_eq_some_iff.mp hk
    obtain ⟨n, hn, hr⟩ := forall₂_get_right h hnd
    rw [hn, (resolveNode_ok hr).1]; rfl

theorem resolved_deps_lt : ∀ nd ∈ nodes, ∀ d ∈ nd.deps, d < nodes.length := by
  intro nd hnd d hd
  obtain ⟨n, _, hr⟩ := forall₂_mem_right h hnd
  obtain ⟨k, _, hk⟩ := forall₂_mem_right (resolveNode_ok hr).2.2 hd
  have := (resolved_index_get h k d).mp hk
  by_contra hc
  simp [List.getElem?_eq_none (Nat.le_of_not_lt hc)] at this

theorem resolved_source_deps : ∀ nd ∈ nodes, ∀ v, nd.kind = .source v → nd.deps = [] := by
  intro nd hnd v hv
  obtain ⟨n, hn, hr⟩ := forall₂_mem_right h hnd
  obtain ⟨_, hkind, hdeps⟩ := resolveNode_ok hr
  cases hk : n.kind with
  | source v' =>
    rw [b.source_deps n hn v' hk] at hdeps
    exact List.forall₂_nil_left_iff.mp hdeps
  | task f => rw [hkind, hk] at hv; cases hv

end Resolved

/-- `build`: resolve every dependency key, or report the first one that names no node. -/
def build (b : DagBuilder K O E ω) : Outcome (BuildError K) (Dag K O E ω) :=
  if b.staging.isEmpty then .err .emptyGraph
  else
    match h : b.staging.mapM (resolveNode (keyToId b.staging)) with
    | .ok nodes => .ok {
        nodes := nodes
        index := keyToId b.staging
        index_get := resolved_index_get (mapM_eq_ok.mp h)
        deps_lt := resolved_deps_lt (mapM_eq_ok.mp h)
        source_deps := resolved_source_deps (mapM_eq_ok.mp h) }
    | .err e => .err e
    | .panic p => .panic p
    | .diverge => .diverge

end DagBuilder

/-! ## Sequences of calls -/

/-- A call of `add_source` or of `add_task`. -/
inductive AddCall (K O E ω : Type)
  | source (key : K) (value : O)
  | task (key : K) (deps : List K) (f : TaskFn O E ω)

namespace AddCall

def key : AddCall K O E ω → K
  | source key _ => key
  | task key _ _ => key

def deps : AddCall K O E ω → List K
  | source _ _ => []
  | task _ deps _ => deps

def kind : AddCall K O E ω → NodeKind O E ω
  | source _ value => .source value
  | task _ _ f => .task f

end AddCall

namespace DagBuilder

variable [DecidableEq K]

def add (b : DagBuilder K O E ω) : AddCall K O E ω → Outcome (BuildError K) Unit × DagBuilder K O E ω
  | .source key value => b.addSource key value
  | .task key deps f => b.addTask key deps f

/-- One call after the other: what each returned, and the builder after the last. -/
def addAll (b : DagBuilder K O E ω) : List (AddCall K O E ω) →
    List (Outcome (BuildError K) Unit) × DagBuilder K O E ω
  | [] => ([], b)
  | c :: cs => ((b.add c).1 :: ((b.add c).2.addAll cs).1, ((b.add c).2.addAll cs).2)

/-- The builder after some calls. -/
def ofCalls (calls : List (AddCall K O E ω)) : DagBuilder K O E ω := (new.addAll calls).2

/-- The calls that returned `Ok`. -/
def accepted (b : DagBuilder K O E ω) (calls : List (AddCall K O E ω)) : List (AddCall K O E ω) :=
  ((calls.zip (b.addAll calls).1).filter fun p => p.2.isOk).map Prod.fst

end DagBuilder

end DagExec
