import DagExec.Client.Hash
import DagExec.Client.Keys
import DagExec.Exec.Keyed

/-!
# Graphs of the client programs

The client programs build a graph by `add_source` and `add_task` calls with `?`, over `String` keys and byte vectors
(`addCall`). Most closures first increment a counter; nothing reads the counters during a run, so a counter is kept beside the
call that clones it (`Metered`), and after a run it is the number of calls of such closures (`count`).
-/

namespace DagExec.Client

open Outcome DagBuilder ListFacts

/-! ## Building with `?` -/

section

variable {K O E ω : Type} [DecidableEq K]

/-- `b.add_task(..)?`. -/
def addCall (b : DagBuilder K O E ω) (c : AddCall K O E ω) : Outcome (BuildError K) (DagBuilder K O E ω) := do
  (b.add c).1
  pure (b.add c).2

/-- With new and distinct keys all calls succeed. -/
theorem addCalls_ok {calls : List (AddCall K O E ω)} (hnodup : (keysOfCalls calls).Nodup) {b : DagBuilder K O E ω}
    (hnew : ∀ k ∈ keysOfCalls calls, k ∉ b.staging.map StagedNode.key) :
    ∃ b', calls.foldlM addCall b = .ok b' ∧ b'.staging = b.staging ++ calls.map AddCall.staged := by
  induction calls generalizing b with
  | nil => exact ⟨b, rfl, by rw [List.map_nil, List.append_nil]⟩
  | cons c calls ih =>
    rw [keysOfCalls, List.map_cons, List.nodup_cons] at hnodup
    rcases b.add_eq c with ⟨hmem, -⟩ | ⟨-, hok, hstaging⟩
    · exact absurd hmem (hnew c.key List.mem_cons_self)
    · obtain ⟨b', hb', hst⟩ := ih hnodup.2 (b := (b.add c).2) fun k hk => by
        rw [hstaging, List.map_append, List.mem_append, List.map_singleton, List.mem_singleton, c.staged_key, not_or]
        refine ⟨hnew k (List.mem_cons_of_mem _ hk), ?_⟩
        rintro rfl
        exact hnodup.1 hk
      refine ⟨b', ?_, ?_⟩
      · rw [List.foldlM_cons, addCall, hok, ok_bind, pure_eq, ok_bind, hb']
      · rw [hst, hstaging, List.append_assoc, List.map_cons, List.singleton_append]

/-- The graph that the calls build, if their dependencies exist. -/
theorem addCalls_build {calls : List (AddCall K O E ω)} (hnodup : (keysOfCalls calls).Nodup) (hne : calls ≠ [])
    (hdeps : ∀ c ∈ calls, ∀ k ∈ c.deps, k ∈ keysOfCalls calls) : ∃ b dag, calls.foldlM addCall new = .ok b ∧
      b.build = .ok dag ∧ dag.BuiltFrom calls := by
  obtain ⟨b, hb, hst⟩ := addCalls_ok hnodup (b := new) fun k _ => List.not_mem_nil
  have hst' : b.staging = calls.map AddCall.staged := hst
  obtain ⟨dag, hdag⟩ := (build_ok_iff hst').mpr ⟨hne, hdeps⟩
  exact ⟨b, dag, hb, hdag, build_builtFrom hst' hdag⟩

end

/-- The client programs' graphs; no closure reads anything but its arguments. -/
abbrev DagT := Dag String Bytes String Unit

/-! ## Closures -/

/-- What a closure's body does, for the executor; none of the closures here diverges. -/
def toCall : Outcome String Bytes → Call Bytes String
  | .ok v => .ok v
  | .err e => .err e
  | .panic _ => .panic
  | .diverge => .panic

/-- `|xs| Ok(hash_leaf_with_iters(hash_iters, xs[0].as_ref()))`. -/
def leafTask (hashIters : Nat) : TaskFn Bytes String Unit := fun _ xs => toCall do
  let x ← Outcome.index xs 0
  pure (hashLeafWithIters hashIters x)

/-- Hash two children, which have to be hashes. -/
def nodeTask (hashIters : Nat) : TaskFn Bytes String Unit := fun _ xs => toCall do
  let left ← Outcome.index xs 0
  ensure32 left
  let right ← Outcome.index xs 1
  ensure32 right
  pure (hashNodeWithIters hashIters left right)

theorem leafTask_ok (hashIters : Nat) (w : Unit) (x : Bytes) : leafTask hashIters w [x] = .ok (hashLeafWithIters hashIters x) :=
  rfl

theorem nodeTask_ok (hashIters : Nat) (w : Unit) {left right : Bytes} (hl : left.length = 32) (hr : right.length = 32) :
    nodeTask hashIters w [left, right] = .ok (hashNodeWithIters hashIters left right) := by
  unfold nodeTask
  rw [index_of_get List.getElem?_cons_zero, ok_bind, ensure32_ok hl, ok_bind, index_of_get rfl, ok_bind, ensure32_ok hr]
  rfl

/-- `for x in xs { ensure_32(x)?; }`. -/
theorem forM_ensure32 {xs : List Bytes} (h : ∀ x ∈ xs, x.length = 32) : xs.forM ensure32 = .ok () := by
  induction xs with
  | nil => rfl
  | cons x xs ih =>
    show (ensure32 x >>= fun _ => xs.forM ensure32) = .ok ()
    rw [ensure32_ok (h x List.mem_cons_self), ok_bind]
    exact ih fun y hy => h y (List.mem_cons_of_mem _ hy)

/-! ## Counters -/

inductive Counter
  | ranLeafHash
  | ranInternalHash
  | ranProofAsm
  deriving DecidableEq

/-- A call, and the counter its closure increments when it is called. -/
structure Metered where
  call : AddCall String Bytes String Unit
  counter : Option Counter

/-- What a counter reads after a run that called some nodes. -/
def count (calls : List Metered) (called : List NodeId) (counter : Counter) : Nat :=
  called.countP fun i => decide (calls[i]?.bind Metered.counter = some counter)

/-- The counter of a node of the client programs. -/
def Key.counter : Key → Option Counter
  | .leaf _ => some .ranLeafHash
  | .node _ _ => some .ranInternalHash
  | .chunkNode _ _ _ => some .ranInternalHash
  | .batchNode _ _ => some .ranInternalHash
  | .chunkProof _ _ => some .ranProofAsm
  | _ => none

/-- Each call has a key of its kind, with the kind's counter, and those with a counter add tasks. -/
def Described (calls : List Metered) : Prop := ∀ c ∈ calls, ∃ key : Key, c.call.key = key.str ∧ c.counter = key.counter ∧
  (c.counter ≠ none → ∃ f, c.call.kind = .task f)

variable {calls : List Metered} {dag : DagT} {outs : List String} {m : HashMap String Bytes}
  {called : List NodeId}

/-- **A counter reads the number of needed keys that have it.** -/
theorem count_eq (h : Answers dag outs m called) (hb : dag.BuiltFrom (calls.map Metered.call)) (hdesc : Described calls)
    {needed : List Key} (hnodup : needed.Nodup) (hneeds : ∀ key : Key, dag.NeedsKey outs key.str ↔ key ∈ needed)
    (counter : Counter) : count calls called counter = needed.countP fun key => decide (key.counter = some counter) := by
  have hget : ∀ (i : NodeId) c, (calls.map Metered.call)[i]? = some c ↔ ∃ c', calls[i]? = some c' ∧ c'.call = c := fun i c => by
    rw [List.getElem?_map, Option.map_eq_some_iff]
  rw [List.countP_eq_length_filter, count]
  refine (h.countP_called hb ((hnodup.filter _).map Key.str_injective) (fun i c hc hp => ?_) fun k => ?_).trans
    (List.length_map _)
  · obtain ⟨c', hc', rfl⟩ := (hget i c).mp hc
    obtain ⟨key, -, -, htask⟩ := hdesc c' (List.mem_of_getElem? hc')
    rw [decide_eq_true_iff, hc', Option.bind_some] at hp
    exact htask (by rw [hp]; nofun)
  · rw [List.mem_map]
    constructor
    · rintro ⟨key, hk, rfl⟩
      obtain ⟨hmem, hcount⟩ := List.mem_filter.mp hk
      have hneed := (hneeds key).mpr hmem
      obtain ⟨i, hi, -⟩ := id hneed
      obtain ⟨c, hc, hck⟩ := (hb.index_iff key.str i).mp hi
      obtain ⟨c', hc', rfl⟩ := (hget i c).mp hc
      obtain ⟨key', hck', hcount', -⟩ := hdesc c' (List.mem_of_getElem? hc')
      obtain rfl := Key.str_injective (hck'.symm.trans hck)
      refine ⟨i, c'.call, hc, hck, hneed, ?_⟩
      rw [decide_eq_true_iff, hc', Option.bind_some, hcount']
      exact of_decide_eq_true hcount
    · rintro ⟨i, c, hc, rfl, hneed, hp⟩
      obtain ⟨c', hc', rfl⟩ := (hget i c).mp hc
      rw [decide_eq_true_iff, hc', Option.bind_some] at hp
      obtain ⟨key, hck, hcount, -⟩ := hdesc c' (List.mem_of_getElem? hc')
      rw [hck] at hneed ⊢
      exact ⟨key, List.mem_filter.mpr ⟨(hneeds key).mp hneed, decide_eq_true (hcount.symm.trans hp)⟩, rfl⟩

/-- The needed keys are a list of keys that are needed, with the requested ones, and with their dependencies. -/
theorem needsKey_iff {acc : List (AddCall String Bytes String Unit)} (hb : dag.BuiltFrom acc) {needed : List Key}
    (hbase : ∀ k ∈ outs, ∃ key ∈ needed, k = key.str)
    (hclosed : ∀ c ∈ acc, ∀ key ∈ needed, c.key = key.str → ∀ k ∈ c.deps, ∃ key' ∈ needed, k = key'.str)
    (hneed : ∀ key ∈ needed, dag.NeedsKey outs key.str) (key : Key) : dag.NeedsKey outs key.str ↔ key ∈ needed := by
  refine ⟨fun hn => ?_, hneed key⟩
  obtain ⟨key', hmem, he⟩ := hb.needsKey_induct (P := fun k => ∃ key ∈ needed, k = key.str) hbase
    (fun c hc ⟨key, hkey, he⟩ k hk => hclosed c hc key hkey he k hk) hn
  exact Key.str_injective he ▸ hmem

/-! ## Requests -/

/-- The readings of the three counters. -/
def counts (leafHash internalHash proofAsm : Nat) : Counter → Nat
  | .ranLeafHash => leafHash
  | .ranInternalHash => internalHash
  | .ranProofAsm => proofAsm

/-- **What a request comes to.** Either executor answers it, with these values, and then the counters read so much. -/
structure Serves (calls : List Metered) (dag : DagT) (outs : List String) (vals : List Bytes) (readings : Counter → Nat) :
    Prop where
  sequential : ∀ env, ∃ m, (runSequential dag outs env).1 = .ok m
  parallel : ∀ cfg panics r log, cfg.Valid → RunParallel dag cfg outs panics r log → ∃ m, r = .ok m
  answers : ∀ m called, Answers dag outs m called → List.Forall₂ (fun k v => m.get k = some v) outs vals ∧
    ∀ counter, count calls called counter = readings counter

theorem serves (hb : dag.BuiltFrom (calls.map Metered.call)) (hdesc : Described calls) (hdet : dag.Deterministic)
    {vals : List Bytes} (hvals : List.Forall₂ dag.HasValue outs vals) {needed : List Key} (hnodup : needed.Nodup)
    (hneeds : ∀ key : Key, dag.NeedsKey outs key.str ↔ key ∈ needed) {c : AddCall String Bytes String Unit}
    (hc : c ∈ calls.map Metered.call) (hn : dag.NeedsKey outs c.key) (hdeps : c.deps ≠ []) {readings : Counter → Nat}
    (hcount : ∀ counter, needed.countP (fun key => decide (key.counter = some counter)) = readings counter) :
    Serves calls dag outs vals readings := by
  have hne : outs ≠ [] := by
    rintro rfl
    obtain ⟨i, -, s, ⟨k, hk, -⟩, -⟩ := hn
    cases hk
  obtain ⟨hseq, hpar, hans⟩ := answered_of_hasValue hdet hne hvals (hb.not_falseCycle hc hn hdeps)
  refine ⟨hseq, hpar, fun m called h => ⟨hans m called h, fun counter => ?_⟩⟩
  rw [count_eq h hb hdesc hnodup hneeds, hcount]

/-! ## Hash trees -/

/-- The dependencies of an inner node: its children. -/
theorem mem_children (g : ℕ → String) {j : ℕ} {k : String} :
    k ∈ [g (2 * j), g (2 * j + 1)] ↔ ∃ x, (x = 2 * j ∨ x = 2 * j + 1) ∧ k = g x := by
  rw [List.mem_pair]
  constructor
  · rintro (rfl | rfl)
    · exact ⟨_, .inl rfl, rfl⟩
    · exact ⟨_, .inr rfl, rfl⟩
  · rintro ⟨x, rfl | rfl, rfl⟩
    · exact .inl rfl
    · exact .inr rfl

/-- The loop over the levels of a tree. -/
theorem mem_levelCalls {α : Type} {n : Nat} {width : Nat → Nat} {f : Nat → Nat → α} {m : α} :
    m ∈ (List.range' 1 n).flatMap (fun lvl => (List.range (width lvl)).map fun idx => f lvl idx) ↔
      ∃ lvl idx, lvl < n ∧ idx < width (lvl + 1) ∧ m = f (lvl + 1) idx := by
  rw [List.mem_flatMap]
  constructor
  · rintro ⟨lvl, hl, hm⟩
    obtain ⟨idx, hi, rfl⟩ := List.mem_map.mp hm
    rw [List.mem_range'_1] at hl
    rw [List.mem_range] at hi
    obtain ⟨lvl, rfl⟩ : ∃ l, lvl = l + 1 := ⟨lvl - 1, by omega⟩
    exact ⟨lvl, idx, by omega, hi, rfl⟩
  · rintro ⟨lvl, idx, hl, hi, rfl⟩
    exact ⟨lvl + 1, List.mem_range'_1.mpr ⟨by omega, by omega⟩, List.mem_map.mpr ⟨idx, List.mem_range.mpr hi, rfl⟩⟩

/-- The part of the program a key is from. -/
def Key.rank : Key → Nat
  | .node _ _ => 1
  | .chunkNode _ _ _ => 1
  | .chunkRoot _ => 2
  | .batchNode _ _ => 3
  | .batchRoot => 4
  | .chunkProof _ _ => 5
  | _ => 0

/-- The leaves. -/
theorem ranked_leaves {is : List Nat} (h : is.Nodup) : Ranked Key.rank 0 1 (is.flatMap fun i => [Key.tx i, Key.leaf i]) := by
  refine .flatMap (fun | .tx i => i | .leaf i => i | _ => 0) h (fun i _ => ⟨by simp, by simp, ?_⟩) fun i _ key hkey => ?_
  · simp [Key.rank]
  · rcases List.mem_pair.mp hkey with rfl | rfl <;> rfl

/-- The inner nodes of a tree, level by level. -/
theorem ranked_levels {f : Nat → Nat → Key} (level : Key → Nat) {lo hi : Nat} (hf : ∀ l, Function.Injective (f l))
    (hlevel : ∀ l i, level (f l i) = l) (hlo : ∀ l i, lo ≤ (f l i).rank) (hhi : ∀ l i, (f l i).rank < hi) (n : Nat)
    (width : Nat → Nat) : Ranked Key.rank lo hi
      ((List.range' 1 n).flatMap fun lvl => (List.range (width lvl)).map (f lvl)) := by
  refine .flatMap level List.nodup_range' (fun l _ => .map (hf l) List.nodup_range (hlo l) (hhi l)) fun l _ key hkey => ?_
  obtain ⟨i, -, rfl⟩ := List.mem_map.mp hkey
  exact hlevel l i

/-- Where the inner nodes under a node are added as hashes of their children, they have the values of the hash tree. -/
theorem hasValue_tree {acc : List (AddCall String Bytes String Unit)} (hb : dag.BuiltFrom acc) {hashIters n r : Nat}
    {inner : ℕ → ℕ → Key} {top : ℕ → Key} {f : ℕ → Bytes} (hf : ∀ i, (f i).length = 32)
    (htop : ∀ j, j / 2 ^ n = r → dag.HasValue (top j).str (f j))
    (hinner : ∀ k j, k < n → j / 2 ^ (n - (k + 1)) = r → .task (inner (k + 1) j).str
      [(MerkleTree.name inner top k (2 * j)).str, (MerkleTree.name inner top k (2 * j + 1)).str] (nodeTask hashIters) ∈ acc)
    {l : ℕ} (hl : l ≤ n) {i : ℕ} (hi : i / 2 ^ (n - l) = r) :
    dag.HasValue (MerkleTree.name inner top l i).str (MerkleTree.node (hashNodeWithIters hashIters) f l i) := by
  induction l generalizing i with
  | zero => exact htop i hi
  | succ l ih =>
    have hleft := ih (Nat.le_of_succ_le hl) (MerkleTree.half_div hl hi (.inl rfl))
    have hright := ih (Nat.le_of_succ_le hl) (MerkleTree.half_div hl hi (.inr rfl))
    exact hb.hasValue_task (hinner l i hl hi) (.cons hleft (.cons hright .nil))
      (nodeTask_ok hashIters () (node_length hf _ l _) (node_length hf _ l _))

end DagExec.Client
