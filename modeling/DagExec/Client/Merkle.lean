import DagExec.Client.Binding
import DagExec.Client.Calls

/-!
# The hash tree: `examples/merkle.rs`

One hash tree over some transactions. A request for one of its nodes runs what is under the node (`subtree_request`).
-/

namespace DagExec.Client

open Outcome DagBuilder MerkleTree ListFacts

/-! ## The graph -/

/-- The calls, in program order. -/
def merkleCalls (nLeaves height : Nat) : List Metered :=
  ((List.range nLeaves).flatMap fun i =>
    [⟨.source (txKey i) (fakeEncodedTx i), none⟩, ⟨.task (leafKey i) [txKey i] (leafTask 0), some .ranLeafHash⟩]) ++
  (List.range' 1 height).flatMap fun level =>
    let width := nLeaves >>> level
    (List.range width).map fun idx =>
      let leftChild := merkleKey (level - 1) (idx * 2)
      let rightChild := merkleKey (level - 1) (idx * 2 + 1)
      let outKey := merkleKey level idx
      ⟨.task outKey [leftChild, rightChild] (nodeTask 0), some .ranInternalHash⟩

/-- The graph, and the keys of its root and of a node. -/
def buildMerkleDag (nLeaves height subtreeLevel subtreeIndex : Nat) :
    Outcome (BuildError String) (DagT × String × String) := do
  let b ← ((merkleCalls nLeaves height).map Metered.call).foldlM addCall new
  let rootKey := merkleKey height 0
  let subtreeKey := merkleKey subtreeLevel subtreeIndex
  let dag ← b.build
  pure (dag, rootKey, subtreeKey)

/-! ## The calls by key -/

variable {n height : ℕ} {m : Metered}

/-- The names of the nodes. -/
def merkleName : ℕ → ℕ → Key := name Key.node Key.leaf

theorem merkleKey_eq (level idx : ℕ) : merkleKey level idx = (merkleName level idx).str := by
  cases level <;> rfl

/-- The call that adds a key. -/
inductive MerkleAdds (n height : ℕ) : Key → Metered → Prop
  | tx {i : ℕ} (hi : i < n) : MerkleAdds n height (.tx i) ⟨.source (txKey i) (fakeEncodedTx i), none⟩
  | leaf {i : ℕ} (hi : i < n) : MerkleAdds n height (.leaf i)
      ⟨.task (leafKey i) [txKey i] (leafTask 0), some .ranLeafHash⟩
  | node {l i : ℕ} (hl : l < height) (hi : i < n >>> (l + 1)) : MerkleAdds n height (.node (l + 1) i)
      ⟨.task (Key.node (l + 1) i).str [(merkleName l (2 * i)).str, (merkleName l (2 * i + 1)).str] (nodeTask 0),
        some .ranInternalHash⟩

theorem mem_merkleCalls : m ∈ merkleCalls n height ↔ ∃ key, MerkleAdds n height key m := by
  rw [merkleCalls, List.mem_append]
  dsimp only
  rw [mem_levelCalls]
  constructor
  · rintro (hm | ⟨l, i, hl, hi, rfl⟩)
    · obtain ⟨i, hi, hm⟩ := List.mem_flatMap.mp hm
      rw [List.mem_range] at hi
      rcases List.mem_pair.mp hm with rfl | rfl
      · exact ⟨_, .tx hi⟩
      · exact ⟨_, .leaf hi⟩
    · simp only [merkleKey_eq, Nat.mul_comm i 2]
      exact ⟨.node (l + 1) i, .node hl hi⟩
  · rintro ⟨key, h⟩
    cases h with
    | tx hi => exact .inl (List.mem_flatMap.mpr ⟨_, List.mem_range.mpr hi, List.mem_cons_self⟩)
    | leaf hi => exact .inl (List.mem_flatMap.mpr ⟨_, List.mem_range.mpr hi, List.mem_cons_of_mem _ List.mem_cons_self⟩)
    | node hl hi =>
      simp only [← merkleKey_eq, Nat.mul_comm 2]
      exact .inr ⟨_, _, hl, hi, rfl⟩

theorem described_merkleCalls : Described (merkleCalls n height) := by
  intro m hm
  obtain ⟨key, h⟩ := mem_merkleCalls.mp hm
  cases h with
  | tx => exact ⟨.tx _, rfl, rfl, fun h => absurd rfl h⟩
  | leaf => exact ⟨.leaf _, rfl, rfl, fun _ => ⟨_, rfl⟩⟩
  | node => exact ⟨.node _ _, rfl, rfl, fun _ => ⟨_, rfl⟩⟩

/-- The calls as the builder sees them. -/
abbrev merkleAdds (n height : ℕ) : List (AddCall String Bytes String Unit) := (merkleCalls n height).map Metered.call

theorem MerkleAdds.mem {key : Key} (h : MerkleAdds n height key m) : m.call ∈ merkleAdds n height :=
  List.mem_map_of_mem (mem_merkleCalls.mpr ⟨key, h⟩)

theorem mem_merkleAdds {c : AddCall String Bytes String Unit} (hc : c ∈ merkleAdds n height) :
    ∃ key m, MerkleAdds n height key m ∧ m.call = c := by
  obtain ⟨m, hm, rfl⟩ := List.mem_map.mp hc
  obtain ⟨key, h⟩ := mem_merkleCalls.mp hm
  exact ⟨key, m, h, rfl⟩

theorem MerkleAdds.key {key : Key} (h : MerkleAdds n height key m) : m.call.key = key.str := by
  cases h <;> rfl

theorem merkleAdds_nodup (n height : ℕ) : (keysOfCalls (merkleAdds n height)).Nodup := by
  have hleaves := ranked_leaves (List.nodup_range (n := n))
  have hlevels := ranked_levels (f := Key.node) (fun | .node l _ => l | _ => 0) (fun l i j he => by injection he)
    (fun _ _ => rfl) (fun _ _ => Nat.le_refl 1) (fun _ _ => Nat.lt_succ_self 1) height fun l => n >>> l
  have hkeys : keysOfCalls (merkleAdds n height) = ((List.range n).flatMap (fun i => [Key.tx i, Key.leaf i]) ++
      (List.range' 1 height).flatMap fun l => (List.range (n >>> l)).map (Key.node l)).map Key.str := by
    unfold merkleAdds merkleCalls
    simp only [keysOfCalls, List.map_map, List.map_append, List.map_flatMap, List.map_cons, List.map_nil]
    refine congrArg₂ _ rfl (List.flatMap_congr fun l hl => List.map_congr_left fun i _ => ?_)
    rw [Function.comp_apply, Function.comp_apply, merkleKey_eq, merkleName,
      name_pos (List.mem_range'_1.mp hl).1]
    rfl
  rw [hkeys]
  exact (hleaves.append hlevels (by decide) (by decide)).nodup.map Key.str_injective

theorem adds_merkleName {l i : ℕ} (hl : l ≤ height) (hi : i < 2 ^ height >>> l) :
    ∃ m, MerkleAdds (2 ^ height) height (merkleName l i) m := by
  cases l with
  | zero => exact ⟨_, .leaf hi⟩
  | succ l => exact ⟨_, .node hl hi⟩

theorem MerkleAdds.deps {key : Key} (h : MerkleAdds (2 ^ height) height key m) :
    ∀ k ∈ m.call.deps, ∃ key' m', MerkleAdds (2 ^ height) height key' m' ∧ k = key'.str := by
  cases h with
  | tx => nofun
  | leaf hi =>
    intro k hk
    rw [List.mem_singleton.mp hk]
    exact ⟨_, _, .tx hi, rfl⟩
  | @node l i hl hi =>
    rw [two_pow_shiftRight hl] at hi
    intro k hk
    obtain ⟨x, hx, rfl⟩ := (mem_children fun x => (merkleName l x).str).mp hk
    have hlt := half_lt hl hi hx
    rw [← two_pow_shiftRight (Nat.le_of_lt hl)] at hlt
    obtain ⟨m, hm⟩ := adds_merkleName (Nat.le_of_lt hl) hlt
    exact ⟨_, m, hm, rfl⟩

/-- The graph is built. -/
theorem merkle_built (height : ℕ) : ∃ dag, (∀ subtreeLevel subtreeIndex, buildMerkleDag (2 ^ height) height subtreeLevel
    subtreeIndex = .ok (dag, merkleKey height 0, merkleKey subtreeLevel subtreeIndex)) ∧
      dag.BuiltFrom (merkleAdds (2 ^ height) height) := by
  obtain ⟨b, dag, hb, hdag, hfrom⟩ := addCalls_build (merkleAdds_nodup (2 ^ height) height)
    (List.ne_nil_of_mem (MerkleAdds.tx (Nat.two_pow_pos height)).mem) fun c hc k hk => by
      obtain ⟨key, m, ha, rfl⟩ := mem_merkleAdds hc
      obtain ⟨key', m', ha', rfl⟩ := ha.deps k hk
      exact ha'.key ▸ List.mem_map_of_mem ha'.mem
  refine ⟨dag, fun subtreeLevel subtreeIndex => ?_, hfrom⟩
  rw [buildMerkleDag, hb, ok_bind, hdag]
  rfl

/-! ## Requests -/

section

variable {dag : DagT} {outs : List String} (hb : dag.BuiltFrom (merkleAdds (2 ^ height) height))
include hb

theorem merkle_deterministic : dag.Deterministic := by
  refine hb.deterministic fun c hc f hf w w' args => ?_
  obtain ⟨key, m, ha, rfl⟩ := mem_merkleAdds hc
  cases ha <;> cases hf <;> rfl

/-- The values are those of the hash tree over the transactions. -/
theorem merkle_value {l i : ℕ} (hl : l ≤ height) (hi : i < 2 ^ height >>> l) :
    dag.HasValue (merkleKey l i) (txNode 0 fakeEncodedTx l i) := by
  rw [two_pow_shiftRight hl, lt_two_pow_sub] at hi
  rw [merkleKey_eq]
  refine hasValue_tree hb (fun _ => hashLeafWithIters_length _ _) (fun j hj => ?_) (fun k j hk hj => ?_) hl hi
  · have hlt : j < 2 ^ height := lt_two_pow_sub (l := 0).mpr hj
    have htx : dag.HasValue (txKey j) (fakeEncodedTx j) := hb.hasValue_source (MerkleAdds.tx hlt).mem
    exact hb.hasValue_task (MerkleAdds.leaf hlt).mem (.cons htx .nil) (leafTask_ok 0 () _)
  · rw [← lt_two_pow_sub, ← two_pow_shiftRight hk] at hj
    exact (MerkleAdds.node hk hj).mem

end

/-- What is under a node. -/
def merkleKeys (l i : ℕ) : List Key := keys (fun j => [.leaf j, .tx j]) Key.node l i

theorem mem_merkleKeys {l i : ℕ} {key : Key} : key ∈ merkleKeys l i ↔ (∃ j, j / 2 ^ l = i ∧ (key = .leaf j ∨ key = .tx j)) ∨
    ∃ k j, 0 < k ∧ k ≤ l ∧ j / 2 ^ (l - k) = i ∧ key = .node k j := by
  rw [merkleKeys, mem_keys]
  simp only [List.mem_pair]

theorem merkleName_mem {l i k j : ℕ} (hk : k ≤ l) (hj : j / 2 ^ (l - k) = i) : merkleName k j ∈ merkleKeys l i :=
  name_mem_keys (fun _ => List.mem_cons_self) hk hj

theorem merkleKeys_closed {l i : ℕ} {key : Key} (ha : MerkleAdds n height key m) (hkey : key ∈ merkleKeys l i) :
    ∀ k ∈ m.call.deps, ∃ key' ∈ merkleKeys l i, k = key'.str := by
  rw [mem_merkleKeys] at hkey
  cases ha with
  | tx => nofun
  | leaf hi =>
    rcases hkey with ⟨j, hj, he | he⟩ | ⟨k, j, -, -, -, he⟩ <;> cases he
    intro k hk
    rw [List.mem_singleton.mp hk]
    exact ⟨.tx _, mem_merkleKeys.mpr (.inl ⟨_, hj, .inr rfl⟩), rfl⟩
  | @node l' _ hl hi =>
    rcases hkey with ⟨j, hj, he | he⟩ | ⟨k, j, -, hle, hj, he⟩ <;> cases he
    intro k hk
    obtain ⟨x, hx, rfl⟩ := (mem_children fun x => (merkleName l' x).str).mp hk
    exact ⟨_, merkleName_mem (Nat.le_of_lt hle) (half_div hle hj hx), rfl⟩

theorem merkleKeys_needed {dag : DagT} {outs : List String} (hb : dag.BuiltFrom (merkleAdds (2 ^ height) height)) {l i : ℕ}
    (hl : l ≤ height) (hi : i < 2 ^ (height - l)) (hn : dag.NeedsKey outs (merkleName l i).str) :
    ∀ key ∈ merkleKeys l i, dag.NeedsKey outs key.str := by
  refine forall_keys (P := fun key : Key => dag.NeedsKey outs key.str) (fun k j hk hj hP x hx => ?_)
    (fun j hj hP key hkey => ?_) hn
  · have hlt := under_lt hk hl hi hj
    have hkh : k < height := Nat.lt_of_lt_of_le hk hl
    rw [← two_pow_shiftRight hkh] at hlt
    exact hb.needsKey_dep (MerkleAdds.node hkh hlt).mem hP ((mem_children fun x => (merkleName k x).str).mpr ⟨x, hx, rfl⟩)
  · rcases List.mem_pair.mp hkey with rfl | rfl
    · exact hP
    · exact hb.needsKey_dep (MerkleAdds.leaf (under_lt (Nat.zero_le l) hl hi hj)).mem hP List.mem_cons_self

theorem merkleKeys_nodup (l i : ℕ) : (merkleKeys l i).Nodup := by
  refine nodup_keys (fun j => by simp) (fun j j' x hx hx' => ?_) (fun k j k' j' he => ?_) (fun j k j' hmem => ?_) l i
  · rcases List.mem_pair.mp hx with rfl | rfl <;> rcases List.mem_pair.mp hx' with he | he <;> cases he <;> rfl
  · injection he with hk hj
    exact ⟨hk, hj⟩
  · rcases List.mem_pair.mp hmem with he | he <;> cases he

theorem merkleKeys_count (l i : ℕ) (counter : Counter) :
    (merkleKeys l i).countP (fun key => decide (key.counter = some counter)) = counts (2 ^ l) (2 ^ l - 1) 0 counter := by
  cases counter with
  | ranLeafHash =>
    rw [merkleKeys, countP_keys (n := 1) (b := false) (fun _ => rfl) (fun _ _ => rfl)]
    simp [counts]
  | ranInternalHash =>
    rw [merkleKeys, countP_keys (n := 0) (b := true) (fun _ => rfl) (fun _ _ => rfl)]
    simp [counts]
  | ranProofAsm =>
    rw [merkleKeys, countP_keys (n := 0) (b := false) (fun _ => rfl) (fun _ _ => rfl)]
    simp [counts]

/-- **The nodes of the tree.** For any power of two of leaves the graph is built, and a request for any node of any level is
answered by either executor with the node of the hash tree over the transactions. Every completed run hashes the leaves under
the node and the inner nodes there, itself included, and nothing else; for the root that is everything. -/
theorem subtree_request (height : ℕ) : ∃ dag, (∀ subtreeLevel subtreeIndex, buildMerkleDag (2 ^ height) height subtreeLevel
    subtreeIndex = .ok (dag, merkleKey height 0, merkleKey subtreeLevel subtreeIndex)) ∧
    ∀ level ≤ height, ∀ index < 2 ^ height >>> level, Serves (merkleCalls (2 ^ height) height) dag [merkleKey level index]
      [txNode 0 fakeEncodedTx level index] (counts (2 ^ level) (2 ^ level - 1) 0) := by
  obtain ⟨dag, hdag, hb⟩ := merkle_built height
  refine ⟨dag, hdag, fun level hl index hi => ?_⟩
  have hv := merkle_value hb hl hi
  rw [two_pow_shiftRight hl] at hi
  have hn : dag.NeedsKey [merkleKey level index] (merkleName level index).str :=
    merkleKey_eq level index ▸ hv.needsKey List.mem_cons_self
  have hneed := merkleKeys_needed hb hl hi hn
  have hleaf : Key.leaf (index * 2 ^ level) ∈ merkleKeys level index :=
    mem_merkleKeys.mpr (.inl ⟨_, Nat.mul_div_cancel _ (Nat.two_pow_pos level), .inl rfl⟩)
  have hlt : index * 2 ^ level < 2 ^ height :=
    under_lt (Nat.zero_le level) hl hi (Nat.mul_div_cancel _ (Nat.two_pow_pos level))
  refine serves hb described_merkleCalls (merkle_deterministic hb) (.cons hv .nil) (merkleKeys_nodup level index)
    (needsKey_iff hb (fun k hk => ?_) (fun c hc key hkey he => ?_) hneed) (MerkleAdds.leaf hlt).mem (hneed _ hleaf)
    (List.cons_ne_nil _ _) (merkleKeys_count level index)
  · rw [List.mem_singleton.mp hk, merkleKey_eq]
    exact ⟨_, merkleName_mem (Nat.le_refl _) (by rw [Nat.sub_self, pow_zero, Nat.div_one]), rfl⟩
  · obtain ⟨key', m, ha, rfl⟩ := mem_merkleAdds hc
    obtain rfl := Key.str_injective (ha.key.symm.trans he)
    exact merkleKeys_closed ha hkey

end DagExec.Client
