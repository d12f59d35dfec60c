import DagExec.Client.RollupGraph

/-!
# Values of the rollup's keys

They are nodes of one hash tree over all transactions: a chunk root is a node of level `chunk_height` (`chunkRoot_value`), the
batch root is the root (`batchRoot_value`), and the proof is the honest one (`proof_value`).
-/

namespace DagExec.Client

open Outcome DagBuilder MerkleTree ListFacts

variable {txs : List Bytes} {spec : RollupSpec} {dag : DagT} {outs : List String} {key : Key} {m : Metered}

/-- The transactions by position. -/
def txAt (txs : List Bytes) (i : ℕ) : Bytes := txs[i]?.getD []

/-- The leaf hashes of a chunk. -/
def chunkLeaf (txs : List Bytes) (spec : RollupSpec) (c j : ℕ) : Bytes :=
  hashLeafWithIters spec.hashIters (txAt txs (c * 2 ^ spec.chunkHeight + j))

theorem chunkLeaf_length (txs : List Bytes) (spec : RollupSpec) (c j : ℕ) : (chunkLeaf txs spec c j).length = 32 :=
  hashLeafWithIters_length _ _

/-- The tree of a chunk is inside the tree over all transactions. -/
theorem node_chunkLeaf (txs : List Bytes) (spec : RollupSpec) (c : ℕ) :
    node (hashNodeWithIters spec.hashIters) (chunkLeaf txs spec c) spec.chunkHeight 0 =
      txNode spec.hashIters (txAt txs) spec.chunkHeight c := by
  have hnode := node_offset (hashNodeWithIters spec.hashIters) (fun i => hashLeafWithIters spec.hashIters (txAt txs i)) c
    (Nat.le_refl spec.chunkHeight) 0
  rwa [Nat.sub_self, pow_zero, Nat.mul_one, Nat.add_zero] at hnode

/-! ## Values -/

section

variable (h : spec.Fits txs) (hb : dag.BuiltFrom (rollupAdds txs spec))
include hb

theorem rollup_deterministic : dag.Deterministic := by
  refine hb.deterministic fun c hc f hf w w' args => ?_
  obtain ⟨key, m, ha, rfl⟩ := mem_rollupAdds hc
  cases ha <;> cases hf <;> rfl

theorem leaf_value {i : ℕ} (hi : i < txs.length) :
    dag.HasValue (leafKey i) (hashLeafWithIters spec.hashIters (txAt txs i)) := by
  have hx : txs[i]? = some (txAt txs i) := by
    rw [txAt, List.getElem?_eq_getElem hi, Option.getD_some]
  have htx : dag.HasValue (txKey i) (txAt txs i) := hb.hasValue_source (Adds.tx hx).mem
  exact hb.hasValue_task (Adds.leaf hx).mem (.cons htx .nil) (leafTask_ok spec.hashIters () _)

include h

/-- The nodes of a chunk's tree. -/
theorem chunk_value {c l i : ℕ} (hc : c < txs.length / spec.chunkSize) (hl : l ≤ spec.chunkHeight)
    (hi : i / 2 ^ (spec.chunkHeight - l) = 0) : dag.HasValue (chunkName spec c l i).str
      (node (hashNodeWithIters spec.hashIters) (chunkLeaf txs spec c) l i) := by
  refine hasValue_tree hb (chunkLeaf_length txs spec c) (fun j hj => ?_) (fun k j hk hj => ?_) hl hi
  · have hlt := h.leaf_lt hc (h.chunk ▸ lt_two_pow_sub (l := 0).mpr hj)
    have hv := leaf_value hb hlt
    rw [h.chunk] at hv
    show dag.HasValue (leafKey (c * spec.chunkSize + j)) _
    rw [h.chunk]
    exact hv
  · rw [← lt_two_pow_sub, ← h.chunk_width hk] at hj
    exact (Adds.chunkNode hc hk hj).mem

/-- A chunk root is a node of the tree over all transactions. -/
theorem chunkRoot_value {c : ℕ} (hc : c < txs.length / spec.chunkSize) :
    dag.HasValue (chunkRootKey c) (txNode spec.hashIters (txAt txs) spec.chunkHeight c) := by
  have hv := chunk_value h hb hc (Nat.le_refl _) (i := 0) (Nat.zero_div _)
  rw [chunkName, name_pos h.chunkHeight_pos, node_chunkLeaf] at hv
  exact hb.hasValue_task (w := ()) (Adds.chunkRoot hc).mem (.cons hv .nil) rfl

/-- And so are the nodes above. -/
theorem batch_value {l i : ℕ} (hl : l ≤ spec.batchHeight) (hi : i / 2 ^ (spec.batchHeight - l) = 0) :
    dag.HasValue (batchName l i).str (txNode spec.hashIters (txAt txs) (spec.chunkHeight + l) i) := by
  have hlen : ∀ i, (txNode spec.hashIters (txAt txs) spec.chunkHeight i).length = 32 :=
    node_length (fun _ => hashLeafWithIters_length _ _) _ _
  have hv : dag.HasValue (batchName l i).str (node (hashNodeWithIters spec.hashIters)
      (txNode spec.hashIters (txAt txs) spec.chunkHeight) l i) := by
    refine hasValue_tree hb hlen (fun j hj => ?_) (fun k j hk hj => ?_) hl hi
    · refine chunkRoot_value h hb ?_
      rw [h.nChunks]
      exact lt_two_pow_sub (l := 0).mpr hj
    · rw [← lt_two_pow_sub, ← h.batch_width hk] at hj
      exact (Adds.batchNode hk hj).mem
  rw [txNode, ← node_node]
  exact hv

/-- The batch root is the root. -/
theorem batchRoot_value : dag.HasValue batchRootKey
    (txNode spec.hashIters (txAt txs) (spec.chunkHeight + spec.batchHeight) 0) := by
  have hv := batch_value h hb (Nat.le_refl _) (i := 0) (Nat.zero_div _)
  rw [batchName, name_pos h.batchHeight_pos] at hv
  exact hb.hasValue_task (w := ()) Adds.batchRoot.mem (.cons hv .nil) rfl

/-- The proof is the honest one. -/
theorem proof_value (hheight : spec.chunkHeight ≤ 64) (hpos : spec.targetTx % spec.chunkSize < 2 ^ 32) :
    dag.HasValue (chunkProofKey (spec.targetTx / spec.chunkSize) (spec.targetTx % spec.chunkSize))
      (honest (chunkLeaf_length txs spec (spec.targetTx / spec.chunkSize)) spec.hashIters 0
        (UInt32.ofNat (spec.targetTx % spec.chunkSize)) spec.chunkHeight hheight).bytes := by
  generalize hindex : UInt32.ofNat (spec.targetTx % spec.chunkSize) = index
  have hidx : index.toNat = spec.targetTx % spec.chunkSize := by
    rw [← hindex, UInt32.toNat_ofNat']
    exact Nat.mod_eq_of_lt hpos
  have hleaf := honest_leaf (chunkLeaf_length txs spec (spec.targetTx / spec.chunkSize)) spec.hashIters 0 index hheight
  have hsibs := honest_siblings (chunkLeaf_length txs spec (spec.targetTx / spec.chunkSize)) spec.hashIters 0 index hheight
  have hpindex : (honest (chunkLeaf_length txs spec (spec.targetTx / spec.chunkSize)) spec.hashIters 0 index spec.chunkHeight
    hheight).index = index := rfl
  rw [hidx] at hleaf
  rw [hidx, path_eq_map] at hsibs
  simp only [Nat.zero_add] at hsibs
  generalize honest (chunkLeaf_length txs spec (spec.targetTx / spec.chunkSize)) spec.hashIters 0 index spec.chunkHeight
    hheight = p at hleaf hsibs hpindex ⊢
  refine hb.hasValue_task (w := ()) Adds.proof.mem (?_ : List.Forall₂ _ _ (p.leaf :: p.siblings)) ?_
  · refine .cons ?_ ?_
    · rw [hleaf, node, chunkLeaf, ← h.chunk, Nat.div_add_mod']
      exact leaf_value hb h.target
    · rw [hsibs, List.forall₂_map_left_iff, List.forall₂_map_right_iff, List.forall₂_same]
      intro lvl hl
      rw [List.mem_range] at hl
      rw [chunkSiblingKey_eq]
      exact chunk_value h hb h.targetChunk_lt (Nat.le_of_lt hl) (lt_two_pow_sub.mp (sibling_lt h.toSized hl))
  · have hheight' : UInt8.ofNat spec.chunkHeight = p.height := by
      rw [MerkleProof.height, hsibs, List.length_map, List.length_range]
    have hslice : (slice (p.leaf :: p.siblings) 1 (p.leaf :: p.siblings).length : Outcome String (List Bytes)) =
        .ok p.siblings := by
      rw [slice, if_pos ⟨by rw [List.length_cons]; omega, Nat.le_refl _⟩, List.length_cons, Nat.add_sub_cancel]
      exact congrArg Outcome.ok (List.take_length)
    unfold proofTask
    rw [index_of_get List.getElem?_cons_zero, ok_bind, ensure32_ok p.leaf_length, ok_bind, List.drop_one, List.tail_cons,
      forM_ensure32 p.sibling_length, ok_bind, hslice, ok_bind, hheight', hindex, ← hpindex, encode_bytes]
    rfl

end

end DagExec.Client
