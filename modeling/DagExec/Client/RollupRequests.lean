import DagExec.Client.RollupNeeds
import DagExec.Client.Baseline
import Mathlib.Data.List.Dedup

/-!
# The requests of the rollup

The batch root is what the baseline computes, for as many hashes (`batch_root_request`). The roots of some chunks cost the
hashes of these chunks only (`chunk_roots_request`). The proof of the target transaction, requested with the root of its chunk,
is accepted against it, for the hashes of the chunk (`proof_request`). A target that is not there is an error of the builder
(`rollup_builds_iff`).
-/

namespace DagExec.Client

open Outcome DagBuilder MerkleTree ListFacts

variable {txs : List Bytes} {spec : RollupSpec} {dag : DagT} {outs : List String} {key : Key} {m : Metered}

/-- A request, from what it needs. -/
theorem rollup_serves (hb : dag.BuiltFrom (rollupAdds txs spec)) {vals : List Bytes}
    (hvals : List.Forall₂ dag.HasValue outs vals) {needed : List Key} (hnodup : needed.Nodup)
    (hbase : ∀ k ∈ outs, ∃ key ∈ needed, k = key.str)
    (hclosed : ∀ key m, Adds txs spec key m → key ∈ needed → ∀ k ∈ m.call.deps, ∃ key' ∈ needed, k = key'.str)
    (hneed : ∀ key ∈ needed, dag.NeedsKey outs key.str) {c : ℕ} (hc : c < txs.length / spec.chunkSize)
    (hroot : Key.chunkRoot c ∈ needed) {readings : Counter → ℕ}
    (hcount : ∀ counter, needed.countP (fun key => decide (key.counter = some counter)) = readings counter) :
    Serves (rollupCalls txs spec) dag outs vals readings :=
  serves hb described_rollupCalls (rollup_deterministic hb) hvals hnodup (rollup_needs hb hbase hclosed hneed)
    (Adds.chunkRoot hc).mem (hneed _ hroot) (List.cons_ne_nil _ _) hcount

/-- **The batch root.** For sizes as asserted and a target among the transactions the graph is built and the baseline returns,
and the request for the batch root is answered by either executor, with the root that the baseline computes: that of the hash
tree over all transactions. In every completed run the closures hash as many leaves and inner nodes as the baseline counts, and
assemble no proof. -/
theorem batch_root_request (h : spec.Fits txs) : ∃ dag keys naive, buildRollupCommitmentDag txs spec = .ok (dag, keys) ∧
    (naiveFullBatchCommitment txs spec.chunkSize spec.hashIters : Outcome String Naive) = .ok naive ∧
    naive.batchRoot = txNode spec.hashIters (txAt txs) (spec.chunkHeight + spec.batchHeight) 0 ∧
    naive.countLeafHash = txs.length ∧ naive.countInternalHash = txs.length - 1 ∧
    Serves (rollupCalls txs spec) dag [keys.batchRoot] [naive.batchRoot]
      (counts naive.countLeafHash naive.countInternalHash 0) := by
  obtain ⟨dag, hdag, hb⟩ := rollup_built h
  have hv := batchRoot_value h hb
  have hchunk : 0 < txs.length / spec.chunkSize := by
    rw [h.nChunks]
    exact Nat.two_pow_pos _
  have hroot : Key.chunkRoot 0 ∈ batchKeys spec :=
    mem_batchKeys.mpr (.inr (.inl ⟨0, Nat.zero_div _, List.mem_cons_self⟩))
  refine ⟨dag, _, _, hdag, naive_ok h, rfl, rfl, rfl, ?_⟩
  refine rollup_serves hb (.cons hv .nil) (batchKeys_nodup h) (fun k hk => ?_) (fun key m ha hkey => batchKeys_closed h ha hkey)
    (batchKeys_needed h hb (hv.needsKey List.mem_cons_self)) hchunk hroot (batchKeys_count h)
  rw [List.mem_singleton.mp hk]
  exact ⟨_, List.mem_cons_self, rfl⟩

theorem batch_root_request_main : ∃ dag keys naive, buildRollupCommitmentDag mainTxs ⟨4, 2, 2, 5, 0⟩ = .ok (dag, keys) ∧
    (naiveFullBatchCommitment mainTxs 4 0 : Outcome String Naive) = .ok naive ∧
    naive.batchRoot = txNode 0 (txAt mainTxs) 4 0 ∧
    naive.countLeafHash = mainTxs.length ∧ naive.countInternalHash = mainTxs.length - 1 ∧
    Serves (rollupCalls mainTxs ⟨4, 2, 2, 5, 0⟩) dag [keys.batchRoot] [naive.batchRoot]
      (counts naive.countLeafHash naive.countInternalHash 0) :=
  batch_root_request (fits_main 0)

/-- **Chunk roots.** Any request for roots of chunks is answered by either executor with their nodes of the tree over all
transactions. Every completed run hashes the leaves and inner nodes of the requested chunks, each once, and nothing else. -/
theorem chunk_roots_request (h : spec.Fits txs) : ∃ dag keys, buildRollupCommitmentDag txs spec = .ok (dag, keys) ∧
    keys.targetChunkRoot = chunkRootKey (spec.targetTx / spec.chunkSize) ∧
    ∀ cs : List ℕ, cs ≠ [] → (∀ c ∈ cs, c < txs.length / spec.chunkSize) → Serves (rollupCalls txs spec) dag
      (cs.map chunkRootKey) (cs.map (txNode spec.hashIters (txAt txs) spec.chunkHeight))
      (counts (cs.dedup.length * spec.chunkSize) (cs.dedup.length * (spec.chunkSize - 1)) 0) := by
  obtain ⟨dag, hdag, hb⟩ := rollup_built h
  refine ⟨dag, _, hdag, rfl, fun cs hne hcs => ?_⟩
  have hmem : ∀ key, key ∈ cs.dedup.flatMap (chunkKeys spec) ↔ ∃ c ∈ cs, key ∈ chunkKeys spec c := fun key => by
    rw [List.mem_flatMap]
    simp only [List.mem_dedup]
  have hvals : List.Forall₂ dag.HasValue (cs.map chunkRootKey) (cs.map (txNode spec.hashIters (txAt txs) spec.chunkHeight)) := by
    rw [List.forall₂_map_left_iff, List.forall₂_map_right_iff, List.forall₂_same]
    exact fun c hc => chunkRoot_value h hb (hcs c hc)
  obtain ⟨c₀, hc₀⟩ := List.exists_mem_of_ne_nil cs hne
  refine rollup_serves hb hvals ?_ (fun k hk => ?_) (fun key m ha hkey k hk => ?_) (fun key hkey => ?_) (hcs c₀ hc₀)
    ((hmem _).mpr ⟨c₀, hc₀, List.mem_cons_self⟩) fun counter => ?_
  · exact nodup_flatMap_of (chunkOf spec) cs.nodup_dedup (fun c _ => chunkKeys_nodup spec c)
      fun c _ key hkey => chunkOf_mem h hkey
  · obtain ⟨c, hc, rfl⟩ := List.mem_map.mp hk
    exact ⟨.chunkRoot c, (hmem _).mpr ⟨c, hc, List.mem_cons_self⟩, rfl⟩
  · obtain ⟨c, hc, hkc⟩ := (hmem key).mp hkey
    obtain ⟨key', hkey', rfl⟩ := chunkKeys_closed h ha hkc k hk
    exact ⟨key', (hmem key').mpr ⟨c, hc, hkey'⟩, rfl⟩
  · obtain ⟨c, hc, hkc⟩ := (hmem key).mp hkey
    have hroot := (chunkRoot_value h hb (hcs c hc)).needsKey (List.mem_map_of_mem hc)
    exact chunkKeys_needed h hb (hcs c hc) hroot key hkc
  · have hconst : cs.dedup.map (List.countP (fun key => decide (key.counter = some counter)) ∘ chunkKeys spec) =
        cs.dedup.map fun _ => counts spec.chunkSize (spec.chunkSize - 1) 0 counter :=
      List.map_congr_left fun c _ => chunkKeys_count h c counter
    rw [List.countP_flatMap, hconst, List.map_const', List.sum_replicate_nat]
    cases counter <;> rfl

/-- Two chunks, one of them requested twice: 8 leaves and 6 inner nodes. -/
theorem chunk_roots_request_main : ∃ dag keys, buildRollupCommitmentDag mainTxs ⟨4, 2, 2, 5, 0⟩ = .ok (dag, keys) ∧
    Serves (rollupCalls mainTxs ⟨4, 2, 2, 5, 0⟩) dag ["chunk/1/root", "chunk/3/root", "chunk/1/root"]
      [txNode 0 (txAt mainTxs) 2 1, txNode 0 (txAt mainTxs) 2 3, txNode 0 (txAt mainTxs) 2 1] (counts 8 6 0) := by
  obtain ⟨dag, keys, hdag, -, h⟩ := chunk_roots_request (fits_main 0)
  exact ⟨dag, keys, hdag, h [1, 3, 1] (List.cons_ne_nil _ _) (by decide)⟩

/-- **The proof of the target transaction.** Requested with the root of its chunk it is answered by either executor: the bytes
of a proof with the hash of the transaction as its leaf and the position in the chunk as its index, and the verifier accepts
these bytes against the root. Every completed run hashes what the root of the chunk costs and assembles one proof. -/
theorem proof_request (h : spec.Fits txs) (hheight : spec.chunkHeight ≤ 64) (hpos : spec.targetTx % spec.chunkSize < 2 ^ 32) :
    ∃ dag keys, buildRollupCommitmentDag txs spec = .ok (dag, keys) ∧
    ∃ (root : Bytes) (p : MerkleProof), p.leaf = hashLeafWithIters spec.hashIters (txAt txs spec.targetTx) ∧
      p.index.toNat = spec.targetTx % spec.chunkSize ∧ p.siblings.length = spec.chunkHeight ∧
      Serves (rollupCalls txs spec) dag [keys.targetChunkRoot, keys.targetChunkProof] [root, p.bytes]
        (counts spec.chunkSize (spec.chunkSize - 1) 1) ∧
      verifyMerkleProof root p.bytes spec.hashIters = .ok true := by
  obtain ⟨dag, hdag, hb⟩ := rollup_built h
  have hc := h.targetChunk_lt
  have hroot := chunkRoot_value h hb hc
  have hproof := proof_value h hb hheight hpos
  generalize hindex : UInt32.ofNat (spec.targetTx % spec.chunkSize) = index at hproof
  have hidx : index.toNat = spec.targetTx % spec.chunkSize := by
    rw [← hindex, UInt32.toNat_ofNat']
    exact Nat.mod_eq_of_lt hpos
  have htop : index.toNat / 2 ^ spec.chunkHeight = 0 := by
    rw [hidx]
    exact Nat.div_eq_of_lt h.pos_lt
  have hverify := verify_honest (chunkLeaf_length txs spec (spec.targetTx / spec.chunkSize)) spec.hashIters 0 index hheight []
  rw [Nat.zero_add, htop, node_chunkLeaf, List.append_nil] at hverify
  have hleaf : chunkLeaf txs spec (spec.targetTx / spec.chunkSize) index.toNat =
      hashLeafWithIters spec.hashIters (txAt txs spec.targetTx) := by
    rw [chunkLeaf, hidx, ← h.chunk, Nat.div_add_mod']
  refine ⟨dag, _, hdag, _, _, hleaf, hidx, length_honest_siblings _ _ _ _ hheight, ?_, hverify⟩
  have hbase : ∀ k ∈ [chunkRootKey (spec.targetTx / spec.chunkSize), chunkProofKey (spec.targetTx / spec.chunkSize)
      (spec.targetTx % spec.chunkSize)], ∃ key ∈ Key.chunkProof (spec.targetTx / spec.chunkSize)
        (spec.targetTx % spec.chunkSize) :: chunkKeys spec (spec.targetTx / spec.chunkSize), k = key.str := by
    intro k hk
    rcases List.mem_pair.mp hk with rfl | rfl
    · exact ⟨.chunkRoot _, List.mem_cons_of_mem _ List.mem_cons_self, rfl⟩
    · exact ⟨_, List.mem_cons_self, rfl⟩
  refine rollup_serves hb (.cons hroot (.cons hproof .nil)) (List.nodup_cons.mpr ⟨fun hmem => ?_, chunkKeys_nodup spec _⟩) hbase
    (fun key m ha hkey k hk => ?_) (fun key hkey => ?_) hc (List.mem_cons_of_mem _ List.mem_cons_self) fun counter => ?_
  · rcases mem_chunkKeys.mp hmem with he | ⟨j, -, he | he⟩ | ⟨l, j, -, -, -, he⟩ <;> cases he
  · rcases List.mem_cons.mp hkey with rfl | hkey
    · cases ha
      obtain ⟨key', hkey', rfl⟩ := proofCall_deps h k hk
      exact ⟨key', List.mem_cons_of_mem _ hkey', rfl⟩
    · obtain ⟨key', hkey', rfl⟩ := chunkKeys_closed h ha hkey k hk
      exact ⟨key', List.mem_cons_of_mem _ hkey', rfl⟩
  · rcases List.mem_cons.mp hkey with rfl | hkey
    · exact hproof.needsKey (List.mem_cons_of_mem _ List.mem_cons_self)
    · exact chunkKeys_needed h hb hc (hroot.needsKey List.mem_cons_self) key hkey
  · rw [List.countP_cons, chunkKeys_count h]
    cases counter <;> rfl

theorem proof_request_main : ∃ dag keys, buildRollupCommitmentDag mainTxs ⟨4, 2, 2, 5, 0⟩ = .ok (dag, keys) ∧
    ∃ (root : Bytes) (p : MerkleProof), p.leaf = hashLeafWithIters 0 (txAt mainTxs 5) ∧ p.index.toNat = 1 ∧
      p.siblings.length = 2 ∧
      Serves (rollupCalls mainTxs ⟨4, 2, 2, 5, 0⟩) dag [keys.targetChunkRoot, keys.targetChunkProof] [root, p.bytes]
        (counts 4 3 1) ∧
      verifyMerkleProof root p.bytes 0 = .ok true :=
  proof_request (fits_main 0) (by decide) (by decide)

/-! ## The target -/

/-- **A target that is not there.** For sizes as asserted the graph is built exactly when the target is one of the transactions.
Otherwise the error names the proof's task and the target's leaf, which is the first dependency that is missing: every earlier
one, of that task or of a node before it, is there. -/
theorem rollup_builds_iff (h : spec.Sized txs) :
    ((∃ r, buildRollupCommitmentDag txs spec = .ok r) ↔ spec.targetTx < txs.length) ∧
    (txs.length ≤ spec.targetTx → buildRollupCommitmentDag txs spec = .err (.missingDependency
      (chunkProofKey (spec.targetTx / spec.chunkSize) (spec.targetTx % spec.chunkSize)) (leafKey spec.targetTx))) ∧
    (txs.length ≤ spec.targetTx → FirstMissing (rollupAdds txs spec)
      (chunkProofKey (spec.targetTx / spec.chunkSize) (spec.targetTx % spec.chunkSize)) (leafKey spec.targetTx)) := by
  have herr : txs.length ≤ spec.targetTx → buildRollupCommitmentDag txs spec = .err (.missingDependency
      (chunkProofKey (spec.targetTx / spec.chunkSize) (spec.targetTx % spec.chunkSize)) (leafKey spec.targetTx)) := by
    intro htarget
    obtain ⟨b, hb, hst⟩ := addCalls_ok (rollup_nodup txs spec) (b := new) fun k _ => List.not_mem_nil
    have hmissing := (build_missing_iff (b := b) hst _ _).mpr (rollup_firstMissing h htarget)
    rw [buildRollupCommitmentDag, hb, ok_bind, hmissing]
    rfl
  refine ⟨⟨?_, ?_⟩, herr, rollup_firstMissing h⟩
  · rintro ⟨r, hr⟩
    by_contra hlt
    rw [herr (Nat.not_lt.mp hlt)] at hr
    cases hr
  · intro htarget
    obtain ⟨dag, hdag, -⟩ := rollup_built ⟨h, htarget⟩
    exact ⟨_, hdag⟩

theorem rollup_builds_iff_main : buildRollupCommitmentDag mainTxs ⟨4, 2, 2, 16, 0⟩ =
    .err (.missingDependency "chunk/4/proof/tx/0" "leaf/16") :=
  (rollup_builds_iff ⟨rfl, rfl, by decide, by decide⟩).2.1 (by decide)

end DagExec.Client
