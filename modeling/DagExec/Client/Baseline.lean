import DagExec.Client.RollupValues

/-!
# The naive baseline

Level by level it computes the root of the hash tree over its leaves, with one hash for each inner node
(`naiveMerkleRoot_ok`), and chunk by chunk the root of the tree over all transactions (`naive_ok`).
-/

namespace DagExec.Client

open Outcome MerkleTree WhileLoop

variable {ε : Type} {txs : List Bytes} {spec : RollupSpec}

theorem map_chunksExact2 (hashIters : ℕ) (level : List Bytes) :
    (chunksExact2 level).map (fun pair => hashNodeWithIters hashIters pair.1 pair.2) =
      pairUp (hashNodeWithIters hashIters) level := by
  induction level using chunksExact2.induct with
  | case1 a b rest ih => rw [chunksExact2, pairUp, List.map_cons, ih]
  | case2 level hno =>
    rcases level with _ | ⟨a, _ | ⟨b, rest⟩⟩
    · rfl
    · rfl
    · exact absurd rfl (hno a b rest)

/-- The loop, from a level on. -/
theorem naiveLevel_loop (hashIters : ℕ) (f : ℕ → Bytes) (n l internal : ℕ) :
    loop (naiveLevel hashIters : _ → Ctl _ (Outcome ε (Bytes × ℕ)))
      ((List.range (2 ^ n)).map (node (hashNodeWithIters hashIters) f l), internal) =
    some (.ok (node (hashNodeWithIters hashIters) f (l + n) 0, internal + (2 ^ n - 1))) := by
  induction n generalizing l internal with
  | zero =>
    refine loop_done ?_
    unfold naiveLevel
    rw [if_neg (by simp)]
    rfl
  | succ n ih =>
    have hpos := Nat.two_pow_pos n
    have hlevel := pairUp_level (hashNodeWithIters hashIters) f l (2 ^ n)
    rw [← pow_succ'] at hlevel
    have hstep : (naiveLevel hashIters ((List.range (2 ^ (n + 1))).map (node (hashNodeWithIters hashIters) f l), internal) :
        Ctl _ (Outcome ε (Bytes × ℕ))) =
        .next ((List.range (2 ^ n)).map (node (hashNodeWithIters hashIters) f (l + 1)), internal + 2 ^ n) := by
      have hpairs := map_chunksExact2 hashIters ((List.range (2 ^ (n + 1))).map (node (hashNodeWithIters hashIters) f l))
      have hlen := congrArg List.length hpairs
      rw [hlevel, List.length_map, List.length_map, List.length_range] at hlen
      unfold naiveLevel
      rw [if_pos (by rw [List.length_map, List.length_range, pow_succ]; omega)]
      dsimp only
      rw [hpairs, hlevel, hlen]
    rw [loop_next hstep, ih, pow_succ, show l + 1 + n = l + (n + 1) by omega,
      show internal + 2 ^ n + (2 ^ n - 1) = internal + (2 ^ n * 2 - 1) by omega]

/-- **The root of the hash tree over the leaves, and as many hashes as it has inner nodes.** -/
theorem naiveMerkleRoot_ok {f : ℕ → Bytes} (hf : ∀ i, (f i).length = 32) (hashIters : ℕ) {n : ℕ} (hn : 0 < n) :
    (naiveMerkleRoot ((List.range (2 ^ n)).map f) hashIters : Outcome ε (Bytes × ℕ)) =
      .ok (node (hashNodeWithIters hashIters) f n 0, 2 ^ n - 1) := by
  have hsize : ((List.range (2 ^ n)).map f).length = 2 ^ n := by rw [List.length_map, List.length_range]
  have htwo : 2 ^ n ≥ 2 := Nat.one_lt_two_pow (Nat.ne_of_gt hn)
  have hpow : ((List.range (2 ^ n)).map f).length.isPowerOfTwo ∧ ((List.range (2 ^ n)).map f).length ≥ 2 := by
    rw [hsize]
    exact ⟨⟨n, rfl⟩, htwo⟩
  have hleaves : ((List.range (2 ^ n)).map f).forM (fun l => (assert (decide (l.length = 32)) "l.len() == 32" : Outcome ε Unit)) =
      .ok () := by
    generalize List.range (2 ^ n) = is
    induction is with
    | nil => rfl
    | cons i is ih =>
      show ((assert (decide ((f i).length = 32)) "l.len() == 32" : Outcome ε Unit) >>= fun _ => (is.map f).forM _) = .ok ()
      rw [assert, if_pos (decide_eq_true (hf i)), ok_bind, ih]
  have hloop := naiveLevel_loop (ε := ε) hashIters f n 0 0
  rw [Nat.zero_add, Nat.zero_add] at hloop
  unfold naiveMerkleRoot
  rw [assert, if_pos (decide_eq_true hpow), ok_bind, hleaves, ok_bind, whileLoop]
  exact congrArg (fun r => Option.getD r Outcome.diverge) hloop

/-- The leaf hashes of a chunk are a slice of those of the batch. -/
theorem slice_leaves (h : spec.Fits txs) {c : ℕ} (hc : c < txs.length / spec.chunkSize) :
    (slice (txs.map (hashLeafWithIters spec.hashIters)) (c * spec.chunkSize) (c * spec.chunkSize + spec.chunkSize) :
      Outcome ε (List Bytes)) = .ok ((List.range (2 ^ spec.chunkHeight)).map (chunkLeaf txs spec c)) := by
  have hend : c * spec.chunkSize + spec.chunkSize ≤ txs.length := by
    have hlast := h.leaf_lt hc (Nat.sub_lt h.chunkSize_pos Nat.one_pos)
    have hpos := h.chunkSize_pos
    omega
  rw [slice, if_pos ⟨Nat.le_add_right _ _, by rwa [List.length_map]⟩, Nat.add_sub_cancel_left, h.chunk]
  refine congrArg Outcome.ok (List.ext_getElem? fun j => ?_)
  rw [List.getElem?_take, List.getElem?_map]
  rcases Nat.lt_or_ge j (2 ^ spec.chunkHeight) with hj | hj
  · have hlt := h.leaf_lt hc (h.chunk ▸ hj)
    rw [h.chunk] at hlt
    rw [if_pos hj, List.getElem?_range hj, Option.map_some, List.getElem?_drop, List.getElem?_map,
      List.getElem?_eq_getElem hlt, Option.map_some, chunkLeaf, txAt, List.getElem?_eq_getElem hlt,
      Option.getD_some]
  · rw [if_neg (Nat.not_lt.mpr hj), List.getElem?_eq_none (by simpa using hj), Option.map_none]

/-- **The baseline computes the root of the tree over all transactions.** -/
theorem naive_ok (h : spec.Fits txs) : (naiveFullBatchCommitment txs spec.chunkSize spec.hashIters : Outcome ε Naive) =
    .ok ⟨txNode spec.hashIters (txAt txs) (spec.chunkHeight + spec.batchHeight) 0, txs.length, txs.length - 1⟩ := by
  have hlen : txs.length = 2 ^ spec.batchHeight * 2 ^ spec.chunkHeight := by rw [h.batch, h.chunk]
  have hleaf : ∀ i, (hashLeafWithIters spec.hashIters (txAt txs i)).length = 32 := fun i => hashLeafWithIters_length _ _
  have hchunk : ∀ (s : List Bytes × ℕ) c, c < txs.length / spec.chunkSize →
      (naiveChunk (txs.map (hashLeafWithIters spec.hashIters)) spec.chunkSize spec.hashIters s c : Outcome ε _) =
        .ok (s.1 ++ [txNode spec.hashIters (txAt txs) spec.chunkHeight c], s.2 + (2 ^ spec.chunkHeight - 1)) := by
    intro s c hc
    rw [naiveChunk, slice_leaves h hc, ok_bind, naiveMerkleRoot_ok (chunkLeaf_length txs spec c) _ h.chunkHeight_pos, ok_bind,
      node_chunkLeaf]
    rfl
  have hloop : ∀ k ≤ txs.length / spec.chunkSize, (List.range k).foldlM (naiveChunk (txs.map
      (hashLeafWithIters spec.hashIters)) spec.chunkSize spec.hashIters) ([], 0) = (.ok ((List.range k).map (txNode spec.hashIters
        (txAt txs) spec.chunkHeight), k * (2 ^ spec.chunkHeight - 1)) : Outcome ε _) := by
    intro k
    induction k with
    | zero => intro _; rw [Nat.zero_mul]; rfl
    | succ k ih =>
      intro hk
      rw [List.range_succ, List.foldlM_append, ih (Nat.le_of_succ_le hk), ok_bind, List.foldlM_cons, hchunk _ k hk, ok_bind,
        List.map_append, Nat.succ_mul]
      rfl
  have htop := naiveMerkleRoot_ok (ε := ε) (f := txNode spec.hashIters (txAt txs) spec.chunkHeight)
    (node_length hleaf _ _) spec.hashIters h.batchHeight_pos
  rw [← h.nChunks] at htop
  rw [naiveFullBatchCommitment, hloop _ (Nat.le_refl _), ok_bind, htop, ok_bind, List.length_map, h.nChunks, txNode, ← node_node]
  dsimp only
  rw [two_pow_mul_pred, ← hlen]
  rfl

end DagExec.Client
