import DagExec.Client.Calls
import DagExec.Client.Proof

/-!
# The rollup commitment: `examples/rollup.rs`

The transactions are hashed into leaves, each chunk is a hash tree over its leaves, and the batch is a hash tree over the chunk
roots. `buildRollupCommitmentDag` makes one graph of that, `naiveFullBatchCommitment` computes it level by level. Sizes are those
of vectors, so shifts by a level do not overflow.
-/

namespace DagExec.Client

open Outcome DagBuilder WhileLoop

structure RollupSpec where
  chunkSize : Nat
  chunkHeight : Nat
  batchHeight : Nat
  targetTx : Nat
  hashIters : Nat

structure RollupKeys where
  batchRoot : String
  targetChunkRoot : String
  targetChunkProof : String

/-! ## Parameters -/

section

variable {ε : Type}

/-- `assert!(b)`. -/
def assert (b : Bool) (text : String) : Outcome ε Unit := if b then .ok () else .panic (.debugAssert text)

/-- `x.trailing_zeros()` of an integer of `w` bits. -/
def trailingZeros : (w x : Nat) → Nat
  | 0, _ => 0
  | w + 1, x => if x % 2 = 1 then 0 else trailingZeros w (x / 2) + 1

def log2Pow2 (x : Nat) : Outcome ε Nat := do
  assert (decide (x.isPowerOfTwo ∧ x > 0)) "x.is_power_of_two() && x > 0"
  pure (trailingZeros 64 x)

/-- The parameters, as `main` checks and derives them. -/
def rollupParams (batchSize chunkSize targetTx hashIters : Nat) : Outcome ε RollupSpec := do
  assert (decide (batchSize.isPowerOfTwo ∧ batchSize ≥ 2)) "batch_size.is_power_of_two() && batch_size >= 2"
  assert (decide (chunkSize.isPowerOfTwo ∧ chunkSize ≥ 2)) "chunk_size.is_power_of_two() && chunk_size >= 2"
  assert (decide (batchSize % chunkSize = 0)) "batch_size % chunk_size == 0"
  let nChunks := batchSize / chunkSize
  assert (decide (nChunks.isPowerOfTwo ∧ nChunks ≥ 2)) "n_chunks.is_power_of_two() && n_chunks >= 2"
  let chunkHeight ← log2Pow2 chunkSize
  let batchHeight ← log2Pow2 nChunks
  pure ⟨chunkSize, chunkHeight, batchHeight, targetTx, hashIters⟩

end

/-- The transactions of `main`. -/
def mainTxs : List Bytes := (List.range 16).map fakeEncodedTx

/-! ## The graph -/

/-- `|xs| Ok(xs[0].as_ref().clone())`. -/
def aliasTask : TaskFn Bytes String Unit := fun _ xs => toCall (Outcome.index xs 0)

/-- `xs[0]` is the leaf, the rest are the siblings. -/
def proofTask (pos chunkHeight : Nat) : TaskFn Bytes String Unit := fun _ xs => toCall do
  let leaf ← Outcome.index xs 0
  ensure32 leaf
  (xs.drop 1).forM ensure32
  let index := UInt32.ofNat pos
  let height := UInt8.ofNat chunkHeight
  let siblings ← slice xs 1 xs.length
  encodeMerkleProofV1 index height leaf siblings

/-- 1) A source and a leaf for each transaction. -/
def leafCalls (txs : List Bytes) (hashIters : Nat) : List Metered :=
  txs.zipIdx.flatMap fun p =>
    [⟨.source (txKey p.2) p.1, none⟩, ⟨.task (leafKey p.2) [txKey p.2] (leafTask hashIters), some .ranLeafHash⟩]

/-- 2) The inner nodes of a chunk, level by level, and its root under a stable name. -/
def chunkCalls (spec : RollupSpec) (c : Nat) : List Metered :=
  ((List.range' 1 spec.chunkHeight).flatMap fun lvl =>
    let width := spec.chunkSize >>> lvl
    (List.range width).map fun idx =>
      let left := chunkChildKey c (lvl - 1) (idx * 2) spec.chunkSize
      let right := chunkChildKey c (lvl - 1) (idx * 2 + 1) spec.chunkSize
      let out := chunkNodeKey c lvl idx
      ⟨.task out [left, right] (nodeTask spec.hashIters), some .ranInternalHash⟩) ++
  [⟨.task (chunkRootKey c) [chunkNodeKey c spec.chunkHeight 0] aliasTask, none⟩]

/-- 3) The tree over the chunk roots. -/
def batchCalls (spec : RollupSpec) (nChunks : Nat) : List Metered :=
  ((List.range' 1 spec.batchHeight).flatMap fun lvl =>
    let width := nChunks >>> lvl
    (List.range width).map fun idx =>
      let left := batchChildKey (lvl - 1) (idx * 2)
      let right := batchChildKey (lvl - 1) (idx * 2 + 1)
      let out := batchNodeKey lvl idx
      ⟨.task out [left, right] (nodeTask spec.hashIters), some .ranInternalHash⟩) ++
  [⟨.task batchRootKey [batchNodeKey spec.batchHeight 0] aliasTask, none⟩]

/-- 4) The inclusion proof of the target transaction within its chunk. -/
def proofCall (spec : RollupSpec) : Metered :=
  let targetChunk := spec.targetTx / spec.chunkSize
  let pos := spec.targetTx % spec.chunkSize
  let deps := leafKey spec.targetTx ::
    (List.range spec.chunkHeight).map fun lvl => chunkSiblingKey targetChunk pos lvl spec.chunkSize
  ⟨.task (chunkProofKey targetChunk pos) deps (proofTask pos spec.chunkHeight), some .ranProofAsm⟩

/-- The calls, in program order. -/
def rollupCalls (txs : List Bytes) (spec : RollupSpec) : List Metered :=
  let nChunks := txs.length / spec.chunkSize
  leafCalls txs spec.hashIters ++ (List.range nChunks).flatMap (chunkCalls spec) ++ batchCalls spec nChunks ++ [proofCall spec]

def buildRollupCommitmentDag (txs : List Bytes) (spec : RollupSpec) :
    Outcome (BuildError String) (DagT × RollupKeys) := do
  let targetChunk := spec.targetTx / spec.chunkSize
  let pos := spec.targetTx % spec.chunkSize
  let b ← ((rollupCalls txs spec).map Metered.call).foldlM addCall new
  let dag ← b.build
  pure (dag, ⟨batchRootKey, chunkRootKey targetChunk, chunkProofKey targetChunk pos⟩)

/-! ## The baseline -/

section

variable {ε α : Type}

/-- `xs.chunks_exact(2)`. -/
def chunksExact2 : List α → List (α × α)
  | a :: b :: rest => (a, b) :: chunksExact2 rest
  | _ => []

/-- `while level.len() > 1`. -/
def naiveLevel (hashIters : Nat) (s : List Bytes × Nat) : Ctl (List Bytes × Nat) (Outcome ε (Bytes × Nat)) :=
  if s.1.length > 1 then
    let pairs := chunksExact2 s.1
    .next (pairs.map fun pair => hashNodeWithIters hashIters pair.1 pair.2, s.2 + pairs.length)
  else .done do
    let root ← Outcome.index s.1 0
    pure (root, s.2)

def naiveMerkleRoot (leaves : List Bytes) (hashIters : Nat) : Outcome ε (Bytes × Nat) := do
  assert (decide (leaves.length.isPowerOfTwo ∧ leaves.length ≥ 2)) "leaves.len().is_power_of_two() && leaves.len() >= 2"
  leaves.forM fun l => assert (decide (l.length = 32)) "l.len() == 32"
  whileLoop (naiveLevel hashIters) (leaves, 0)

structure Naive where
  batchRoot : Bytes
  countLeafHash : Nat
  countInternalHash : Nat

/-- The loop over the chunks: the roots so far, and how many inner nodes were hashed. -/
def naiveChunk (leafHashes : List Bytes) (chunkSize hashIters : Nat) (s : List Bytes × Nat) (c : Nat) :
    Outcome ε (List Bytes × Nat) := do
  let start := c * chunkSize
  let stop := start + chunkSize
  let leaves ← slice leafHashes start stop
  let r ← naiveMerkleRoot leaves hashIters
  pure (s.1 ++ [r.1], s.2 + r.2)

def naiveFullBatchCommitment (txs : List Bytes) (chunkSize hashIters : Nat) : Outcome ε Naive := do
  let nChunks := txs.length / chunkSize
  let leafHashes := txs.map (hashLeafWithIters hashIters)
  let s ← (List.range nChunks).foldlM (naiveChunk leafHashes chunkSize hashIters) ([], 0)
  let r ← naiveMerkleRoot s.1 hashIters
  pure ⟨r.1, leafHashes.length, s.2 + r.2⟩

end

end DagExec.Client
