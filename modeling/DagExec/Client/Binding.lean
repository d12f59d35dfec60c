import DagExec.Client.Proof

/-!
# What a verified proof binds

The verifier accepts exactly the bytes of a proof that leads to the root (`verify_exact`). Of two accepted byte strings with one
height and the same used bits of the index, leaf and siblings are the same or two hashed pairs collide (`verify_binding`).
The honest proof of any node of a tree is accepted, not of leaves only: the height is not bound (`honest_proofs`).
-/

namespace DagExec.Client

open Outcome MerkleTree

/-- **The format, exactly.** What a well-formed proof is encoded as begins no other proof's bytes. The verifier gives a verdict
exactly on such bytes, whatever is behind them: whether the proof leads to the root. It panics exactly on the bytes of 65
levels, and of its errors `invalid side bit` never occurs. -/
theorem verify_exact (hashIters : Nat) :
    (∀ p : MerkleProof, (encodeMerkleProofV1 p.index p.height p.leaf p.siblings : Outcome String Bytes) = .ok p.bytes) ∧
    (∀ (p q : MerkleProof) (rest rest' : Bytes), p.bytes ++ rest = q.bytes ++ rest' → p = q ∧ rest = rest') ∧
    ∀ root proof : Bytes,
      (∀ b, verifyMerkleProof root proof hashIters = .ok b ↔ root.length = 32 ∧
        ∃ (p : MerkleProof) (rest : Bytes), proof = p.bytes ++ rest ∧ b = decide (p.root hashIters = root)) ∧
      (∀ pn, verifyMerkleProof root proof hashIters = .panic pn ↔ root.length = 32 ∧
        pn = .debugAssert "attempt to shift right with overflow" ∧ ∃ index height leaf sibs side sib rest,
          List.length leaf = 32 ∧ 64 < UInt8.toNat height ∧ sibs.length = 64 ∧ (∀ sib ∈ sibs, sib.length = 32) ∧
          List.length sib = 32 ∧
          proof = headerBytes index height leaf ++ (levelBytes index 0 sibs ++ side :: (sib ++ rest))) ∧
      ((∃ b, verifyMerkleProof root proof hashIters = .ok b) ∨ (∃ pn, verifyMerkleProof root proof hashIters = .panic pn) ∨
        ∃ e, e ∈ ["root must be 32 bytes", "proof too short", "unsupported proof version", "proof truncated",
          "side bit does not match index bit"] ∧ verifyMerkleProof root proof hashIters = .err e) :=
  ⟨encode_bytes, fun _ _ _ _ => bytes_prefix_free,
    fun root proof => ⟨fun _ => verify_ok_iff, fun _ => verify_panic_iff, verify_returns root proof hashIters⟩⟩

/-! ## Binding -/

section

variable {p q : MerkleProof} {root : Bytes} {hashIters : Nat}

/-- The pairs hashed on a proof's way up, from the bits of the index that count. -/
def MerkleProof.hashed (p : MerkleProof) (hashIters : Nat) : List (Bytes × Bytes) :=
  MerkleTree.hashed (hashNodeWithIters hashIters) (p.index.toNat % 2 ^ p.siblings.length) p.leaf p.siblings

theorem MerkleProof.root_mod (p : MerkleProof) (hashIters : Nat) : p.root hashIters =
    climb (hashNodeWithIters hashIters) (p.index.toNat % 2 ^ p.siblings.length) p.leaf p.siblings :=
  (climb_mod _ _ _ _).symm

/-- Two proofs of one place with one root are the same there, or they collide. -/
theorem MerkleProof.root_binding (hlen : p.siblings.length = q.siblings.length)
    (hidx : p.index.toNat % 2 ^ p.siblings.length = q.index.toNat % 2 ^ q.siblings.length)
    (h : p.root hashIters = q.root hashIters) : (p.leaf = q.leaf ∧ p.siblings = q.siblings) ∨
      Collide (hashNodeWithIters hashIters) (p.hashed hashIters) (q.hashed hashIters) := by
  rw [p.root_mod, q.root_mod, hidx] at h
  rw [MerkleProof.hashed, MerkleProof.hashed, hidx]
  exact climb_binding _ hlen h

theorem verify_true {proof : Bytes} (h : verifyMerkleProof root proof hashIters = .ok true) :
    ∃ (p : MerkleProof) (rest : Bytes), proof = p.bytes ++ rest ∧ p.root hashIters = root := by
  obtain ⟨-, p, rest, hp, hb⟩ := verify_ok_iff.mp h
  exact ⟨p, rest, hp, of_decide_eq_true hb.symm⟩

theorem verify_bytes (hroot : root.length = 32) (h : p.root hashIters = root) (rest : Bytes) :
    verifyMerkleProof root (p.bytes ++ rest) hashIters = .ok true :=
  verify_ok_iff.mpr ⟨hroot, p, rest, rfl, (decide_eq_true h).symm⟩

end

/-! ## Honest proofs -/

/-- The hash tree over some transactions. -/
def txNode (hashIters : Nat) (txs : ℕ → Bytes) (l i : ℕ) : Bytes :=
  node (hashNodeWithIters hashIters) (fun i => hashLeafWithIters hashIters (txs i)) l i

theorem path_length {f : ℕ → Bytes} (hf : ∀ i, (f i).length = 32) (hashIters l i n : ℕ) :
    ∀ sib ∈ path (hashNodeWithIters hashIters) f l i n, sib.length = 32 := by
  induction n generalizing l i with
  | zero => nofun
  | succ n ih =>
    intro sib hsib
    rcases List.mem_cons.mp hsib with rfl | hsib
    · exact node_length hf _ _ _
    · exact ih _ _ sib hsib

/-- The honest proof of a node, `m` levels up. -/
def honest {f : ℕ → Bytes} (hf : ∀ i, (f i).length = 32) (hashIters l : ℕ) (index : UInt32) (m : ℕ) (hm : m ≤ 64) :
    MerkleProof where
  index := index
  leaf := node (hashNodeWithIters hashIters) f l index.toNat
  siblings := path (hashNodeWithIters hashIters) f l index.toNat m
  leaf_length := node_length hf _ _ _
  sibling_length := path_length hf _ _ _ _
  height_le := by rwa [length_path]

section

variable {f : ℕ → Bytes} (hf : ∀ i, (f i).length = 32) (hashIters l : ℕ) (index : UInt32) {m : ℕ} (hm : m ≤ 64)

theorem honest_leaf : (honest hf hashIters l index m hm).leaf = node (hashNodeWithIters hashIters) f l index.toNat := rfl

theorem honest_siblings :
    (honest hf hashIters l index m hm).siblings = path (hashNodeWithIters hashIters) f l index.toNat m := rfl

theorem honest_root : (honest hf hashIters l index m hm).root hashIters =
    node (hashNodeWithIters hashIters) f (l + m) (index.toNat / 2 ^ m) :=
  climb_path _ f l index.toNat m

theorem length_honest_siblings : (honest hf hashIters l index m hm).siblings.length = m := length_path _ f l index.toNat m

theorem verify_honest (rest : Bytes) : verifyMerkleProof (node (hashNodeWithIters hashIters) f (l + m) (index.toNat / 2 ^ m))
    ((honest hf hashIters l index m hm).bytes ++ rest) hashIters = .ok true :=
  verify_bytes (node_length hf _ _ _) (honest_root hf hashIters l index hm) rest

end

/-! ## The results -/

/-- **An accepted proof binds leaf and siblings**, in a build with overflow checks (without them the shift above 64 levels is
masked). Two byte strings that the verifier accepts against one root are the bytes of two proofs, and if these have the same
height and agree on that many low bits of the index, then they have the same leaf and the same siblings, or at some level they
hash two different pairs to one value. -/
theorem verify_binding (root proof proof' : Bytes) (hashIters : Nat) (h : verifyMerkleProof root proof hashIters = .ok true)
    (h' : verifyMerkleProof root proof' hashIters = .ok true) :
    ∃ (p q : MerkleProof) (rest rest' : Bytes), proof = p.bytes ++ rest ∧ proof' = q.bytes ++ rest' ∧
      (p.siblings.length = q.siblings.length →
        p.index.toNat % 2 ^ p.siblings.length = q.index.toNat % 2 ^ q.siblings.length →
        (p.leaf = q.leaf ∧ p.siblings = q.siblings) ∨
          Collide (hashNodeWithIters hashIters) (p.hashed hashIters) (q.hashed hashIters)) := by
  obtain ⟨p, rest, rfl, hp⟩ := verify_true h
  obtain ⟨q, rest', rfl, hq⟩ := verify_true h'
  exact ⟨p, q, rest, rest', rfl, rfl, fun hlen hidx => MerkleProof.root_binding hlen hidx (hp.trans hq.symm)⟩

/-- Eight equal transactions, and eight more: the proofs of the sixth and of the fourteenth, with something behind the first. -/
theorem verify_binding_honest : ∃ (p q : MerkleProof) (rest rest' : Bytes),
    (honest (fun _ => hashLeafWithIters_length 0 [1]) 0 0 5 3 (by decide)).bytes ++ [7] = p.bytes ++ rest ∧
      (honest (fun _ => hashLeafWithIters_length 0 [1]) 0 0 13 3 (by decide)).bytes ++ [] = q.bytes ++ rest' ∧
      p.siblings.length = 3 ∧ p.index = 5 ∧ q.index = 13 ∧
      ((p.leaf = q.leaf ∧ p.siblings = q.siblings) ∨ Collide (hashNodeWithIters 0) (p.hashed 0) (q.hashed 0)) := by
  obtain ⟨p, q, rest, rest', hp, hq, hbind⟩ := verify_binding (txNode 0 (fun _ => [1]) 3 0) _ _ 0
    (verify_honest (fun _ => hashLeafWithIters_length 0 [1]) 0 0 5 (by decide : 3 ≤ 64) [7])
    (verify_honest (fun _ => hashLeafWithIters_length 0 [1]) 0 0 13 (by decide : 3 ≤ 64) [])
  obtain ⟨rfl, -⟩ := bytes_prefix_free hp
  obtain ⟨rfl, -⟩ := bytes_prefix_free hq
  exact ⟨_, _, rest, rest', hp, hq, rfl, rfl, rfl, hbind rfl rfl⟩

/-- **Honest proofs.** In the hash tree over any transactions, let a node of level `l + m` be the root. The verifier accepts the
encoded node of level `l` below it at any index with its siblings: inner nodes are accepted as leaves of a lower proof. What it
accepts at height `m` and the same used bits of the index has that node as its leaf and those siblings, or at some level it
hashes a pair that collides with the tree's. -/
theorem honest_proofs (hashIters : ℕ) (txs : ℕ → Bytes) (l m : ℕ) (index : UInt32) (hm : m ≤ 64) :
    ∃ q : MerkleProof, q.leaf = txNode hashIters txs l index.toNat ∧
      (∀ k < m, q.siblings[k]? = some (txNode hashIters txs (l + k) ((index.toNat / 2 ^ k) ^^^ 1))) ∧
      (encodeMerkleProofV1 index (UInt8.ofNat m) q.leaf q.siblings : Outcome String Bytes) = .ok q.bytes ∧
      (∀ rest, verifyMerkleProof (txNode hashIters txs (l + m) (index.toNat / 2 ^ m)) (q.bytes ++ rest) hashIters = .ok true) ∧
      ∀ (p : MerkleProof) (rest : Bytes), p.siblings.length = m → p.index.toNat % 2 ^ m = index.toNat % 2 ^ m →
        verifyMerkleProof (txNode hashIters txs (l + m) (index.toNat / 2 ^ m)) (p.bytes ++ rest) hashIters = .ok true →
        (p.leaf = q.leaf ∧ p.siblings = q.siblings) ∨
          Collide (hashNodeWithIters hashIters) (p.hashed hashIters) (q.hashed hashIters) := by
  have hf : ∀ i, (hashLeafWithIters hashIters (txs i)).length = 32 := fun i => hashLeafWithIters_length _ _
  have hlen := length_honest_siblings hf hashIters l index hm
  refine ⟨honest hf hashIters l index m hm, rfl, fun k hk => getElem?_path _ _ l index.toNat hk, ?_,
    verify_honest hf hashIters l index hm, fun p rest hp hidx hv => ?_⟩
  · have henc := encode_bytes (ε := String) (honest hf hashIters l index m hm)
    rwa [MerkleProof.height, hlen] at henc
  · obtain ⟨p', rest', hbytes, hroot⟩ := verify_true hv
    obtain ⟨rfl, -⟩ := bytes_prefix_free hbytes
    refine MerkleProof.root_binding (hp.trans hlen.symm) ?_ (hroot.trans (honest_root hf hashIters l index hm).symm)
    rw [hp, hlen]
    exact hidx

theorem honest_proofs_small : ∃ q : MerkleProof, q.leaf = txNode 0 (fun _ => [1]) 0 5 ∧
    ∀ rest, verifyMerkleProof (txNode 0 (fun _ => [1]) 3 0) (q.bytes ++ rest) 0 = .ok true := by
  obtain ⟨q, hq, -, -, hv, -⟩ := honest_proofs 0 (fun _ => [1]) 0 3 5 (by decide)
  exact ⟨q, hq, hv⟩

end DagExec.Client
