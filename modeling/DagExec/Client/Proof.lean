import DagExec.Client.Hash

/-!
# The proof format: `encode_merkle_proof_v1` and `verify_merkle_proof` of `examples/rollup.rs`

A proof is a version, a height, an index, a leaf and, level by level, a side bit and a sibling. `MerkleProof` has what the
bytes of a well-formed proof stand for, `bytes` are its bytes (`encode_bytes`), and no proof's bytes begin another's
(`bytes_prefix_free`). The verifier reads those bytes and ignores what is behind them (`verify_exact`).
-/

namespace DagExec.Client

open Outcome

variable {ε α : Type}

/-- `&xs[a..b]`. -/
def slice (xs : List α) (a b : Nat) : Outcome ε (List α) :=
  if a ≤ b ∧ b ≤ xs.length then ok ((xs.drop a).take (b - a)) else panic .indexOutOfBounds

/-- `x >> n` on a `usize` of 64 bits, with overflow checks. -/
def shiftRight (x n : Nat) : Outcome ε Nat :=
  if n < 64 then ok (x >>> n) else panic (.debugAssert "attempt to shift right with overflow")

/-! ## The functions -/

def encodeMerkleProofV1 (index : UInt32) (height : UInt8) (leafHash : Bytes) (siblings : List Bytes) : Outcome ε Bytes := do
  debugAssert (decide (leafHash.length = 32)) "leaf_hash.len() == 32"
  debugAssert (decide (siblings.length = height.toNat)) "siblings.len() == height as usize"
  let out := [1, height] ++ toLeBytes 4 index.toNat ++ leafHash
  siblings.zipIdx.foldlM (fun out p => do
    let bit ← shiftRight index.toNat p.2
    pure (out ++ [UInt8.ofNat (bit &&& 1)] ++ p.1)) out

/-- One turn of the verifier's loop, on the offset and the current hash. -/
def verifyLevel (proof : Bytes) (idx : UInt32) (hashIters : Nat) (s : Nat × Bytes) (lvl : Nat) :
    Outcome String (Nat × Bytes) :=
  if s.1 + 1 + 32 > proof.length then .err "proof truncated"
  else do
    let side ← Outcome.index proof s.1
    let sibling ← slice proof (s.1 + 1) (s.1 + 1 + 32)
    let expected ← shiftRight idx.toNat lvl
    if side.toNat ≠ expected &&& 1 then .err "side bit does not match index bit"
    else if side = 0 then .ok (s.1 + 1 + 32, hashNodeWithIters hashIters s.2 sibling)
    else if side = 1 then .ok (s.1 + 1 + 32, hashNodeWithIters hashIters sibling s.2)
    else .err "invalid side bit"

def verifyMerkleProof (root proof : Bytes) (hashIters : Nat) : Outcome String Bool :=
  if root.length ≠ 32 then .err "root must be 32 bytes"
  else if proof.length < 1 + 1 + 4 + 32 then .err "proof too short"
  else do
    let version ← Outcome.index proof 0
    if version ≠ 1 then .err "unsupported proof version"
    else do
      let height ← Outcome.index proof 1
      let b2 ← Outcome.index proof 2
      let b3 ← Outcome.index proof 3
      let b4 ← Outcome.index proof 4
      let b5 ← Outcome.index proof 5
      let idx := UInt32.ofNat (fromLeBytes [b2, b3, b4, b5])
      let cur ← slice proof 6 (6 + 32)
      let s ← (List.range height.toNat).foldlM (verifyLevel proof idx hashIters) (6 + 32, cur)
      pure (decide (s.2 = root))

/-! ## Well-formed proofs -/

/-- The side bit of a level. -/
def sideBit (index : UInt32) (lvl : Nat) : UInt8 := UInt8.ofNat (index.toNat >>> lvl &&& 1)

/-- The bytes of the levels from `lvl` on. -/
def levelBytes (index : UInt32) : Nat → List Bytes → Bytes
  | _, [] => []
  | lvl, sib :: sibs => sideBit index lvl :: (sib ++ levelBytes index (lvl + 1) sibs)

/-- The bytes before the first level. -/
def headerBytes (index : UInt32) (height : UInt8) (leaf : Bytes) : Bytes :=
  [1, height] ++ toLeBytes 4 index.toNat ++ leaf

/-- What a proof that can be encoded says: no shift overflows and the height fits in its byte. -/
@[ext] structure MerkleProof where
  index : UInt32
  leaf : Bytes
  siblings : List Bytes
  leaf_length : leaf.length = 32
  sibling_length : ∀ sib ∈ siblings, sib.length = 32
  height_le : siblings.length ≤ 64

namespace MerkleProof

variable (p : MerkleProof)

def height : UInt8 := UInt8.ofNat p.siblings.length

def bytes : Bytes := headerBytes p.index p.height p.leaf ++ levelBytes p.index 0 p.siblings

/-- The root the proof leads to. -/
def root (hashIters : Nat) : Bytes :=
  MerkleTree.climb (hashNodeWithIters hashIters) p.index.toNat p.leaf p.siblings

theorem height_toNat : p.height.toNat = p.siblings.length := by
  have hle := p.height_le
  rw [height, UInt8.toNat_ofNat']
  exact Nat.mod_eq_of_lt (by omega)

end MerkleProof

theorem length_headerBytes (index : UInt32) (height : UInt8) (leaf : Bytes) :
    (headerBytes index height leaf).length = 6 + leaf.length := by
  unfold headerBytes
  rw [List.length_append, List.length_append, toLeBytes_length]
  rfl

theorem sideBit_toNat (index : UInt32) (lvl : Nat) : (sideBit index lvl).toNat = index.toNat >>> lvl &&& 1 := by
  rw [sideBit, UInt8.toNat_ofNat', Nat.and_one_is_mod]
  omega

theorem sideBit_eq (index : UInt32) (lvl : Nat) :
    (sideBit index lvl = 0 ∧ index.toNat >>> lvl % 2 = 0) ∨ (sideBit index lvl = 1 ∧ index.toNat >>> lvl % 2 = 1) := by
  unfold sideBit
  rw [Nat.and_one_is_mod]
  rcases Nat.mod_two_eq_zero_or_one (index.toNat >>> lvl) with h | h
  · rw [h]; exact .inl ⟨rfl, rfl⟩
  · rw [h]; exact .inr ⟨rfl, rfl⟩

/-! ## Encoding -/

theorem encode_levels {index : UInt32} {sibs : List Bytes} {lvl : Nat} (hle : lvl + sibs.length ≤ 64) (out : Bytes) :
    ((sibs.zipIdx lvl).foldlM (fun out p => do
      let bit ← shiftRight index.toNat p.2
      pure (out ++ [UInt8.ofNat (bit &&& 1)] ++ p.1)) out : Outcome ε Bytes) = ok (out ++ levelBytes index lvl sibs) := by
  induction sibs generalizing lvl out with
  | nil => rw [levelBytes, List.append_nil]; rfl
  | cons sib sibs ih =>
    rw [List.length_cons] at hle
    have hshift : (shiftRight index.toNat lvl : Outcome ε Nat) = ok (index.toNat >>> lvl) := if_pos (by omega)
    rw [List.zipIdx_cons, List.foldlM_cons, hshift, ok_bind, pure_eq, ok_bind, ih (by omega)]
    simp [levelBytes, sideBit]

/-- A proof is encoded as its bytes. -/
theorem encode_bytes (p : MerkleProof) :
    (encodeMerkleProofV1 p.index p.height p.leaf p.siblings : Outcome ε Bytes) = ok p.bytes := by
  have hle := p.height_le
  unfold encodeMerkleProofV1
  rw [debugAssert, if_pos (decide_eq_true p.leaf_length), ok_bind, debugAssert,
    if_pos (decide_eq_true p.height_toNat.symm), ok_bind]
  exact encode_levels (by omega) _

/-! ## No proof begins another -/

theorem levelBytes_injective {index : UInt32} {sibs sibs' : List Bytes} {lvl : Nat} {rest rest' : Bytes}
    (hlen : sibs.length = sibs'.length) (hs : ∀ sib ∈ sibs, sib.length = 32) (hs' : ∀ sib ∈ sibs', sib.length = 32)
    (h : levelBytes index lvl sibs ++ rest = levelBytes index lvl sibs' ++ rest') : sibs = sibs' ∧ rest = rest' := by
  induction sibs generalizing sibs' lvl with
  | nil =>
    rw [List.length_nil, eq_comm, List.length_eq_zero_iff] at hlen
    subst hlen
    exact ⟨rfl, h⟩
  | cons sib sibs ih =>
    cases sibs' with
    | nil => cases hlen
    | cons sib' sibs' =>
      rw [levelBytes, levelBytes, List.cons_append, List.cons_append, List.append_assoc, List.append_assoc] at h
      have hsame : sib.length = sib'.length := (hs sib List.mem_cons_self).trans (hs' sib' List.mem_cons_self).symm
      obtain ⟨rfl, htail⟩ := List.append_inj (List.cons.inj h).2 hsame
      obtain ⟨rfl, rfl⟩ := ih (Nat.succ.inj hlen) (fun s hm => hs s (List.mem_cons_of_mem _ hm))
        (fun s hm => hs' s (List.mem_cons_of_mem _ hm)) htail
      exact ⟨rfl, rfl⟩

theorem fromLeBytes_index (index : UInt32) : fromLeBytes (toLeBytes 4 index.toNat) = index.toNat := by
  rw [fromLeBytes_toLeBytes]
  exact Nat.mod_eq_of_lt index.toNat_lt

theorem headerBytes_injective {index index' : UInt32} {height height' : UInt8} {leaf leaf' rest rest' : Bytes}
    (hlen : leaf.length = leaf'.length) (h : headerBytes index height leaf ++ rest = headerBytes index' height' leaf' ++ rest') :
    index = index' ∧ height = height' ∧ leaf = leaf' ∧ rest = rest' := by
  unfold headerBytes at h
  rw [List.append_assoc, List.append_assoc, List.append_assoc, List.append_assoc] at h
  obtain ⟨hfirst, h⟩ := List.append_inj h rfl
  obtain ⟨hindex, h⟩ := List.append_inj h (by rw [toLeBytes_length, toLeBytes_length])
  obtain ⟨hleaf, hrest⟩ := List.append_inj h hlen
  have hback := congrArg fromLeBytes hindex
  rw [fromLeBytes_index, fromLeBytes_index] at hback
  exact ⟨UInt32.toNat_inj.mp hback, (List.cons.inj (List.cons.inj hfirst).2).1, hleaf, hrest⟩

/-- **No proof's bytes begin another's.** -/
theorem bytes_prefix_free {p q : MerkleProof} {rest rest' : Bytes} (h : p.bytes ++ rest = q.bytes ++ rest') :
    p = q ∧ rest = rest' := by
  unfold MerkleProof.bytes at h
  rw [List.append_assoc, List.append_assoc] at h
  obtain ⟨hindex, hheight, hleaf, h⟩ := headerBytes_injective (p.leaf_length.trans q.leaf_length.symm) h
  have hlen : p.siblings.length = q.siblings.length := by
    rw [← p.height_toNat, ← q.height_toNat, hheight]
  rw [hindex] at h
  obtain ⟨hsibs, hrest⟩ := levelBytes_injective hlen p.sibling_length q.sibling_length h
  exact ⟨MerkleProof.ext hindex hleaf hsibs, hrest⟩

/-! ## Verifying -/

section

variable {proof : Bytes} {idx : UInt32} {hashIters off lvl n : Nat} {cur : Bytes}

theorem shift_parity (x lvl : Nat) : x >>> (lvl + 1) = (x >>> lvl) / 2 := by
  rw [Nat.shiftRight_succ]

theorem drop_level {side : UInt8} {sib rest : Bytes} (hdrop : proof.drop off = side :: (sib ++ rest))
    (hsib : sib.length = 32) : proof.drop (off + 33) = rest := by
  rw [← List.drop_drop, hdrop, List.drop_succ_cons, ← hsib, List.drop_left]

/-- Where a whole level is left, the verifier does what its side bit says. -/
theorem verifyLevel_cons {side : UInt8} {sib rest : Bytes} (hdrop : proof.drop off = side :: (sib ++ rest))
    (hsib : sib.length = 32) : verifyLevel proof idx hashIters (off, cur) lvl =
      if 64 ≤ lvl then .panic (.debugAssert "attempt to shift right with overflow")
      else if side ≠ sideBit idx lvl then .err "side bit does not match index bit"
      else .ok (off + 33, MerkleTree.parent (hashNodeWithIters hashIters) (idx.toNat >>> lvl) cur sib) := by
  have hlen := congrArg List.length hdrop
  rw [List.length_drop, List.length_cons, List.length_append, hsib] at hlen
  have hside : proof[off]? = some side := by
    have h0 := congrArg (·[0]?) hdrop
    rwa [List.getElem?_drop, Nat.add_zero, List.getElem?_cons_zero] at h0
  have hdrop' : proof.drop (off + 1) = sib ++ rest := by
    rw [← List.drop_drop, hdrop]
    rfl
  have hslice : (slice proof (off + 1) (off + 1 + 32) : Outcome String Bytes) = .ok sib := by
    rw [slice, if_pos (by omega), hdrop', Nat.add_sub_cancel_left, ← hsib, List.take_left]
  unfold verifyLevel
  rw [if_neg (by omega), index_of_get hside, ok_bind, hslice, ok_bind]
  by_cases hlvl : 64 ≤ lvl
  · rw [if_pos hlvl, shiftRight, if_neg (by omega), panic_bind]
  · rw [if_neg hlvl, shiftRight, if_pos (by omega), ok_bind, ← sideBit_toNat]
    by_cases hbit : side = sideBit idx lvl
    · rw [if_neg (not_not.mpr (congrArg UInt8.toNat hbit)), if_neg (not_not.mpr hbit), hbit]
      unfold MerkleTree.parent MerkleTree.children
      rcases sideBit_eq idx lvl with ⟨h, hmod⟩ | ⟨h, hmod⟩
      · rw [h, if_pos rfl, if_pos hmod]
      · rw [h, if_neg (by decide), if_pos rfl, if_neg (by omega)]
    · rw [if_pos fun h => hbit (UInt8.toNat_inj.mp h), if_pos hbit]

/-- Where none is left, it says so. -/
theorem verifyLevel_short (h : proof.length < off + 33) :
    verifyLevel proof idx hashIters (off, cur) lvl = .err "proof truncated" := by
  unfold verifyLevel
  rw [if_pos (by omega)]

/-- Either is the case. -/
theorem level_cases (proof : Bytes) (off : Nat) : proof.length < off + 33 ∨
    ∃ side sib rest, sib.length = 32 ∧ proof.drop off = side :: (sib ++ rest) := by
  rcases Nat.lt_or_ge proof.length (off + 33) with h | h
  · exact .inl h
  · have hlt : off < proof.length := by omega
    refine .inr ⟨proof[off], (proof.drop (off + 1)).take 32, (proof.drop (off + 1)).drop 32, ?_, ?_⟩
    · rw [List.length_take, List.length_drop]
      omega
    · rw [List.take_append_drop, List.drop_eq_getElem_cons hlt]

theorem verifyLevel_ok_iff {s : Nat × Bytes} : verifyLevel proof idx hashIters (off, cur) lvl = .ok s ↔ lvl < 64 ∧
    ∃ sib rest, sib.length = 32 ∧ proof.drop off = sideBit idx lvl :: (sib ++ rest) ∧
      s = (off + 33, MerkleTree.parent (hashNodeWithIters hashIters) (idx.toNat >>> lvl) cur sib) := by
  constructor
  · intro h
    rcases level_cases proof off with hshort | ⟨side, sib, rest, hsib, hdrop⟩
    · rw [verifyLevel_short hshort] at h
      cases h
    · rw [verifyLevel_cons hdrop hsib] at h
      split at h
      · cases h
      · rename_i hlvl
        split at h
        · cases h
        · rename_i hbit
          rw [not_not] at hbit
          cases h
          exact ⟨by omega, sib, rest, hsib, by rw [hdrop, hbit], rfl⟩
  · rintro ⟨hlvl, sib, rest, hsib, hdrop, rfl⟩
    rw [verifyLevel_cons hdrop hsib, if_neg (by omega), if_neg (not_not.mpr rfl)]

theorem verifyLevel_panic_iff {p : Panic} : verifyLevel proof idx hashIters (off, cur) lvl = .panic p ↔ 64 ≤ lvl ∧
    p = .debugAssert "attempt to shift right with overflow" ∧
      ∃ side sib rest, sib.length = 32 ∧ proof.drop off = side :: (sib ++ rest) := by
  constructor
  · intro h
    rcases level_cases proof off with hshort | ⟨side, sib, rest, hsib, hdrop⟩
    · rw [verifyLevel_short hshort] at h
      cases h
    · rw [verifyLevel_cons hdrop hsib] at h
      split at h
      · rename_i hlvl
        cases h
        exact ⟨hlvl, rfl, side, sib, rest, hsib, hdrop⟩
      · split at h <;> cases h
  · rintro ⟨hlvl, rfl, side, sib, rest, hsib, hdrop⟩
    rw [verifyLevel_cons hdrop hsib, if_pos hlvl]

/-- Whatever it does on a level, it never finds the side bit invalid. -/
theorem verifyLevel_returns (proof : Bytes) (idx : UInt32) (hashIters off : Nat) (cur : Bytes) (lvl : Nat) :
    (∃ s, verifyLevel proof idx hashIters (off, cur) lvl = .ok s) ∨
    (∃ p, verifyLevel proof idx hashIters (off, cur) lvl = .panic p) ∨
    ∃ e, e ∈ ["proof truncated", "side bit does not match index bit"] ∧
      verifyLevel proof idx hashIters (off, cur) lvl = .err e := by
  rcases level_cases proof off with hshort | ⟨side, sib, rest, hsib, hdrop⟩
  · exact .inr (.inr ⟨_, List.mem_cons_self, verifyLevel_short hshort⟩)
  · rw [verifyLevel_cons hdrop hsib]
    split
    · exact .inr (.inl ⟨_, rfl⟩)
    · split
      · exact .inr (.inr ⟨_, List.mem_cons_of_mem _ List.mem_cons_self, rfl⟩)
      · exact .inl ⟨_, rfl⟩

/-- The loop reads the bytes of as many levels as the height says, and climbs. -/
theorem verifyLevels_ok_iff {s : Nat × Bytes} (hlvl : lvl ≤ 64) :
    (List.range' lvl n).foldlM (verifyLevel proof idx hashIters) (off, cur) = .ok s ↔ lvl + n ≤ 64 ∧
      ∃ sibs rest, sibs.length = n ∧ (∀ sib ∈ sibs, sib.length = 32) ∧ proof.drop off = levelBytes idx lvl sibs ++ rest ∧
        s = (off + 33 * n, MerkleTree.climb (hashNodeWithIters hashIters) (idx.toNat >>> lvl) cur sibs) := by
  induction n generalizing lvl off cur with
  | zero =>
    constructor
    · intro h
      cases h
      exact ⟨hlvl, [], proof.drop off, rfl, nofun, rfl, rfl⟩
    · rintro ⟨-, sibs, rest, hlen, -, -, rfl⟩
      rw [List.length_eq_zero_iff] at hlen
      subst hlen
      rfl
  | succ n ih =>
    rw [List.range'_succ, List.foldlM_cons, bind_eq_ok]
    constructor
    · rintro ⟨s', hstep, hrun⟩
      obtain ⟨hlt, sib, rest, hsib, hdrop, rfl⟩ := verifyLevel_ok_iff.mp hstep
      obtain ⟨hle, sibs, rest', hlen, hsibs, hdrop', rfl⟩ := (ih hlt).mp hrun
      rw [drop_level hdrop hsib] at hdrop'
      refine ⟨by omega, sib :: sibs, rest', by rw [List.length_cons, hlen], ?_, ?_, ?_⟩
      · rintro s' hs'
        rcases List.mem_cons.mp hs' with rfl | hs'
        · exact hsib
        · exact hsibs s' hs'
      · rw [hdrop, hdrop', levelBytes, List.cons_append, List.append_assoc]
      · rw [MerkleTree.climb, ← shift_parity]
        exact Prod.ext (by show off + 33 + 33 * n = off + 33 * (n + 1); omega) rfl
    · rintro ⟨hle, sibs, rest, hlen, hsibs, hdrop, rfl⟩
      cases sibs with
      | nil => cases hlen
      | cons sib sibs =>
        have hsib := hsibs sib List.mem_cons_self
        rw [levelBytes, List.cons_append, List.append_assoc] at hdrop
        refine ⟨_, verifyLevel_ok_iff.mpr ⟨by omega, sib, _, hsib, hdrop, rfl⟩, ?_⟩
        refine (ih (by omega)).mpr ⟨by omega, sibs, rest, Nat.succ.inj hlen,
          fun s hs => hsibs s (List.mem_cons_of_mem _ hs), drop_level hdrop hsib, ?_⟩
        rw [MerkleTree.climb, ← shift_parity]
        exact Prod.ext (by show off + 33 * (n + 1) = off + 33 + 33 * n; omega) rfl

/-- It panics when it comes to the bytes of level 64. -/
theorem verifyLevels_panic_iff {p : Panic} (hlvl : lvl ≤ 64) :
    (List.range' lvl n).foldlM (verifyLevel proof idx hashIters) (off, cur) = .panic p ↔
      p = .debugAssert "attempt to shift right with overflow" ∧ ∃ sibs side sib rest, lvl + sibs.length = 64 ∧
        sibs.length < n ∧ (∀ sib ∈ sibs, sib.length = 32) ∧ sib.length = 32 ∧
        proof.drop off = levelBytes idx lvl sibs ++ side :: (sib ++ rest) := by
  induction n generalizing lvl off cur with
  | zero =>
    constructor
    · intro h
      cases h
    · rintro ⟨-, sibs, -, -, -, -, hlt, -⟩
      cases hlt
  | succ n ih =>
    rw [List.range'_succ, List.foldlM_cons, bind_eq_panic]
    constructor
    · rintro (hstep | ⟨s', hstep, hrun⟩)
      · obtain ⟨hge, rfl, side, sib, rest, hsib, hdrop⟩ := verifyLevel_panic_iff.mp hstep
        exact ⟨rfl, [], side, sib, rest, by rw [List.length_nil]; omega, Nat.succ_pos n, nofun, hsib, hdrop⟩
      · obtain ⟨hlt, sib₀, rest₀, hsib₀, hdrop, rfl⟩ := verifyLevel_ok_iff.mp hstep
        obtain ⟨rfl, sibs, side, sib, rest, hsum, hlen, hsibs, hsib, hdrop'⟩ := (ih hlt).mp hrun
        rw [drop_level hdrop hsib₀] at hdrop'
        refine ⟨rfl, sib₀ :: sibs, side, sib, rest, by rw [List.length_cons]; omega, by rw [List.length_cons]; omega,
          fun s hs => ?_, hsib, ?_⟩
        · rcases List.mem_cons.mp hs with rfl | hs
          · exact hsib₀
          · exact hsibs s hs
        · rw [hdrop, hdrop', levelBytes, List.cons_append, List.append_assoc]
    · rintro ⟨rfl, sibs, side, sib, rest, hsum, hlen, hsibs, hsib, hdrop⟩
      cases sibs with
      | nil => exact .inl (verifyLevel_panic_iff.mpr ⟨Nat.le_of_eq hsum.symm, rfl, side, sib, rest, hsib, hdrop⟩)
      | cons sib₀ sibs =>
        have hsib₀ := hsibs sib₀ List.mem_cons_self
        rw [List.length_cons] at hsum hlen
        rw [levelBytes, List.cons_append, List.append_assoc] at hdrop
        refine .inr ⟨_, verifyLevel_ok_iff.mpr ⟨by omega, sib₀, _, hsib₀, hdrop, rfl⟩, (ih (by omega)).mpr ⟨rfl, sibs, side, sib,
          rest, by omega, by omega, fun s hs => hsibs s (List.mem_cons_of_mem _ hs), hsib, drop_level hdrop hsib₀⟩⟩

theorem verifyLevels_returns (proof : Bytes) (idx : UInt32) (hashIters : Nat) (lvls : List Nat) (s : Nat × Bytes) :
    (∃ s', lvls.foldlM (verifyLevel proof idx hashIters) s = .ok s') ∨
    (∃ p, lvls.foldlM (verifyLevel proof idx hashIters) s = .panic p) ∨
    ∃ e, e ∈ ["proof truncated", "side bit does not match index bit"] ∧
      lvls.foldlM (verifyLevel proof idx hashIters) s = .err e := by
  induction lvls generalizing s with
  | nil => exact .inl ⟨s, rfl⟩
  | cons lvl lvls ih =>
    rw [List.foldlM_cons]
    rcases verifyLevel_returns proof idx hashIters s.1 s.2 lvl with ⟨s', h⟩ | ⟨p, h⟩ | ⟨e, he, h⟩
    · rw [h, ok_bind]
      exact ih s'
    · rw [h, panic_bind]
      exact .inr (.inl ⟨p, rfl⟩)
    · rw [h, err_bind]
      exact .inr (.inr ⟨e, he, rfl⟩)

end

/-! ### The header -/

/-- What the verifier does on a version, a height, four bytes of an index and a leaf. -/
theorem verify_fields {root leaf tail : Bytes} (version height b2 b3 b4 b5 : UInt8) (hashIters : Nat)
    (hroot : root.length = 32) (hleaf : leaf.length = 32) :
    verifyMerkleProof root (version :: height :: b2 :: b3 :: b4 :: b5 :: (leaf ++ tail)) hashIters =
      if version ≠ 1 then .err "unsupported proof version"
      else (List.range' 0 height.toNat).foldlM (verifyLevel (version :: height :: b2 :: b3 :: b4 :: b5 :: (leaf ++ tail))
          (UInt32.ofNat (fromLeBytes [b2, b3, b4, b5])) hashIters) (38, leaf) >>=
        fun s => .ok (decide (s.2 = root)) := by
  have hlen : ¬ (version :: height :: b2 :: b3 :: b4 :: b5 :: (leaf ++ tail)).length < 1 + 1 + 4 + 32 := by
    simp only [List.length_cons, List.length_append]
    omega
  have hslice : (slice (version :: height :: b2 :: b3 :: b4 :: b5 :: (leaf ++ tail)) 6 (6 + 32) : Outcome String Bytes) =
      .ok leaf := by
    rw [slice, if_pos ⟨by omega, Nat.le_of_not_lt hlen⟩]
    show Outcome.ok ((leaf ++ tail).take 32) = _
    rw [← hleaf, List.take_left]
  unfold verifyMerkleProof
  rw [if_neg (not_not.mpr hroot), if_neg hlen, index_of_get List.getElem?_cons_zero, ok_bind]
  by_cases hver : version = 1
  · rw [if_neg (not_not.mpr hver), if_neg (not_not.mpr hver), hslice]
    simp only [Outcome.index, List.getElem?_cons_succ, List.getElem?_cons_zero, ok_bind, List.range_eq_range', pure_eq]
  · rw [if_pos hver, if_pos hver]

/-- A proof that is long enough has all of them. -/
theorem fields_cases {proof : Bytes} (h : 38 ≤ proof.length) : ∃ version height b2 b3 b4 b5 leaf tail,
    List.length leaf = 32 ∧ proof = version :: height :: b2 :: b3 :: b4 :: b5 :: (leaf ++ tail) := by
  obtain ⟨version, height, b2, b3, b4, b5, rest, rfl⟩ : ∃ version height b2 b3 b4 b5 rest,
      proof = version :: height :: b2 :: b3 :: b4 :: b5 :: rest := by
    rcases proof with _ | ⟨version, _ | ⟨height, _ | ⟨b2, _ | ⟨b3, _ | ⟨b4, _ | ⟨b5, rest⟩⟩⟩⟩⟩⟩
    case cons.cons.cons.cons.cons.cons => exact ⟨version, height, b2, b3, b4, b5, rest, rfl⟩
    all_goals simp at h
  refine ⟨version, height, b2, b3, b4, b5, rest.take 32, rest.drop 32, ?_, by rw [List.take_append_drop]⟩
  simp only [List.length_cons] at h
  rw [List.length_take]
  omega

theorem toLeBytes_index (b2 b3 b4 b5 : UInt8) :
    toLeBytes 4 (UInt32.ofNat (fromLeBytes [b2, b3, b4, b5])).toNat = [b2, b3, b4, b5] := by
  have hlt : fromLeBytes [b2, b3, b4, b5] < 256 ^ 4 := fromLeBytes_lt _
  rw [UInt32.toNat_ofNat', Nat.mod_eq_of_lt (Nat.lt_of_lt_of_eq hlt (by decide))]
  exact toLeBytes_fromLeBytes [b2, b3, b4, b5]

/-- The fields of version 1 are a header. -/
theorem fields_header (height b2 b3 b4 b5 : UInt8) (leaf tail : Bytes) :
    1 :: height :: b2 :: b3 :: b4 :: b5 :: (leaf ++ tail) =
      headerBytes (UInt32.ofNat (fromLeBytes [b2, b3, b4, b5])) height leaf ++ tail := by
  unfold headerBytes
  rw [toLeBytes_index]
  rfl

theorem header_fields (index : UInt32) (height : UInt8) (leaf tail : Bytes) : ∃ b2 b3 b4 b5,
    index = UInt32.ofNat (fromLeBytes [b2, b3, b4, b5]) ∧
      headerBytes index height leaf ++ tail = 1 :: height :: b2 :: b3 :: b4 :: b5 :: (leaf ++ tail) := by
  obtain ⟨b2, b3, b4, b5, hb⟩ : ∃ b2 b3 b4 b5, toLeBytes 4 index.toNat = [b2, b3, b4, b5] := ⟨_, _, _, _, rfl⟩
  have hidx : index = UInt32.ofNat (fromLeBytes [b2, b3, b4, b5]) := by
    rw [← hb, fromLeBytes_index, UInt32.ofNat_toNat]
  exact ⟨b2, b3, b4, b5, hidx, by rw [fields_header, ← hidx]⟩

/-- The verifier on a header. -/
theorem verify_header {root leaf tail : Bytes} (index : UInt32) (height : UInt8) (hashIters : Nat)
    (hroot : root.length = 32) (hleaf : leaf.length = 32) :
    verifyMerkleProof root (headerBytes index height leaf ++ tail) hashIters =
      (List.range' 0 height.toNat).foldlM (verifyLevel (headerBytes index height leaf ++ tail) index hashIters) (38, leaf) >>=
        fun s => .ok (decide (s.2 = root)) := by
  obtain ⟨b2, b3, b4, b5, hidx, hfields⟩ := header_fields index height leaf tail
  rw [hfields, verify_fields 1 height b2 b3 b4 b5 hashIters hroot hleaf, if_neg (not_not.mpr rfl), ← hidx]

/-- What a proof is for the verifier: a header, or something it rejects. -/
theorem verify_cases (root proof : Bytes) (hashIters : Nat) :
    (root.length = 32 ∧ ∃ index height leaf tail, List.length leaf = 32 ∧ proof = headerBytes index height leaf ++ tail) ∨
    ∃ e, e ∈ ["root must be 32 bytes", "proof too short", "unsupported proof version"] ∧
      verifyMerkleProof root proof hashIters = .err e := by
  by_cases hroot : root.length = 32
  · rcases Nat.lt_or_ge proof.length 38 with hshort | hlong
    · refine .inr ⟨"proof too short", by simp, ?_⟩
      unfold verifyMerkleProof
      rw [if_neg (not_not.mpr hroot), if_pos hshort]
    · obtain ⟨version, height, b2, b3, b4, b5, leaf, tail, hleaf, rfl⟩ := fields_cases hlong
      by_cases hver : version = 1
      · rw [hver]
        exact .inl ⟨hroot, _, height, leaf, tail, hleaf, fields_header height b2 b3 b4 b5 leaf tail⟩
      · refine .inr ⟨"unsupported proof version", by simp, ?_⟩
        rw [verify_fields _ _ _ _ _ _ _ hroot hleaf, if_pos hver]
  · refine .inr ⟨"root must be 32 bytes", by simp, ?_⟩
    unfold verifyMerkleProof
    rw [if_pos hroot]

/-! ### The verdict -/

/-- **A verdict is given on a proof's bytes, whatever is behind them.** -/
theorem verify_ok_iff {root proof : Bytes} {hashIters : Nat} {b : Bool} :
    verifyMerkleProof root proof hashIters = .ok b ↔ root.length = 32 ∧
      ∃ (p : MerkleProof) (rest : Bytes), proof = p.bytes ++ rest ∧ b = decide (p.root hashIters = root) := by
  constructor
  · intro h
    rcases verify_cases root proof hashIters with ⟨hroot, index, height, leaf, tail, hleaf, rfl⟩ | ⟨e, -, he⟩
    · rw [verify_header index height hashIters hroot hleaf] at h
      obtain ⟨s, hrun, hb⟩ := bind_eq_ok.mp h
      obtain ⟨hle, sibs, rest, hlen, hsibs, hdrop, rfl⟩ := (verifyLevels_ok_iff (Nat.zero_le _)).mp hrun
      have htail : (headerBytes index height leaf ++ tail).drop 38 = tail := by
        rw [List.drop_left' (by rw [length_headerBytes, hleaf])]
      rw [htail] at hdrop
      have hheight : UInt8.ofNat sibs.length = height := by
        rw [hlen, UInt8.ofNat_toNat]
      refine ⟨hroot, ⟨index, leaf, sibs, hleaf, hsibs, by omega⟩, rest, ?_, ?_⟩
      · rw [hdrop, ← List.append_assoc, MerkleProof.bytes, MerkleProof.height, hheight]
      · cases hb
        rfl
    · rw [he] at h
      cases h
  · rintro ⟨hroot, p, rest, rfl, rfl⟩
    have htail : (headerBytes p.index p.height p.leaf ++ (levelBytes p.index 0 p.siblings ++ rest)).drop 38 =
        levelBytes p.index 0 p.siblings ++ rest := by
      rw [List.drop_left' (by rw [length_headerBytes, p.leaf_length])]
    rw [MerkleProof.bytes, List.append_assoc, verify_header _ _ _ hroot p.leaf_length, bind_eq_ok]
    have hle := p.height_le
    have hheight := p.height_toNat
    exact ⟨_, (verifyLevels_ok_iff (Nat.zero_le _)).mpr
      ⟨by omega, p.siblings, rest, hheight.symm, p.sibling_length, htail, rfl⟩, rfl⟩

/-- **It panics on the bytes of 65 levels.** -/
theorem verify_panic_iff {root proof : Bytes} {hashIters : Nat} {p : Panic} :
    verifyMerkleProof root proof hashIters = .panic p ↔ root.length = 32 ∧
      p = .debugAssert "attempt to shift right with overflow" ∧ ∃ index height leaf sibs side sib rest,
        List.length leaf = 32 ∧ 64 < UInt8.toNat height ∧ sibs.length = 64 ∧ (∀ sib ∈ sibs, sib.length = 32) ∧
        List.length sib = 32 ∧
        proof = headerBytes index height leaf ++ (levelBytes index 0 sibs ++ side :: (sib ++ rest)) := by
  have htail : ∀ (index : UInt32) (height : UInt8) {leaf : Bytes} (tail : Bytes), leaf.length = 32 →
      (headerBytes index height leaf ++ tail).drop 38 = tail := fun index height leaf tail hleaf => by
    rw [List.drop_left' (by rw [length_headerBytes, hleaf])]
  constructor
  · intro h
    rcases verify_cases root proof hashIters with ⟨hroot, index, height, leaf, tail, hleaf, rfl⟩ | ⟨e, -, he⟩
    · rw [verify_header index height hashIters hroot hleaf, bind_eq_panic] at h
      rcases h with h | ⟨s, -, h⟩
      · obtain ⟨rfl, sibs, side, sib, rest, hsum, hlt, hsibs, hsib, hdrop⟩ :=
          (verifyLevels_panic_iff (Nat.zero_le _)).mp h
        rw [htail index height tail hleaf] at hdrop
        rw [Nat.zero_add] at hsum
        exact ⟨hroot, rfl, index, height, leaf, sibs, side, sib, rest, hleaf, by omega, hsum, hsibs, hsib, by rw [hdrop]⟩
      · cases h
    · rw [he] at h
      cases h
  · rintro ⟨hroot, rfl, index, height, leaf, sibs, side, sib, rest, hleaf, hheight, hlen, hsibs, hsib, rfl⟩
    rw [verify_header index height hashIters hroot hleaf, bind_eq_panic]
    exact .inl ((verifyLevels_panic_iff (Nat.zero_le _)).mpr ⟨rfl, sibs, side, sib, rest, by omega, by omega, hsibs, hsib,
      htail index height _ hleaf⟩)

/-- It returns or panics, and of its errors the last one cannot occur. -/
theorem verify_returns (root proof : Bytes) (hashIters : Nat) :
    (∃ b, verifyMerkleProof root proof hashIters = .ok b) ∨ (∃ p, verifyMerkleProof root proof hashIters = .panic p) ∨
    ∃ e, e ∈ ["root must be 32 bytes", "proof too short", "unsupported proof version", "proof truncated",
      "side bit does not match index bit"] ∧ verifyMerkleProof root proof hashIters = .err e := by
  rcases verify_cases root proof hashIters with ⟨hroot, index, height, leaf, tail, hleaf, rfl⟩ | ⟨e, he, hv⟩
  · rw [verify_header index height hashIters hroot hleaf]
    rcases verifyLevels_returns (headerBytes index height leaf ++ tail) index hashIters (List.range' 0 height.toNat) (38, leaf)
      with ⟨s, h⟩ | ⟨p, h⟩ | ⟨e, he, h⟩
    · exact .inl ⟨_, by rw [h, ok_bind]⟩
    · exact .inr (.inl ⟨p, by rw [h, panic_bind]⟩)
    · exact .inr (.inr ⟨e, List.mem_append_right ["root must be 32 bytes", "proof too short", "unsupported proof version"] he,
        by rw [h, err_bind]⟩)
  · exact .inr (.inr ⟨e, List.mem_append_left ["proof truncated", "side bit does not match index bit"] he, hv⟩)

end DagExec.Client
