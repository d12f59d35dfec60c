import DagExec.Client.Binding
import DagExec.Client.Rollup

/-!
# What the rollup builds

For sizes as the program asserts them and a target among the transactions, which it does not assert (`RollupSpec.Fits`), no call
is rejected and each dependency exists, so the graph is built (`rollup_built`). `Adds` has the call of each key.
-/

namespace DagExec.Client

open Outcome DagBuilder MerkleTree ListFacts

variable {txs : List Bytes} {spec : RollupSpec}

/-- The sizes as they are asserted, in powers of two. -/
structure RollupSpec.Sized (spec : RollupSpec) (txs : List Bytes) : Prop where
  chunk : spec.chunkSize = 2 ^ spec.chunkHeight
  batch : txs.length = 2 ^ spec.batchHeight * spec.chunkSize
  chunkHeight_pos : 0 < spec.chunkHeight
  batchHeight_pos : 0 < spec.batchHeight

/-- And a target among the transactions, which is not asserted. -/
structure RollupSpec.Fits (spec : RollupSpec) (txs : List Bytes) : Prop extends spec.Sized txs where
  target : spec.targetTx < txs.length

namespace RollupSpec.Sized

variable (h : spec.Sized txs)
include h

theorem chunkSize_pos : 0 < spec.chunkSize := by
  rw [h.chunk]
  exact Nat.two_pow_pos _

theorem nChunks : txs.length / spec.chunkSize = 2 ^ spec.batchHeight := by
  rw [h.batch, Nat.mul_div_cancel _ h.chunkSize_pos]

theorem chunk_width {lvl : Nat} (hl : lvl ≤ spec.chunkHeight) : spec.chunkSize >>> lvl = 2 ^ (spec.chunkHeight - lvl) := by
  rw [h.chunk, two_pow_shiftRight hl]

theorem batch_width {lvl : Nat} (hl : lvl ≤ spec.batchHeight) :
    (txs.length / spec.chunkSize) >>> lvl = 2 ^ (spec.batchHeight - lvl) := by
  rw [h.nChunks, two_pow_shiftRight hl]

theorem pos_lt : spec.targetTx % spec.chunkSize < 2 ^ spec.chunkHeight := h.chunk ▸ Nat.mod_lt _ h.chunkSize_pos

/-- The leaves of a chunk are leaves of the batch. -/
theorem leaf_lt {c i : Nat} (hc : c < txs.length / spec.chunkSize) (hi : i < spec.chunkSize) :
    c * spec.chunkSize + i < txs.length := by
  rw [h.nChunks] at hc
  rw [h.batch]
  calc c * spec.chunkSize + i < (c + 1) * spec.chunkSize := by rw [Nat.succ_mul]; omega
    _ ≤ 2 ^ spec.batchHeight * spec.chunkSize := Nat.mul_le_mul_right _ hc

end RollupSpec.Sized

theorem RollupSpec.Fits.targetChunk_lt (h : spec.Fits txs) : spec.targetTx / spec.chunkSize < txs.length / spec.chunkSize := by
  rw [h.nChunks, Nat.div_lt_iff_lt_mul h.chunkSize_pos, ← h.batch]
  exact h.target

theorem assert_ok {ε : Type} {b : Bool} {text : String} : (assert b text : Outcome ε Unit) = .ok () ↔ b = true := by
  cases b with
  | true => exact ⟨fun _ => rfl, fun _ => rfl⟩
  | false => exact ⟨nofun, nofun⟩

theorem trailingZeros_two_pow {w k : Nat} (hk : k < w) : trailingZeros w (2 ^ k) = k := by
  induction w generalizing k with
  | zero => cases hk
  | succ w ih =>
    cases k with
    | zero => rfl
    | succ k =>
      have hodd : ¬ 2 ^ (k + 1) % 2 = 1 := by rw [pow_succ]; omega
      rw [trailingZeros, if_neg hodd, pow_succ, Nat.mul_div_cancel _ Nat.two_pos, ih (Nat.lt_of_succ_lt_succ hk)]

/-- The logarithm of a size. -/
theorem log2Pow2_eq {ε : Type} {x n : Nat} (hx : x < 2 ^ 64) (h : (log2Pow2 x : Outcome ε Nat) = .ok n) : x = 2 ^ n := by
  obtain ⟨_, hassert, hn⟩ := bind_eq_ok.mp h
  obtain ⟨⟨k, rfl⟩, -⟩ := of_decide_eq_true (assert_ok.mp hassert)
  have hk : k < 64 := (Nat.pow_lt_pow_iff_right Nat.one_lt_two).mp hx
  rw [trailingZeros_two_pow hk] at hn
  cases hn
  rfl

/-- **What `main` derives fits.** -/
theorem rollupParams_fits {ε : Type} {chunkSize targetTx hashIters : Nat} (hlen : txs.length < 2 ^ 64)
    (htarget : targetTx < txs.length)
    (h : (rollupParams txs.length chunkSize targetTx hashIters : Outcome ε RollupSpec) = .ok spec) : spec.Fits txs := by
  obtain ⟨_, -, h⟩ := bind_eq_ok.mp h
  obtain ⟨_, hchunk, h⟩ := bind_eq_ok.mp h
  obtain ⟨_, hmod, h⟩ := bind_eq_ok.mp h
  obtain ⟨_, hn, h⟩ := bind_eq_ok.mp h
  obtain ⟨c, hc, h⟩ := bind_eq_ok.mp h
  obtain ⟨b, hb, h⟩ := bind_eq_ok.mp h
  cases h
  have hchunk := (of_decide_eq_true (assert_ok.mp hchunk)).2
  have hn := (of_decide_eq_true (assert_ok.mp hn)).2
  have hmul := Nat.div_mul_cancel (Nat.dvd_of_mod_eq_zero (of_decide_eq_true (assert_ok.mp hmod)))
  have hle : txs.length / chunkSize ≤ txs.length := Nat.div_le_self _ _
  have hchunkle : chunkSize ≤ txs.length := Nat.le_of_dvd (Nat.pos_of_ne_zero (by omega)) (Dvd.intro_left _ hmul)
  have hc := log2Pow2_eq (Nat.lt_of_le_of_lt hchunkle hlen) hc
  have hb := log2Pow2_eq (Nat.lt_of_le_of_lt hle hlen) hb
  refine ⟨⟨hc, ?_, Nat.pos_of_ne_zero ?_, Nat.pos_of_ne_zero ?_⟩, htarget⟩
  · rw [← hb, hmul]
  · rintro rfl
    rw [pow_zero] at hc
    omega
  · rintro rfl
    rw [pow_zero] at hb
    omega

/-- The parameters of `main` do. -/
theorem rollupParams_main (hashIters : Nat) :
    (rollupParams mainTxs.length 4 5 hashIters : Outcome String RollupSpec) = .ok ⟨4, 2, 2, 5, hashIters⟩ := by
  have hlen : mainTxs.length = 16 := by rw [mainTxs, List.length_map, List.length_range]
  rw [hlen]
  rfl

theorem fits_main (hashIters : Nat) : RollupSpec.Fits ⟨4, 2, 2, 5, hashIters⟩ mainTxs := by
  have hlen : mainTxs.length = 16 := by rw [mainTxs, List.length_map, List.length_range]
  exact rollupParams_fits (by rw [hlen]; decide) (by rw [hlen]; decide) (rollupParams_main hashIters)

/-! ## The calls by key -/

/-- The names of a chunk's nodes. -/
def chunkName (spec : RollupSpec) (c : Nat) : ℕ → ℕ → Key :=
  name (Key.chunkNode c) fun i => .leaf (c * spec.chunkSize + i)

/-- The names of the nodes above. -/
def batchName : ℕ → ℕ → Key := name Key.batchNode Key.chunkRoot

theorem chunkChildKey_eq (spec : RollupSpec) (c lvl idx : Nat) :
    chunkChildKey c lvl idx spec.chunkSize = (chunkName spec c lvl idx).str := by
  cases lvl <;> rfl

theorem chunkSiblingKey_eq (spec : RollupSpec) (c pos lvl : Nat) :
    chunkSiblingKey c pos lvl spec.chunkSize = (chunkName spec c lvl ((pos / 2 ^ lvl) ^^^ 1)).str := by
  rw [← Nat.shiftRight_eq_div_pow]
  cases lvl <;> rfl

theorem batchChildKey_eq (lvl idx : Nat) : batchChildKey lvl idx = (batchName lvl idx).str := by
  cases lvl <;> rfl

/-- The call that adds a key. -/
inductive Adds (txs : List Bytes) (spec : RollupSpec) : Key → Metered → Prop
  | tx {i : Nat} {x : Bytes} (hx : txs[i]? = some x) : Adds txs spec (.tx i) ⟨.source (txKey i) x, none⟩
  | leaf {i : Nat} {x : Bytes} (hx : txs[i]? = some x) : Adds txs spec (.leaf i)
      ⟨.task (leafKey i) [txKey i] (leafTask spec.hashIters), some .ranLeafHash⟩
  | chunkNode {c lvl idx : Nat} (hc : c < txs.length / spec.chunkSize) (hl : lvl < spec.chunkHeight)
      (hi : idx < spec.chunkSize >>> (lvl + 1)) : Adds txs spec (.chunkNode c (lvl + 1) idx)
      ⟨.task (chunkNodeKey c (lvl + 1) idx) [(chunkName spec c lvl (2 * idx)).str, (chunkName spec c lvl (2 * idx + 1)).str]
        (nodeTask spec.hashIters), some .ranInternalHash⟩
  | chunkRoot {c : Nat} (hc : c < txs.length / spec.chunkSize) : Adds txs spec (.chunkRoot c)
      ⟨.task (chunkRootKey c) [chunkNodeKey c spec.chunkHeight 0] aliasTask, none⟩
  | batchNode {lvl idx : Nat} (hl : lvl < spec.batchHeight) (hi : idx < (txs.length / spec.chunkSize) >>> (lvl + 1)) :
      Adds txs spec (.batchNode (lvl + 1) idx)
      ⟨.task (batchNodeKey (lvl + 1) idx) [(batchName lvl (2 * idx)).str, (batchName lvl (2 * idx + 1)).str]
        (nodeTask spec.hashIters), some .ranInternalHash⟩
  | batchRoot : Adds txs spec .batchRoot ⟨.task batchRootKey [batchNodeKey spec.batchHeight 0] aliasTask, none⟩
  | proof : Adds txs spec (.chunkProof (spec.targetTx / spec.chunkSize) (spec.targetTx % spec.chunkSize)) (proofCall spec)

theorem Adds.key {key : Key} {m : Metered} (h : Adds txs spec key m) : m.call.key = key.str := by
  cases h <;> rfl

theorem Adds.counter {key : Key} {m : Metered} (h : Adds txs spec key m) : m.counter = key.counter := by
  cases h <;> rfl

theorem Adds.isTask {key : Key} {m : Metered} (h : Adds txs spec key m) (hc : m.counter ≠ none) :
    ∃ f, m.call.kind = .task f := by
  cases h with
  | tx => exact absurd rfl hc
  | _ => exact ⟨_, rfl⟩

theorem mem_leafCalls {hashIters : Nat} {m : Metered} : m ∈ leafCalls txs hashIters ↔ ∃ i x, txs[i]? = some x ∧
    (m = ⟨.source (txKey i) x, none⟩ ∨ m = ⟨.task (leafKey i) [txKey i] (leafTask hashIters), some .ranLeafHash⟩) := by
  unfold leafCalls
  rw [List.mem_flatMap]
  constructor
  · rintro ⟨⟨x, i⟩, hp, hm⟩
    rw [List.mem_zipIdx_iff_getElem?] at hp
    simp only [List.mem_cons, List.not_mem_nil, or_false] at hm
    exact ⟨i, x, hp, hm⟩
  · rintro ⟨i, x, hx, hm⟩
    refine ⟨(x, i), List.mem_zipIdx_iff_getElem?.mpr hx, ?_⟩
    simp only [List.mem_cons, List.not_mem_nil, or_false]
    exact hm

theorem mem_chunkCalls {c : Nat} {m : Metered} : m ∈ chunkCalls spec c ↔
    (∃ lvl idx, lvl < spec.chunkHeight ∧ idx < spec.chunkSize >>> (lvl + 1) ∧
      m = ⟨.task (chunkNodeKey c (lvl + 1) idx) [(chunkName spec c lvl (2 * idx)).str, (chunkName spec c lvl (2 * idx + 1)).str]
        (nodeTask spec.hashIters), some .ranInternalHash⟩) ∨
    m = ⟨.task (chunkRootKey c) [chunkNodeKey c spec.chunkHeight 0] aliasTask, none⟩ := by
  simp only [← chunkChildKey_eq, Nat.mul_comm 2]
  rw [chunkCalls, List.mem_append, List.mem_singleton]
  exact or_congr mem_levelCalls Iff.rfl

theorem mem_batchCalls {nChunks : Nat} {m : Metered} : m ∈ batchCalls spec nChunks ↔
    (∃ lvl idx, lvl < spec.batchHeight ∧ idx < nChunks >>> (lvl + 1) ∧
      m = ⟨.task (batchNodeKey (lvl + 1) idx) [(batchName lvl (2 * idx)).str, (batchName lvl (2 * idx + 1)).str]
        (nodeTask spec.hashIters), some .ranInternalHash⟩) ∨
    m = ⟨.task batchRootKey [batchNodeKey spec.batchHeight 0] aliasTask, none⟩ := by
  simp only [← batchChildKey_eq, Nat.mul_comm 2]
  rw [batchCalls, List.mem_append, List.mem_singleton]
  exact or_congr mem_levelCalls Iff.rfl

/-- **The calls are those that add a key.** -/
theorem mem_rollupCalls {m : Metered} : m ∈ rollupCalls txs spec ↔ ∃ key, Adds txs spec key m := by
  unfold rollupCalls
  simp only [List.mem_append, List.mem_flatMap, List.mem_range, List.mem_singleton, mem_leafCalls, mem_chunkCalls,
    mem_batchCalls]
  constructor
  · rintro (((⟨i, x, hx, rfl | rfl⟩ | ⟨c, hc, ⟨lvl, idx, hl, hi, rfl⟩ | rfl⟩) | ⟨lvl, idx, hl, hi, rfl⟩ | rfl) | rfl)
    · exact ⟨_, .tx hx⟩
    · exact ⟨_, .leaf hx⟩
    · exact ⟨_, .chunkNode hc hl hi⟩
    · exact ⟨_, .chunkRoot hc⟩
    · exact ⟨_, .batchNode hl hi⟩
    · exact ⟨_, .batchRoot⟩
    · exact ⟨_, .proof⟩
  · rintro ⟨key, h⟩
    cases h with
    | tx hx => exact .inl (.inl (.inl ⟨_, _, hx, .inl rfl⟩))
    | leaf hx => exact .inl (.inl (.inl ⟨_, _, hx, .inr rfl⟩))
    | chunkNode hc hl hi => exact .inl (.inl (.inr ⟨_, hc, .inl ⟨_, _, hl, hi, rfl⟩⟩))
    | chunkRoot hc => exact .inl (.inl (.inr ⟨_, hc, .inr rfl⟩))
    | batchNode hl hi => exact .inl (.inr (.inl ⟨_, _, hl, hi, rfl⟩))
    | batchRoot => exact .inl (.inr (.inr rfl))
    | proof => exact .inr rfl

/-- The calls as the builder sees them. -/
abbrev rollupAdds (txs : List Bytes) (spec : RollupSpec) : List (AddCall String Bytes String Unit) :=
  (rollupCalls txs spec).map Metered.call

theorem Adds.mem {key : Key} {m : Metered} (h : Adds txs spec key m) : m.call ∈ rollupAdds txs spec :=
  List.mem_map_of_mem (mem_rollupCalls.mpr ⟨key, h⟩)

theorem mem_rollupAdds {c : AddCall String Bytes String Unit} (hc : c ∈ rollupAdds txs spec) :
    ∃ key m, Adds txs spec key m ∧ m.call = c := by
  obtain ⟨m, hm, rfl⟩ := List.mem_map.mp hc
  obtain ⟨key, h⟩ := mem_rollupCalls.mp hm
  exact ⟨key, m, h, rfl⟩

theorem described_rollupCalls : Described (rollupCalls txs spec) := by
  intro m hm
  obtain ⟨key, h⟩ := mem_rollupCalls.mp hm
  exact ⟨key, h.key, h.counter, h.isTask⟩

/-- The keys, in program order. -/
def rollupKeys (n : Nat) (spec : RollupSpec) : List Key :=
  (List.range' 0 n).flatMap (fun i => [.tx i, .leaf i]) ++
  (List.range (n / spec.chunkSize)).flatMap (fun c =>
    (List.range' 1 spec.chunkHeight).flatMap (fun lvl =>
      (List.range (spec.chunkSize >>> lvl)).map (Key.chunkNode c lvl)) ++ [.chunkRoot c]) ++
  ((List.range' 1 spec.batchHeight).flatMap (fun lvl =>
    (List.range ((n / spec.chunkSize) >>> lvl)).map (Key.batchNode lvl)) ++ [.batchRoot]) ++
  [.chunkProof (spec.targetTx / spec.chunkSize) (spec.targetTx % spec.chunkSize)]

theorem keysOfCalls_rollup : keysOfCalls (rollupAdds txs spec) =
    (rollupKeys txs.length spec).map Key.str := by
  have hleaf : (leafCalls txs spec.hashIters).map (AddCall.key ∘ Metered.call) =
      ((List.range' 0 txs.length).flatMap fun i => [Key.tx i, Key.leaf i]).map Key.str := by
    rw [leafCalls, List.map_flatMap, ← List.zipIdx_map_snd, List.map_flatMap, List.flatMap_map]
    rfl
  unfold rollupKeys rollupAdds rollupCalls chunkCalls batchCalls
  simp only [keysOfCalls, List.map_map, List.map_append, List.map_flatMap, hleaf, List.map_cons, List.map_nil]
  rfl

/-- The keys are distinct. -/
theorem rollupKeys_nodup (n : Nat) (spec : RollupSpec) : (rollupKeys n spec).Nodup := by
  have hleaves := ranked_leaves (List.nodup_range' (s := 0) (n := n))
  have hchunks : Ranked Key.rank 1 3 ((List.range (n / spec.chunkSize)).flatMap fun c =>
      (List.range' 1 spec.chunkHeight).flatMap (fun lvl =>
        (List.range (spec.chunkSize >>> lvl)).map (Key.chunkNode c lvl)) ++ [.chunkRoot c]) := by
    refine .flatMap (fun | .chunkNode c _ _ => c | .chunkRoot c => c | _ => 0) List.nodup_range (fun c _ => ?_)
      fun c _ key hkey => ?_
    · exact (ranked_levels (fun | .chunkNode _ l _ => l | _ => 0) (fun l i j he => by injection he) (fun _ _ => rfl)
        (fun _ _ => Nat.le_refl 1) (fun _ _ => Nat.lt_succ_self 1) _ _).append
        (.singleton (Nat.le_refl 2) (Nat.lt_succ_self 2)) (by decide) (by decide)
    · simp only [List.mem_append, List.mem_flatMap, List.mem_map, List.mem_singleton] at hkey
      rcases hkey with ⟨_, -, _, -, rfl⟩ | rfl <;> rfl
  have hbatch : Ranked Key.rank 3 5 ((List.range' 1 spec.batchHeight).flatMap (fun lvl =>
      (List.range ((n / spec.chunkSize) >>> lvl)).map (Key.batchNode lvl)) ++ [.batchRoot]) :=
    (ranked_levels (fun | .batchNode l _ => l | _ => 0) (fun l i j he => by injection he) (fun _ _ => rfl)
      (fun _ _ => Nat.le_refl 3) (fun _ _ => Nat.lt_succ_self 3) _ _).append
      (.singleton (Nat.le_refl 4) (Nat.lt_succ_self 4)) (by decide) (by decide)
  have hproof : Ranked Key.rank 5 6 [.chunkProof (spec.targetTx / spec.chunkSize) (spec.targetTx % spec.chunkSize)] :=
    .singleton (Nat.le_refl 5) (Nat.lt_succ_self 5)
  exact (((hleaves.append hchunks (by decide) (by decide)).append hbatch (by decide) (by decide)).append hproof
    (by decide) (by decide)).nodup

/-! ## The graph -/

theorem xor_one_lt {x n : Nat} (hn : 0 < n) (hx : x < 2 ^ n) : x ^^^ 1 < 2 ^ n :=
  Nat.xor_lt_two_pow hx (Nat.one_lt_two_pow (Nat.ne_of_gt hn))

section

variable (h : spec.Sized txs)
include h

/-- The node of a chunk at a level. -/
theorem adds_chunkName {c l i : Nat} (hc : c < txs.length / spec.chunkSize) (hl : l ≤ spec.chunkHeight)
    (hi : i < 2 ^ (spec.chunkHeight - l)) : ∃ m, Adds txs spec (chunkName spec c l i) m := by
  cases l with
  | zero =>
    rw [Nat.sub_zero, ← h.chunk] at hi
    exact ⟨_, .leaf (List.getElem?_eq_getElem (h.leaf_lt hc hi))⟩
  | succ l => exact ⟨_, .chunkNode hc hl (by rwa [h.chunk_width hl])⟩

theorem adds_batchName {l i : Nat} (hl : l ≤ spec.batchHeight) (hi : i < 2 ^ (spec.batchHeight - l)) :
    ∃ m, Adds txs spec (batchName l i) m := by
  cases l with
  | zero =>
    rw [Nat.sub_zero, ← h.nChunks] at hi
    exact ⟨_, .chunkRoot hi⟩
  | succ l => exact ⟨_, .batchNode hl (by rwa [h.batch_width hl])⟩

theorem sibling_lt {lvl : Nat} (hl : lvl < spec.chunkHeight) :
    ((spec.targetTx % spec.chunkSize) / 2 ^ lvl) ^^^ 1 < 2 ^ (spec.chunkHeight - lvl) := by
  refine xor_one_lt (by omega) ?_
  rw [Nat.div_lt_iff_lt_mul (Nat.two_pow_pos lvl), ← pow_add, Nat.sub_add_cancel (Nat.le_of_lt hl)]
  exact h.pos_lt

/-- Each dependency is added; for the proof, if the target is there. -/
theorem Adds.deps {key : Key} {m : Metered} (ha : Adds txs spec key m)
    (htarget : key.counter = some .ranProofAsm → spec.targetTx < txs.length) :
    ∀ k ∈ m.call.deps, ∃ key' m', Adds txs spec key' m' ∧ k = key'.str := by
  cases ha with
  | tx => nofun
  | leaf hx =>
    intro k hk
    rw [List.mem_singleton.mp hk]
    exact ⟨.tx _, _, .tx hx, rfl⟩
  | @chunkNode c l i hc hl hi =>
    rw [h.chunk_width hl] at hi
    intro k hk
    obtain ⟨x, hx, rfl⟩ := (mem_children fun x => (chunkName spec c l x).str).mp hk
    obtain ⟨m, hm⟩ := adds_chunkName h hc (Nat.le_of_lt hl) (half_lt hl hi hx)
    exact ⟨_, m, hm, rfl⟩
  | @chunkRoot c hc =>
    obtain ⟨H, hH⟩ : ∃ H, spec.chunkHeight = H + 1 := ⟨spec.chunkHeight - 1, by have := h.chunkHeight_pos; omega⟩
    obtain ⟨m, hm⟩ := adds_chunkName h hc (Nat.le_refl _) (i := 0) (Nat.two_pow_pos _)
    intro k hk
    rw [List.mem_singleton.mp hk]
    refine ⟨_, m, hm, ?_⟩
    rw [hH]
    rfl
  | @batchNode l i hl hi =>
    rw [h.batch_width hl] at hi
    intro k hk
    obtain ⟨x, hx, rfl⟩ := (mem_children fun x => (batchName l x).str).mp hk
    obtain ⟨m, hm⟩ := adds_batchName h (Nat.le_of_lt hl) (half_lt hl hi hx)
    exact ⟨_, m, hm, rfl⟩
  | batchRoot =>
    obtain ⟨H, hH⟩ : ∃ H, spec.batchHeight = H + 1 := ⟨spec.batchHeight - 1, by have := h.batchHeight_pos; omega⟩
    obtain ⟨m, hm⟩ := adds_batchName h (Nat.le_refl _) (i := 0) (Nat.two_pow_pos _)
    intro k hk
    rw [List.mem_singleton.mp hk]
    refine ⟨_, m, hm, ?_⟩
    rw [hH]
    rfl
  | proof =>
    have hfits : spec.Fits txs := ⟨h, htarget rfl⟩
    intro k hk
    rcases List.mem_cons.mp hk with rfl | hk
    · exact ⟨_, _, .leaf (List.getElem?_eq_getElem hfits.target), rfl⟩
    · obtain ⟨lvl, hl, rfl⟩ := List.mem_map.mp hk
      rw [List.mem_range] at hl
      obtain ⟨m, hm⟩ := adds_chunkName h hfits.targetChunk_lt (Nat.le_of_lt hl) (sibling_lt h hl)
      exact ⟨_, m, hm, chunkSiblingKey_eq spec _ _ lvl⟩

end

theorem rollup_nodup (txs : List Bytes) (spec : RollupSpec) : (keysOfCalls (rollupAdds txs spec)).Nodup := by
  rw [keysOfCalls_rollup]
  exact (rollupKeys_nodup _ spec).map Key.str_injective

/-- **The graph is built**, for sizes as asserted and a target among the transactions. -/
theorem rollup_built (h : spec.Fits txs) : ∃ dag, buildRollupCommitmentDag txs spec = .ok (dag, ⟨batchRootKey,
    chunkRootKey (spec.targetTx / spec.chunkSize),
    chunkProofKey (spec.targetTx / spec.chunkSize) (spec.targetTx % spec.chunkSize)⟩) ∧
      dag.BuiltFrom (rollupAdds txs spec) := by
  obtain ⟨b, dag, hb, hdag, hfrom⟩ := addCalls_build (rollup_nodup txs spec) (List.ne_nil_of_mem Adds.batchRoot.mem)
    fun c hc k hk => by
      obtain ⟨key, m, ha, rfl⟩ := mem_rollupAdds hc
      obtain ⟨key', m', ha', rfl⟩ := ha.deps h.toSized (fun _ => h.target) k hk
      exact ha'.key ▸ List.mem_map_of_mem ha'.mem
  refine ⟨dag, ?_, hfrom⟩
  rw [buildRollupCommitmentDag, hb, ok_bind, hdag]
  rfl

/-- If the target is not there, its leaf is the first dependency that is missing. -/
theorem rollup_firstMissing (h : spec.Sized txs) (htarget : txs.length ≤ spec.targetTx) :
    FirstMissing (rollupAdds txs spec)
      (chunkProofKey (spec.targetTx / spec.chunkSize) (spec.targetTx % spec.chunkSize)) (leafKey spec.targetTx) := by
  have hnodup := rollup_nodup txs spec
  have hmissing : leafKey spec.targetTx ∉ keysOfCalls (rollupAdds txs spec) := by
    intro hmem
    obtain ⟨c, hc, hkey⟩ := List.mem_map.mp hmem
    obtain ⟨key, m, ha, rfl⟩ := mem_rollupAdds hc
    obtain rfl : key = .leaf spec.targetTx := Key.str_injective (ha.key.symm.trans hkey)
    cases ha with
    | leaf hx => exact absurd (List.getElem?_eq_some_iff.mp hx).1 (Nat.not_lt.mpr htarget)
  obtain ⟨pre, hpre⟩ : ∃ pre, rollupCalls txs spec = pre ++ [proofCall spec] := ⟨_, rfl⟩
  refine ⟨pre.map Metered.call, (proofCall spec).call, [], [], _, ?_, rfl, rfl, hmissing, nofun, fun c hc k hk => ?_⟩
  · rw [rollupAdds, hpre, List.map_append]
    rfl
  · obtain ⟨m, hm, rfl⟩ := List.mem_map.mp hc
    obtain ⟨key, ha⟩ := mem_rollupCalls.mp (hpre ▸ List.mem_append_left _ hm)
    have hkey : key.counter ≠ some .ranProofAsm := fun hcounter => by
      cases ha <;> cases hcounter
      -- the last call has that key already
      rw [rollupAdds, hpre, keysOfCalls, List.map_append, List.map_append, List.nodup_append] at hnodup
      exact hnodup.2.2 _ (List.mem_map_of_mem (List.mem_map_of_mem hm)) _ List.mem_cons_self rfl
    obtain ⟨key', m', ha', rfl⟩ := ha.deps h (fun hcounter => absurd hcounter hkey) k hk
    exact ha'.key ▸ List.mem_map_of_mem ha'.mem

end DagExec.Client
