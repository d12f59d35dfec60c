import DagExec.Client.RollupValues

/-!
# What the rollup's keys need

`chunkKeys` lists what a chunk root needs, `batchKeys` what the batch root needs, without repetitions, so the counters of a run
can be read off (`chunkKeys_count`, `batchKeys_count`).
-/

namespace DagExec.Client

open Outcome DagBuilder MerkleTree ListFacts

variable {txs : List Bytes} {spec : RollupSpec} {dag : DagT} {outs : List String} {key : Key} {m : Metered}

/-- What is at a leaf of a chunk. -/
def leafKeys (spec : RollupSpec) (c j : ℕ) : List Key := [.leaf (c * spec.chunkSize + j), .tx (c * spec.chunkSize + j)]

/-- What the root of a chunk needs. -/
def chunkKeys (spec : RollupSpec) (c : ℕ) : List Key :=
  .chunkRoot c :: keys (leafKeys spec c) (Key.chunkNode c) spec.chunkHeight 0

/-- What the batch root needs. -/
def batchKeys (spec : RollupSpec) : List Key := .batchRoot :: keys (chunkKeys spec) Key.batchNode spec.batchHeight 0

theorem chunkName_mem {c l i : ℕ} (hl : l ≤ spec.chunkHeight) (hi : i / 2 ^ (spec.chunkHeight - l) = 0) :
    chunkName spec c l i ∈ chunkKeys spec c :=
  List.mem_cons_of_mem _ (name_mem_keys (fun _ => List.mem_cons_self) hl hi)

theorem mem_chunkKeys {c : ℕ} : key ∈ chunkKeys spec c ↔ key = .chunkRoot c ∨
    (∃ j, j / 2 ^ spec.chunkHeight = 0 ∧ (key = .leaf (c * spec.chunkSize + j) ∨ key = .tx (c * spec.chunkSize + j))) ∨
    ∃ k j, 0 < k ∧ k ≤ spec.chunkHeight ∧ j / 2 ^ (spec.chunkHeight - k) = 0 ∧ key = .chunkNode c k j := by
  rw [chunkKeys, List.mem_cons, mem_keys]
  simp only [leafKeys, List.mem_pair]

theorem mem_batchKeys : key ∈ batchKeys spec ↔ key = .batchRoot ∨ (∃ c, c / 2 ^ spec.batchHeight = 0 ∧ key ∈ chunkKeys spec c) ∨
    ∃ k j, 0 < k ∧ k ≤ spec.batchHeight ∧ j / 2 ^ (spec.batchHeight - k) = 0 ∧ key = .batchNode k j := by
  rw [batchKeys, List.mem_cons, mem_keys]

section

variable (h : spec.Fits txs)
include h

/-- A chunk's keys have their dependencies among them. -/
theorem chunkKeys_closed {c : ℕ} (ha : Adds txs spec key m) (hmem : key ∈ chunkKeys spec c) :
    ∀ k ∈ m.call.deps, ∃ key' ∈ chunkKeys spec c, k = key'.str := by
  rw [mem_chunkKeys] at hmem
  cases ha with
  | tx => nofun
  | leaf hx =>
    rcases hmem with he | ⟨j, hj, he | he⟩ | ⟨k, j, -, -, -, he⟩ <;> cases he
    intro k hk
    rw [List.mem_singleton.mp hk]
    exact ⟨.tx _, mem_chunkKeys.mpr (.inr (.inl ⟨j, hj, .inr rfl⟩)), rfl⟩
  | @chunkNode _ l i hc hl hi =>
    rcases hmem with he | ⟨j, hj, he | he⟩ | ⟨k, j, -, hle, hj, he⟩ <;> cases he
    intro k hk
    obtain ⟨x, hx, rfl⟩ := (mem_children fun x => (chunkName spec c l x).str).mp hk
    exact ⟨_, chunkName_mem (Nat.le_of_lt hl) (half_div hl hj hx), rfl⟩
  | chunkRoot hc =>
    rcases hmem with he | ⟨j, hj, he | he⟩ | ⟨k, j, -, hle, hj, he⟩ <;> cases he
    intro k hk
    rw [List.mem_singleton.mp hk]
    refine ⟨_, chunkName_mem (Nat.le_refl _) (Nat.zero_div _), ?_⟩
    rw [chunkName, name_pos h.chunkHeight_pos]
    rfl
  | batchNode => rcases hmem with he | ⟨j, hj, he | he⟩ | ⟨k, j, -, hle, hj, he⟩ <;> cases he
  | batchRoot => rcases hmem with he | ⟨j, hj, he | he⟩ | ⟨k, j, -, hle, hj, he⟩ <;> cases he
  | proof => rcases hmem with he | ⟨j, hj, he | he⟩ | ⟨k, j, -, hle, hj, he⟩ <;> cases he

/-- The proof needs nodes of its chunk. -/
theorem proofCall_deps : ∀ k ∈ (proofCall spec).call.deps, ∃ key ∈ chunkKeys spec (spec.targetTx / spec.chunkSize),
    k = key.str := by
  intro k hk
  rcases List.mem_cons.mp hk with rfl | hk
  · refine ⟨_, chunkName_mem (l := 0) (Nat.zero_le _) (lt_two_pow_sub.mp h.pos_lt), ?_⟩
    show leafKey spec.targetTx = leafKey (spec.targetTx / spec.chunkSize * spec.chunkSize + spec.targetTx % spec.chunkSize)
    rw [Nat.div_add_mod']
  · obtain ⟨lvl, hl, rfl⟩ := List.mem_map.mp hk
    rw [List.mem_range] at hl
    exact ⟨_, chunkName_mem (Nat.le_of_lt hl) (lt_two_pow_sub.mp (sibling_lt h.toSized hl)), chunkSiblingKey_eq spec _ _ lvl⟩

omit h in
theorem batchName_mem {l i : ℕ} (hl : l ≤ spec.batchHeight) (hi : i / 2 ^ (spec.batchHeight - l) = 0) :
    batchName l i ∈ batchKeys spec :=
  List.mem_cons_of_mem _ (name_mem_keys (fun _ => List.mem_cons_self) hl hi)

/-- And so have those of the batch. -/
theorem batchKeys_closed (ha : Adds txs spec key m) (hmem : key ∈ batchKeys spec) :
    ∀ k ∈ m.call.deps, ∃ key' ∈ batchKeys spec, k = key'.str := by
  rcases mem_batchKeys.mp hmem with rfl | ⟨c, hc, hkey⟩ | ⟨k, j, hpos, hle, hj, rfl⟩
  · cases ha
    intro k hk
    rw [List.mem_singleton.mp hk]
    refine ⟨_, batchName_mem (Nat.le_refl _) (Nat.zero_div _), ?_⟩
    rw [batchName, name_pos h.batchHeight_pos]
    rfl
  · intro k hk
    obtain ⟨key', hkey', rfl⟩ := chunkKeys_closed h ha hkey k hk
    exact ⟨key', mem_batchKeys.mpr (.inr (.inl ⟨c, hc, hkey'⟩)), rfl⟩
  · cases ha with
    | @batchNode l _ hl hi =>
      intro k hk
      obtain ⟨x, hx, rfl⟩ := (mem_children fun x => (batchName l x).str).mp hk
      exact ⟨_, batchName_mem (Nat.le_of_lt hl) (half_div hl hj hx), rfl⟩

variable (hb : dag.BuiltFrom (rollupAdds txs spec))
include hb

/-- With the root of a chunk all its keys are needed. -/
theorem chunkKeys_needed {c : ℕ} (hc : c < txs.length / spec.chunkSize) (hn : dag.NeedsKey outs (chunkRootKey c)) :
    ∀ key ∈ chunkKeys spec c, dag.NeedsKey outs key.str := by
  have hroot : dag.NeedsKey outs (name (Key.chunkNode c) (fun i => .leaf (c * spec.chunkSize + i)) spec.chunkHeight 0).str := by
    rw [name_pos h.chunkHeight_pos]
    exact hb.needsKey_dep (Adds.chunkRoot hc).mem hn List.mem_cons_self
  have hall : ∀ key ∈ keys (leafKeys spec c) (Key.chunkNode c) spec.chunkHeight 0, dag.NeedsKey outs key.str := by
    refine forall_keys (P := fun key : Key => dag.NeedsKey outs key.str) (fun k j hk hj hP x hx => ?_)
      (fun j hj hP key hkey => ?_) hroot
    · rw [← lt_two_pow_sub, ← h.chunk_width hk] at hj
      exact hb.needsKey_dep (Adds.chunkNode hc hk hj).mem hP
        ((mem_children fun x => (chunkName spec c k x).str).mpr ⟨x, hx, rfl⟩)
    · rcases List.mem_pair.mp hkey with rfl | rfl
      · exact hP
      · have hlt := h.leaf_lt hc (h.chunk ▸ lt_two_pow_sub (l := 0).mpr hj)
        exact hb.needsKey_dep (Adds.leaf (List.getElem?_eq_getElem hlt)).mem hP List.mem_cons_self
  intro key hkey
  rcases List.mem_cons.mp hkey with rfl | hkey
  · exact hn
  · exact hall key hkey

theorem batchKeys_needed (hn : dag.NeedsKey outs batchRootKey) : ∀ key ∈ batchKeys spec, dag.NeedsKey outs key.str := by
  have hroot : dag.NeedsKey outs (name Key.batchNode Key.chunkRoot spec.batchHeight 0).str := by
    rw [name_pos h.batchHeight_pos]
    exact hb.needsKey_dep Adds.batchRoot.mem hn List.mem_cons_self
  have hall : ∀ key ∈ keys (chunkKeys spec) Key.batchNode spec.batchHeight 0, dag.NeedsKey outs key.str := by
    refine forall_keys (P := fun key : Key => dag.NeedsKey outs key.str) (fun k j hk hj hP x hx => ?_) (fun c hc hP => ?_) hroot
    · rw [← lt_two_pow_sub, ← h.batch_width hk] at hj
      exact hb.needsKey_dep (Adds.batchNode hk hj).mem hP ((mem_children fun x => (batchName k x).str).mpr ⟨x, hx, rfl⟩)
    · refine chunkKeys_needed h hb ?_ hP
      rw [h.nChunks]
      exact lt_two_pow_sub (l := 0).mpr hc
  intro key hkey
  rcases List.mem_cons.mp hkey with rfl | hkey
  · exact hn
  · exact hall key hkey

omit h in
/-- What a request needs, from a list that is closed. -/
theorem rollup_needs {needed : List Key} (hbase : ∀ k ∈ outs, ∃ key ∈ needed, k = key.str)
    (hclosed : ∀ key m, Adds txs spec key m → key ∈ needed → ∀ k ∈ m.call.deps, ∃ key' ∈ needed, k = key'.str)
    (hneed : ∀ key ∈ needed, dag.NeedsKey outs key.str) (key : Key) : dag.NeedsKey outs key.str ↔ key ∈ needed := by
  refine needsKey_iff hb hbase (fun c hc key hkey he => ?_) hneed key
  obtain ⟨key', m, ha, rfl⟩ := mem_rollupAdds hc
  obtain rfl := Key.str_injective (ha.key.symm.trans he)
  exact hclosed key' m ha hkey

end

/-! ## Counts -/

theorem chunkKeys_nodup (spec : RollupSpec) (c : ℕ) : (chunkKeys spec c).Nodup := by
  refine List.nodup_cons.mpr ⟨fun hmem => ?_, nodup_keys (fun j => ?_) (fun j j' x hx hx' => ?_) (fun k j k' j' he => ?_)
    (fun j k j' hmem => ?_) _ _⟩
  · rcases mem_keys.mp hmem with ⟨j, -, hx⟩ | ⟨k, j, -, -, -, he⟩
    · rcases List.mem_pair.mp hx with he | he <;> cases he
    · cases he
  · simp [leafKeys]
  · rcases List.mem_pair.mp hx with rfl | rfl <;> rcases List.mem_pair.mp hx' with he | he <;> injection he <;> omega
  · injection he with _ hk hj
    exact ⟨hk, hj⟩
  · rcases List.mem_pair.mp hmem with he | he <;> cases he

/-- The chunk a key is from. -/
def chunkOf (spec : RollupSpec) : Key → ℕ
  | .chunkRoot c => c
  | .chunkNode c _ _ => c
  | .leaf i => i / spec.chunkSize
  | .tx i => i / spec.chunkSize
  | _ => 0

theorem chunkOf_mem (h : spec.Fits txs) {c : ℕ} (hkey : key ∈ chunkKeys spec c) : chunkOf spec key = c := by
  have hpos := h.chunkSize_pos
  have hdiv : ∀ j, j / 2 ^ spec.chunkHeight = 0 → (c * spec.chunkSize + j) / spec.chunkSize = c := fun j hj => by
    rw [← h.chunk, Nat.div_eq_zero_iff] at hj
    rw [Nat.mul_comm, Nat.mul_add_div hpos, Nat.div_eq_of_lt (hj.resolve_left (Nat.ne_of_gt hpos)), Nat.add_zero]
  rcases mem_chunkKeys.mp hkey with rfl | ⟨j, hj, rfl | rfl⟩ | ⟨k, j, -, -, -, rfl⟩
  · rfl
  · exact hdiv j hj
  · exact hdiv j hj
  · rfl

theorem batchKeys_nodup (h : spec.Fits txs) : (batchKeys spec).Nodup := by
  refine List.nodup_cons.mpr ⟨fun hmem => ?_, nodup_keys (chunkKeys_nodup spec) (fun c c' x hx hx' => ?_)
    (fun k j k' j' he => ?_) (fun c k j hmem => ?_) _ _⟩
  · rcases mem_keys.mp hmem with ⟨c, -, hx⟩ | ⟨k, j, -, -, -, he⟩
    · rcases mem_chunkKeys.mp hx with he | ⟨j, -, he | he⟩ | ⟨k, j, -, -, -, he⟩ <;> cases he
    · cases he
  · exact (chunkOf_mem h hx).symm.trans (chunkOf_mem h hx')
  · injection he with hk hj
    exact ⟨hk, hj⟩
  · rcases mem_chunkKeys.mp hmem with he | ⟨j, -, he | he⟩ | ⟨k, j, -, -, -, he⟩ <;> cases he

theorem chunkKeys_count (h : spec.Fits txs) (c : ℕ) (counter : Counter) :
    (chunkKeys spec c).countP (fun key => decide (key.counter = some counter)) =
      counts spec.chunkSize (spec.chunkSize - 1) 0 counter := by
  rw [chunkKeys, List.countP_cons, h.chunk]
  cases counter with
  | ranLeafHash =>
    rw [countP_keys (n := 1) (b := false) (fun _ => rfl) (fun _ _ => rfl)]
    simp [Key.counter, counts]
  | ranInternalHash =>
    rw [countP_keys (n := 0) (b := true) (fun _ => rfl) (fun _ _ => rfl)]
    simp [Key.counter, counts]
  | ranProofAsm =>
    rw [countP_keys (n := 0) (b := false) (fun _ => rfl) (fun _ _ => rfl)]
    simp [Key.counter, counts]

theorem batchKeys_count (h : spec.Fits txs) (counter : Counter) :
    (batchKeys spec).countP (fun key => decide (key.counter = some counter)) = counts txs.length (txs.length - 1) 0 counter := by
  rw [batchKeys, List.countP_cons, h.batch]
  cases counter with
  | ranLeafHash =>
    rw [countP_keys (b := false) (fun c => chunkKeys_count h c _) (fun _ _ => rfl)]
    simp [Key.counter, counts]
  | ranInternalHash =>
    rw [countP_keys (b := true) (fun c => chunkKeys_count h c _) (fun _ _ => rfl), h.chunk]
    simp [Key.counter, counts, two_pow_mul_pred]
  | ranProofAsm =>
    rw [countP_keys (b := false) (fun c => chunkKeys_count h c _) (fun _ _ => rfl)]
    simp [Key.counter, counts]

end DagExec.Client
