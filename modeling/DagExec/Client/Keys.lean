import DagExec.Lib.Joined
import Mathlib.Tactic.Common

/-!
# Keys of the client programs: `examples/rollup.rs`, `examples/merkle.rs`

The keys are formatted strings. `Key` has what they stand for, and different ones are formatted differently
(`Key.str_injective`).
-/

namespace DagExec.Client

def txKey (i : Nat) : String := s!"tx/{i}"

def leafKey (i : Nat) : String := s!"leaf/{i}"

/-! ## `rollup.rs` -/

def chunkNodeKey (chunk lvl idx : Nat) : String := s!"chunk/{chunk}/node/{lvl}/{idx}"

def chunkRootKey (chunk : Nat) : String := s!"chunk/{chunk}/root"

def batchNodeKey (lvl idx : Nat) : String := s!"batch/node/{lvl}/{idx}"

def batchRootKey : String := "batch/root"

def chunkProofKey (chunk pos : Nat) : String := s!"chunk/{chunk}/proof/tx/{pos}"

/-- Level 0 has the leaf hashes of the whole batch. -/
def chunkChildKey (chunk lvl idx chunkSize : Nat) : String :=
  if lvl = 0 then
    let globalI := chunk * chunkSize + idx
    leafKey globalI
  else chunkNodeKey chunk lvl idx

def chunkSiblingKey (chunk posInChunk level chunkSize : Nat) : String :=
  let idxAtLevel := posInChunk >>> level
  let sibIdx := idxAtLevel ^^^ 1
  if level = 0 then
    let globalI := chunk * chunkSize + sibIdx
    leafKey globalI
  else chunkNodeKey chunk level sibIdx

/-- The leaves of the batch tree are the chunk roots. -/
def batchChildKey (lvl idx : Nat) : String :=
  if lvl = 0 then chunkRootKey idx else batchNodeKey lvl idx

/-! ## `merkle.rs` -/

def merkleKey (level idx : Nat) : String :=
  if level = 0 then leafKey idx else s!"node/{level}/{idx}"

/-! ## What they stand for -/

inductive Key
  | tx (i : Nat)
  | leaf (i : Nat)
  | node (level idx : Nat)
  | chunkNode (chunk lvl idx : Nat)
  | chunkRoot (chunk : Nat)
  | batchNode (lvl idx : Nat)
  | batchRoot
  | chunkProof (chunk pos : Nat)
  deriving DecidableEq

namespace Key

/-- The key as formatted; inner nodes have a level above 0. -/
def str : Key → String
  | tx i => txKey i
  | leaf i => leafKey i
  | node level idx => s!"node/{level}/{idx}"
  | chunkNode chunk lvl idx => chunkNodeKey chunk lvl idx
  | chunkRoot chunk => chunkRootKey chunk
  | batchNode lvl idx => batchNodeKey lvl idx
  | batchRoot => batchRootKey
  | chunkProof chunk pos => chunkProofKey chunk pos

/-- What stands between the slashes. -/
def segments : Key → List String
  | tx i => ["tx", toString i]
  | leaf i => ["leaf", toString i]
  | node level idx => ["node", toString level, toString idx]
  | chunkNode chunk lvl idx => ["chunk", toString chunk, "node", toString lvl, toString idx]
  | chunkRoot chunk => ["chunk", toString chunk, "root"]
  | batchNode lvl idx => ["batch", "node", toString lvl, toString idx]
  | batchRoot => ["batch", "root"]
  | chunkProof chunk pos => ["chunk", toString chunk, "proof", "tx", toString pos]

theorem str_eq (key : Key) : key.str = (String.singleton '/').intercalate key.segments := by
  have hstr : ∀ s : String, toString s = s := fun _ => rfl
  rw [← String.toList_inj]
  cases key <;>
    simp [str, segments, txKey, leafKey, chunkNodeKey, chunkRootKey, batchNodeKey, batchRootKey, chunkProofKey, hstr,
      String.intercalate_cons_cons]

theorem segments_no_slash (key : Key) : ∀ s ∈ key.segments, '/' ∉ s.toList := by
  cases key <;>
    simp only [segments, List.forall_mem_cons, Joined.slash_not_mem, not_false_eq_true, true_and] <;> decide

theorem segments_injective {key key' : Key} (h : key.segments = key'.segments) : key = key' := by
  cases key <;> cases key' <;>
    simp only [segments, List.cons.injEq, Nat.toString_eq_repr, Joined.repr_inj, String.reduceEq, reduceCtorEq, and_true,
      true_and, and_false, false_and] at h <;> simp [h]

/-- **Different keys are formatted differently.** -/
theorem str_injective : Function.Injective str := by
  intro key key' h
  rw [str_eq, str_eq] at h
  have hne : ∀ key : Key, key.segments ≠ [] := fun key => by cases key <;> nofun
  exact segments_injective (Joined.intercalate_injective key.segments_no_slash key'.segments_no_slash (hne key) (hne key') h)

end Key

end DagExec.Client
