import DagExec.Lib.MerkleTree
import DagExec.Model.Outcome
import Mathlib.Algebra.GroupWithZero.Nat

/-!
# Hashes and encodings of the client programs: `examples/common/mod.rs`

`Vec<u8>` and `&[u8]` are lists of bytes. The hash is a deterministic workload shaper; what the client programs rely on is
that it returns 32 bytes (`hashLeafWithIters_length`, `hashNodeWithIters_length`).
-/

namespace DagExec.Client

abbrev Bytes := List UInt8

/-- `x.to_le_bytes()` of an integer of `k` bytes. -/
def toLeBytes : (k : Nat) → (x : Nat) → Bytes
  | 0, _ => []
  | k + 1, x => UInt8.ofNat (x % 256) :: toLeBytes k (x / 256)

/-- `from_le_bytes`. -/
def fromLeBytes : Bytes → Nat
  | [] => 0
  | b :: bs => b.toNat + 256 * fromLeBytes bs

@[simp] theorem toLeBytes_length (k x : Nat) : (toLeBytes k x).length = k := by
  induction k generalizing x with
  | zero => rfl
  | succ k ih => rw [toLeBytes, List.length_cons, ih]

theorem fromLeBytes_toLeBytes (k x : Nat) : fromLeBytes (toLeBytes k x) = x % 256 ^ k := by
  induction k generalizing x with
  | zero => rw [toLeBytes, fromLeBytes, Nat.pow_zero, Nat.mod_one]
  | succ k ih =>
    have hbyte : (UInt8.ofNat (x % 256)).toNat = x % 256 := by
      rw [UInt8.toNat_ofNat']
      exact Nat.mod_mod x 256
    rw [toLeBytes, fromLeBytes, ih, hbyte, Nat.pow_succ, Nat.mul_comm (256 ^ k) 256, Nat.mod_mul]

theorem toLeBytes_fromLeBytes (bs : Bytes) : toLeBytes bs.length (fromLeBytes bs) = bs := by
  induction bs with
  | nil => rfl
  | cons b bs ih =>
    have hb : b.toNat < 256 := b.toNat_lt
    have hlow : (b.toNat + 256 * fromLeBytes bs) % 256 = b.toNat := by omega
    have hhigh : (b.toNat + 256 * fromLeBytes bs) / 256 = fromLeBytes bs := by omega
    rw [List.length_cons, fromLeBytes, toLeBytes, hlow, hhigh, ih, UInt8.ofNat_toNat]

theorem fromLeBytes_lt (bs : Bytes) : fromLeBytes bs < 256 ^ bs.length := by
  induction bs with
  | nil => exact Nat.one_pos
  | cons b bs ih =>
    have hb : b.toNat < 256 := b.toNat_lt
    rw [fromLeBytes, List.length_cons, Nat.pow_succ]
    omega

def u64ToLeBytes (x : UInt64) : Bytes := toLeBytes 8 x.toNat

def ensure32 (x : Bytes) : Outcome String Unit := if x.length = 32 then .ok () else .err "expected 32-byte hash"

def mix64 (x : UInt64) : UInt64 :=
  let x := x ^^^ (x >>> 30)
  let x := x * 0xbf58476d1ce4e5b9
  let x := x ^^^ (x >>> 27)
  let x := x * 0x94d049bb133111eb
  x ^^^ (x >>> 31)

/-- The body of the loop over the parts. -/
def absorb (x : UInt64) (p : Bytes) : UInt64 :=
  let x := p.foldl (fun x b => mix64 (x ^^^ b.toUInt64)) (x ^^^ UInt64.ofNat p.length)
  mix64 (x ^^^ 0x9e3779b97f4a7c15)

/-- The output loop: four words. -/
def squeeze : List Nat → UInt64 → Bytes
  | [], _ => []
  | i :: is, y => u64ToLeBytes (mix64 (y ^^^ UInt64.ofNat i)) ++ squeeze is (mix64 (y ^^^ UInt64.ofNat i))

def toyHash256 (iters : Nat) (domain : UInt8) (parts : List Bytes) : Bytes :=
  let x := parts.foldl absorb (0xcbf29ce484222325 ^^^ domain.toUInt64)
  -- the knob: more mixing for each call
  let x := Nat.repeat (fun x => mix64 (x ^^^ 0x9e3779b97f4a7c15)) iters x
  squeeze (List.range 4) x

def hashLeafWithIters (iters : Nat) (txBytes : Bytes) : Bytes := toyHash256 iters 0x00 [txBytes]

def hashNodeWithIters (iters : Nat) (left right : Bytes) : Bytes := toyHash256 iters 0x01 [left, right]

theorem squeeze_length (is : List Nat) (y : UInt64) : (squeeze is y).length = 8 * is.length := by
  induction is generalizing y with
  | nil => rfl
  | cons i is ih =>
    rw [squeeze, List.length_append, ih, u64ToLeBytes, toLeBytes_length, List.length_cons]
    omega

theorem toyHash256_length (iters : Nat) (domain : UInt8) (parts : List Bytes) :
    (toyHash256 iters domain parts).length = 32 := by
  unfold toyHash256
  rw [squeeze_length, List.length_range]

@[simp] theorem hashLeafWithIters_length (iters : Nat) (tx : Bytes) : (hashLeafWithIters iters tx).length = 32 :=
  toyHash256_length iters _ _

@[simp] theorem hashNodeWithIters_length (iters : Nat) (left right : Bytes) :
    (hashNodeWithIters iters left right).length = 32 := toyHash256_length iters _ _

/-- A tree over hashes has hashes. -/
theorem node_length {f : ℕ → Bytes} (hf : ∀ i, (f i).length = 32) (hashIters l i : ℕ) :
    (MerkleTree.node (hashNodeWithIters hashIters) f l i).length = 32 := by
  cases l with
  | zero => exact hf i
  | succ l => exact hashNodeWithIters_length _ _ _

theorem ensure32_ok {x : Bytes} (h : x.length = 32) : ensure32 x = .ok () := if_pos h

/-- `format!("{:040x}", n)`. -/
def hex40 (n : Nat) : String := String.ofList ((Nat.toDigits 16 n).leftpad 40 '0')

/-- The bytes that stand for a transaction. -/
def fakeEncodedTx (i : Nat) : Bytes :=
  let sender := "0x" ++ hex40 (0x1000 + i)
  let receiver := "0x" ++ hex40 (0x2000 + i)
  let nonce := i
  let value := 1000000 + i
  s!"from={sender}|to={receiver}|nonce={nonce}|value={value}".toUTF8.data.toList

end DagExec.Client
