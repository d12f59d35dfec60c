import Mathlib.Algebra.GroupWithZero.Nat
import Mathlib.Data.List.Nodup
import Mathlib.Data.Nat.Bitwise
import Mathlib.Tactic.Ring

/-!
# Perfect binary hash trees

Over any hash `h` of two children. `node h f l i` is the node with index `i` of level `l` of the tree over the leaves `f`;
pairing a whole level up gives the next one (`pairUp_level`). `climb h i x ss` recomputes a node from a node `x` with index
`i` below it and the siblings on the way. It gives the node on the honest siblings (`climb_path`), and two ways up to one
value from one index are the same, or two different pairs that were hashed on them collide (`climb_binding`).

`keys base inner l i` lists what is under a node, with anything at the leaves; its members, its length and its multiplicities
follow from those of `base` (`mem_keys`, `countP_keys`, `nodup_keys`).
-/

namespace MerkleTree

variable {H : Type} (h : H → H → H)

def node (f : ℕ → H) : ℕ → ℕ → H
  | 0, i => f i
  | l + 1, i => h (node f l (2 * i)) (node f l (2 * i + 1))

/-- A level, a pair at a time; an odd one out is dropped. -/
def pairUp : List H → List H
  | a :: b :: rest => h a b :: pairUp rest
  | _ => []

theorem pairUp_range (w : ℕ) (g : ℕ → H) :
    pairUp h ((List.range (2 * w)).map g) = (List.range w).map fun i => h (g (2 * i)) (g (2 * i + 1)) := by
  induction w generalizing g with
  | zero => rfl
  | succ w ih =>
    have hrange : List.range (2 * (w + 1)) = 0 :: 1 :: (List.range (2 * w)).map (· + 2) := by
      rw [show 2 * (w + 1) = 2 * w + 1 + 1 by omega, List.range_succ_eq_map, List.range_succ_eq_map, List.map_cons,
        List.map_map]
      rfl
    have hrest := ih fun i => g (i + 2)
    rw [hrange, List.map_cons, List.map_cons, List.map_map, pairUp, List.range_succ_eq_map, List.map_cons, List.map_map]
    exact congrArg (h (g 0) (g 1) :: ·) hrest

theorem pairUp_level (f : ℕ → H) (l w : ℕ) :
    pairUp h ((List.range (2 * w)).map (node h f l)) = (List.range w).map (node h f (l + 1)) :=
  pairUp_range h w _

/-- A tree over the nodes of a level is the tree above that level. -/
theorem node_node (f : ℕ → H) (k l i : ℕ) : node h (node h f k) l i = node h f (k + l) i := by
  induction l generalizing i with
  | zero => rfl
  | succ l ih => rw [node, ih, ih, ← Nat.add_assoc, node]

/-- Some neighbouring leaves have the tree over them inside the tree over all. -/
theorem node_offset (f : ℕ → H) (c : ℕ) {l n : ℕ} (hle : l ≤ n) (i : ℕ) :
    node h (fun j => f (c * 2 ^ n + j)) l i = node h f l (c * 2 ^ (n - l) + i) := by
  induction l generalizing i with
  | zero => rfl
  | succ l ih =>
    have hpow : c * 2 ^ (n - l) = 2 * (c * 2 ^ (n - (l + 1))) := by
      rw [show n - l = n - (l + 1) + 1 by omega, pow_succ']
      ring
    rw [node, node, ih (Nat.le_of_succ_le hle), ih (Nat.le_of_succ_le hle), hpow, Nat.mul_add, Nat.add_assoc]

/-! ## The way up -/

/-- The two children of a node, one of them with index `i`. -/
def children (i : ℕ) (x s : H) : H × H := if i % 2 = 0 then (x, s) else (s, x)

/-- Their parent. -/
def parent (i : ℕ) (x s : H) : H := h (children i x s).1 (children i x s).2

def climb : ℕ → H → List H → H
  | _, x, [] => x
  | i, x, s :: ss => climb (i / 2) (parent h i x s) ss

/-- The pairs hashed on the way up. -/
def hashed : ℕ → H → List H → List (H × H)
  | _, _, [] => []
  | i, x, s :: ss => children i x s :: hashed (i / 2) (parent h i x s) ss

/-- The siblings on the way up from a node, `n` levels. -/
def path (f : ℕ → H) : (l i n : ℕ) → List H
  | _, _, 0 => []
  | l, i, n + 1 => node h f l (i ^^^ 1) :: path f (l + 1) (i / 2) n

/-- At some level two ways up hash different pairs to one value. -/
def Collide (ps qs : List (H × H)) : Prop :=
  ∃ (k : ℕ) (p q : H × H), ps[k]? = some p ∧ qs[k]? = some q ∧ p ≠ q ∧ h p.1 p.2 = h q.1 q.2

theorem children_injective {i : ℕ} {x y s t : H} (he : children i x s = children i y t) : x = y ∧ s = t := by
  unfold children at he
  split at he
  · exact Prod.mk.inj he
  · exact (Prod.mk.inj he).symm

theorem length_path (f : ℕ → H) (l i n : ℕ) : (path h f l i n).length = n := by
  induction n generalizing l i with
  | zero => rfl
  | succ n ih => rw [path, List.length_cons, ih]

theorem getElem?_path (f : ℕ → H) (l i : ℕ) {n k : ℕ} (hk : k < n) :
    (path h f l i n)[k]? = some (node h f (l + k) ((i / 2 ^ k) ^^^ 1)) := by
  induction n generalizing l i k with
  | zero => omega
  | succ n ih =>
    cases k with
    | zero => rw [path, List.getElem?_cons_zero, Nat.add_zero, pow_zero, Nat.div_one]
    | succ k =>
      rw [path, List.getElem?_cons_succ, ih _ _ (Nat.lt_of_succ_lt_succ hk), Nat.div_div_eq_div_mul, pow_succ',
        Nat.add_right_comm l 1 k, Nat.add_assoc l k 1]

theorem path_eq_map (f : ℕ → H) (l i n : ℕ) :
    path h f l i n = (List.range n).map fun k => node h f (l + k) ((i / 2 ^ k) ^^^ 1) := by
  refine List.ext_getElem? fun k => ?_
  rcases Nat.lt_or_ge k n with hk | hk
  · rw [getElem?_path h f l i hk, List.getElem?_map, List.getElem?_range hk]
    rfl
  · rw [List.getElem?_eq_none (by rwa [length_path]), List.getElem?_eq_none (by simpa using hk)]

/-- A node and its sibling have the node above as their parent. -/
theorem parent_node (f : ℕ → H) (l i : ℕ) :
    parent h i (node h f l i) (node h f l (i ^^^ 1)) = node h f (l + 1) (i / 2) := by
  unfold parent children
  rw [node]
  split
  · rename_i heven
    rw [Nat.xor_one_of_even (Nat.even_iff.mpr heven), show 2 * (i / 2) = i by omega]
  · rename_i hodd
    rw [Nat.xor_one_of_odd (Nat.odd_iff.mpr (by omega)), show 2 * (i / 2) = i - 1 by omega, show i - 1 + 1 = i by omega]

/-- **The honest siblings lead to the node.** -/
theorem climb_path (f : ℕ → H) (l i n : ℕ) :
    climb h i (node h f l i) (path h f l i n) = node h f (l + n) (i / 2 ^ n) := by
  induction n generalizing l i with
  | zero => rw [path, climb, Nat.add_zero, pow_zero, Nat.div_one]
  | succ n ih =>
    rw [path, climb, parent_node, ih, Nat.div_div_eq_div_mul, pow_succ', Nat.add_right_comm l 1 n, Nat.add_assoc l n 1]

/-- Only as many bits of the index count as there are siblings. -/
theorem climb_mod (i : ℕ) (x : H) (ss : List H) : climb h (i % 2 ^ ss.length) x ss = climb h i x ss := by
  induction ss generalizing i x with
  | nil => rfl
  | cons s ss ih =>
    have hbit : i % 2 ^ (s :: ss).length % 2 = i % 2 := by
      rw [List.length_cons, pow_succ', Nat.mod_mul_right_mod]
    have hrest : i % 2 ^ (s :: ss).length / 2 = i / 2 % 2 ^ ss.length := by
      rw [List.length_cons, pow_succ', Nat.mod_mul_right_div_self]
    have hch : children (i % 2 ^ (s :: ss).length) x s = children i x s := by
      unfold children
      rw [hbit]
    rw [climb, climb, parent, hch, hrest, ih, parent]

/-- **Two ways up to one value are the same, or they collide.** -/
theorem climb_binding {i : ℕ} {x y : H} {ss ts : List H} (hlen : ss.length = ts.length)
    (he : climb h i x ss = climb h i y ts) : (x = y ∧ ss = ts) ∨ Collide h (hashed h i x ss) (hashed h i y ts) := by
  induction ss generalizing i x y ts with
  | nil =>
    rw [List.length_nil, eq_comm, List.length_eq_zero_iff] at hlen
    subst hlen
    exact .inl ⟨he, rfl⟩
  | cons s ss ih =>
    cases ts with
    | nil => cases hlen
    | cons t ts =>
      rw [climb, climb] at he
      rcases ih (Nat.succ.inj hlen) he with ⟨hval, rfl⟩ | ⟨k, p, q, hp, hq, hne, hpq⟩
      · by_cases hch : children i x s = children i y t
        · obtain ⟨rfl, rfl⟩ := children_injective hch
          exact .inl ⟨rfl, rfl⟩
        · exact .inr ⟨0, _, _, rfl, rfl, hch, hval⟩
      · exact .inr ⟨k + 1, p, q, hp, hq, hne, hpq⟩

/-! ## What is under a node -/

section

variable {κ : Type} (base : ℕ → List κ) (inner : ℕ → ℕ → κ) (top : ℕ → κ)

/-- The name of a node: leaves have names of their own. -/
def name : ℕ → ℕ → κ
  | 0, i => top i
  | l + 1, i => inner (l + 1) i

/-- The inner nodes under a node, itself included, and what `base` has at its leaves. -/
def keys : ℕ → ℕ → List κ
  | 0, i => base i
  | l + 1, i => inner (l + 1) i :: (keys l (2 * i) ++ keys l (2 * i + 1))

variable {base inner top}

theorem mem_keys {x : κ} {l i : ℕ} : x ∈ keys base inner l i ↔ (∃ j, j / 2 ^ l = i ∧ x ∈ base j) ∨
    ∃ k j, 0 < k ∧ k ≤ l ∧ j / 2 ^ (l - k) = i ∧ x = inner k j := by
  induction l generalizing i with
  | zero =>
    rw [keys]
    constructor
    · intro hx
      exact .inl ⟨i, by rw [pow_zero, Nat.div_one], hx⟩
    · rintro (⟨j, hj, hx⟩ | ⟨k, j, hpos, hle, -⟩)
      · rw [pow_zero, Nat.div_one] at hj
        exact hj ▸ hx
      · omega
  | succ l ih =>
    have hhalf : ∀ j n, j / 2 ^ (n + 1) = i ↔ j / 2 ^ n = 2 * i ∨ j / 2 ^ n = 2 * i + 1 := fun j n => by
      rw [pow_succ, ← Nat.div_div_eq_div_mul]
      omega
    rw [keys, List.mem_cons, List.mem_append, ih, ih]
    constructor
    · rintro (rfl | (⟨j, hj, hx⟩ | ⟨k, j, hpos, hle, hj, rfl⟩) | ⟨j, hj, hx⟩ | ⟨k, j, hpos, hle, hj, rfl⟩)
      · exact .inr ⟨l + 1, i, Nat.succ_pos l, Nat.le_refl _, by rw [Nat.sub_self, pow_zero, Nat.div_one], rfl⟩
      · exact .inl ⟨j, (hhalf j l).mpr (.inl hj), hx⟩
      · exact .inr ⟨k, j, hpos, by omega, by rw [Nat.succ_sub hle]; exact (hhalf j _).mpr (.inl hj), rfl⟩
      · exact .inl ⟨j, (hhalf j l).mpr (.inr hj), hx⟩
      · exact .inr ⟨k, j, hpos, by omega, by rw [Nat.succ_sub hle]; exact (hhalf j _).mpr (.inr hj), rfl⟩
    · rintro (⟨j, hj, hx⟩ | ⟨k, j, hpos, hle, hj, rfl⟩)
      · exact .inr (((hhalf j l).mp hj).imp (fun hj => .inl ⟨j, hj, hx⟩) fun hj => .inl ⟨j, hj, hx⟩)
      · rcases Nat.lt_or_ge l k with hgt | hle'
        · obtain rfl : k = l + 1 := by omega
          rw [Nat.sub_self, pow_zero, Nat.div_one] at hj
          exact .inl (by rw [hj])
        · rw [Nat.succ_sub hle'] at hj
          exact .inr (((hhalf j _).mp hj).imp (fun hj => .inr ⟨k, j, hpos, hle', hj, rfl⟩)
            fun hj => .inr ⟨k, j, hpos, hle', hj, rfl⟩)

/-- How often something is under a node: so often for each leaf, and for each inner node if those have it. -/
theorem countP_keys {p : κ → Bool} {n : ℕ} {b : Bool} (hbase : ∀ j, (base j).countP p = n) (hinner : ∀ k j, p (inner k j) = b)
    (l i : ℕ) : (keys base inner l i).countP p = 2 ^ l * n + b.toNat * (2 ^ l - 1) := by
  induction l generalizing i with
  | zero => rw [keys, hbase, pow_zero, Nat.one_mul, Nat.sub_self, Nat.mul_zero, Nat.add_zero]
  | succ l ih =>
    have hpos : 0 < 2 ^ l := Nat.two_pow_pos l
    rw [keys, List.countP_cons, List.countP_append, ih, ih, hinner, pow_succ, Nat.mul_assoc, Nat.mul_comm 2 n, ← Nat.mul_assoc]
    cases b with
    | true => simp only [if_true, Bool.toNat_true]; omega
    | false => simp only [Bool.toNat_false, Bool.false_eq_true, if_false]; omega

/-- The inner nodes of a tree over trees. -/
theorem two_pow_mul_pred (b c : ℕ) : 2 ^ b * (2 ^ c - 1) + (2 ^ b - 1) = 2 ^ b * 2 ^ c - 1 := by
  have hb := Nat.two_pow_pos b
  have hle : 2 ^ b ≤ 2 ^ b * 2 ^ c := Nat.le_mul_of_pos_right _ (Nat.two_pow_pos c)
  rw [Nat.mul_sub, Nat.mul_one]
  omega

theorem nodup_keys (hbase : ∀ j, (base j).Nodup) (hapart : ∀ j j' x, x ∈ base j → x ∈ base j' → j = j')
    (hinner : ∀ k j k' j', inner k j = inner k' j' → k = k' ∧ j = j') (hleaf : ∀ j k j', inner k j' ∉ base j) (l i : ℕ) :
    (keys base inner l i).Nodup := by
  induction l generalizing i with
  | zero => exact hbase i
  | succ l ih =>
    have hpow : ∀ j n, j / 2 ^ n = 2 * i → j / 2 ^ n ≠ 2 * i + 1 := fun j n h => by omega
    rw [keys, List.nodup_cons, List.nodup_append]
    refine ⟨?_, ih _, ih _, ?_⟩
    · rw [List.mem_append, mem_keys, mem_keys]
      rintro ((⟨j, -, hx⟩ | ⟨k, j, -, hle, -, he⟩) | ⟨j, -, hx⟩ | ⟨k, j, -, hle, -, he⟩)
      · exact hleaf _ _ _ hx
      · have hk := (hinner _ _ _ _ he).1
        omega
      · exact hleaf _ _ _ hx
      · have hk := (hinner _ _ _ _ he).1
        omega
    · rintro x hx y hy rfl
      rw [mem_keys] at hx hy
      rcases hx with ⟨j, hj, hx⟩ | ⟨k, j, -, -, hj, rfl⟩
      · rcases hy with ⟨j', hj', hy⟩ | ⟨k', j', -, -, -, rfl⟩
        · obtain rfl := hapart _ _ _ hx hy
          exact hpow _ _ hj hj'
        · exact hleaf _ _ _ hx
      · rcases hy with ⟨j', -, hy⟩ | ⟨k', j', -, -, hj', he⟩
        · exact hleaf _ _ _ hy
        · obtain ⟨rfl, rfl⟩ := hinner _ _ _ _ he
          exact hpow _ _ hj hj'

theorem name_pos {n : ℕ} (hn : 0 < n) (i : ℕ) : name inner top n i = inner n i := by
  cases n with
  | zero => cases hn
  | succ n => rfl

/-- The nodes under a node, by name. -/
theorem name_mem_keys (htop : ∀ j, top j ∈ base j) {n k x r : ℕ} (hk : k ≤ n) (hx : x / 2 ^ (n - k) = r) :
    name inner top k x ∈ keys base inner n r := by
  rw [mem_keys]
  cases k with
  | zero => exact .inl ⟨x, hx, htop x⟩
  | succ k => exact .inr ⟨k + 1, x, Nat.succ_pos k, hk, hx, rfl⟩

theorem half_div {n k j r : ℕ} (hk : k < n) (hj : j / 2 ^ (n - (k + 1)) = r) {x : ℕ} (hx : x = 2 * j ∨ x = 2 * j + 1) :
    x / 2 ^ (n - k) = r := by
  rw [show n - k = n - (k + 1) + 1 by omega, pow_succ', ← Nat.div_div_eq_div_mul, show x / 2 = j by omega, hj]

theorem lt_two_pow_sub {n l i : ℕ} : i < 2 ^ (n - l) ↔ i / 2 ^ (n - l) = 0 := by
  rw [Nat.div_eq_zero_iff]
  have hpos := Nat.two_pow_pos (n - l)
  omega

theorem two_pow_shiftRight {n l : ℕ} (hl : l ≤ n) : 2 ^ n >>> l = 2 ^ (n - l) := by
  rw [Nat.shiftRight_eq_div_pow, Nat.pow_div hl Nat.two_pos]

theorem half_lt {n l i x : ℕ} (hl : l < n) (hi : i < 2 ^ (n - (l + 1))) (hx : x = 2 * i ∨ x = 2 * i + 1) : x < 2 ^ (n - l) :=
  lt_two_pow_sub.mpr (half_div hl (lt_two_pow_sub.mp hi) hx)

/-- What is under a node of a tree is in the tree. -/
theorem under_lt {n l k i j : ℕ} (hk : k ≤ l) (hl : l ≤ n) (hi : i < 2 ^ (n - l)) (hj : j / 2 ^ (l - k) = i) :
    j < 2 ^ (n - k) := by
  rw [lt_two_pow_sub, show n - k = l - k + (n - l) by omega, pow_add, ← Nat.div_div_eq_div_mul, hj]
  exact lt_two_pow_sub.mp hi

/-- What goes down from a node to its children, and from a leaf to what is there, holds of all that is under the node. -/
theorem forall_keys {P : κ → Prop} {n r : ℕ}
    (hinner : ∀ k j, k < n → j / 2 ^ (n - (k + 1)) = r → P (inner (k + 1) j) → ∀ x, x = 2 * j ∨ x = 2 * j + 1 →
      P (name inner top k x))
    (hbase : ∀ j, j / 2 ^ n = r → P (top j) → ∀ x ∈ base j, P x) (h : P (name inner top n r)) :
    ∀ x ∈ keys base inner n r, P x := by
  have hall : ∀ l ≤ n, ∀ i, i / 2 ^ (n - l) = r → P (name inner top l i) → ∀ x ∈ keys base inner l i, P x := by
    intro l
    induction l with
    | zero => exact fun _ i hi hP => hbase i hi hP
    | succ l ih =>
      intro hl i hi hP x hx
      rw [keys, List.mem_cons, List.mem_append] at hx
      have hdown := hinner l i hl hi hP
      rcases hx with rfl | hx | hx
      · exact hP
      · exact ih (Nat.le_of_succ_le hl) _ (half_div hl hi (.inl rfl)) (hdown _ (.inl rfl)) x hx
      · exact ih (Nat.le_of_succ_le hl) _ (half_div hl hi (.inr rfl)) (hdown _ (.inr rfl)) x hx
  exact hall n (Nat.le_refl n) r (by rw [Nat.sub_self, pow_zero, Nat.div_one]) h

end

end MerkleTree
