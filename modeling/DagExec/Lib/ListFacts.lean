import Mathlib.Data.List.Forall2
import Mathlib.Data.List.Nodup
import Mathlib.Data.List.Count
import Mathlib.Data.List.Perm.Basic
import Mathlib.Data.List.Rotate

/-!
# Lists as tables

Facts about lists used as tables indexed by position: what `Forall₂` says position by position, the number of set flags
of a mask, what changes in a table when one entry is replaced, and turns taken round a table.
-/

namespace ListFacts

variable {α β : Type} {R : α → β → Prop}

theorem forall₂_get_right {xs : List α} {ys : List β} (h : List.Forall₂ R xs ys) {i : ℕ} {y : β}
    (hy : ys[i]? = some y) : ∃ x, xs[i]? = some x ∧ R x y := by
  induction h generalizing i with
  | nil => simp at hy
  | cons hxy _ ih =>
    cases i with
    | zero => exact ⟨_, rfl, by simpa [← Option.some.inj hy] using hxy⟩
    | succ i => simpa using ih (by simpa using hy)

theorem forall₂_get_left {xs : List α} {ys : List β} (h : List.Forall₂ R xs ys) {i : ℕ} {x : α}
    (hx : xs[i]? = some x) : ∃ y, ys[i]? = some y ∧ R x y := by
  obtain ⟨y, hy, hr⟩ := forall₂_get_right h.flip hx
  exact ⟨y, hy, hr⟩

theorem forall₂_mem_right {xs : List α} {ys : List β} (h : List.Forall₂ R xs ys) {y : β} (hy : y ∈ ys) :
    ∃ x ∈ xs, R x y := by
  obtain ⟨i, hi⟩ := List.getElem?_of_mem hy
  obtain ⟨x, hx, hr⟩ := forall₂_get_right h hi
  exact ⟨x, List.mem_of_getElem? hx, hr⟩

/-- Renaming the left elements, when it keeps the relation. -/
theorem forall₂_map_congr {γ : Type} {S : γ → β → Prop} {f : γ → α} {xs : List γ} {ys : List β}
    (h : ∀ x ∈ xs, ∀ y, R (f x) y ↔ S x y) : List.Forall₂ R (xs.map f) ys ↔ List.Forall₂ S xs ys := by
  rw [List.forall₂_map_left_iff]
  induction xs generalizing ys with
  | nil => simp only [List.forall₂_nil_left_iff]
  | cons x xs ih =>
    simp only [List.forall₂_cons_left_iff, h x List.mem_cons_self, ih fun x' hx' => h x' (List.mem_cons_of_mem _ hx')]

theorem count_cons_eq [DecidableEq α] (x i : α) (xs : List α) :
    (x :: xs).count i = xs.count i + if i = x then 1 else 0 := by
  simp only [List.count_cons, beq_iff_eq, @eq_comm _ i x]

/-- A mask below another has at most as many set flags, and it is the same mask when it has as many. -/
theorem count_true_of_imp {xs ys : List Bool} (h : List.Forall₂ (fun x y => x = true → y = true) xs ys) :
    xs.count true ≤ ys.count true ∧ (xs.count true = ys.count true → xs = ys) := by
  induction h with
  | nil => exact ⟨Nat.le_refl _, fun _ => rfl⟩
  | @cons x y xs ys hxy _ ih =>
    cases x <;> cases y
    · simpa using ih
    · refine ⟨by simp; omega, fun he => ?_⟩
      simp at he; omega
    · exact absurd (hxy rfl) (by simp)
    · simpa using ih

/-- The first entry that lacks a property is unique. -/
theorem first_unique {P : α → Prop} {pre pre' post post' : List α} {x x' : α}
    (h : pre ++ x :: post = pre' ++ x' :: post') (hpre : ∀ y ∈ pre, P y) (hx : ¬ P x) (hpre' : ∀ y ∈ pre', P y)
    (hx' : ¬ P x') : x = x' := by
  induction pre generalizing pre' with
  | nil =>
    cases pre' with
    | nil => exact (List.cons.inj h).1
    | cons y pre' => exact absurd (hpre' y List.mem_cons_self) ((List.cons.inj h).1 ▸ hx)
  | cons y pre ih =>
    cases pre' with
    | nil => exact absurd (hpre y List.mem_cons_self) ((List.cons.inj h).1 ▸ hx')
    | cons y' pre' =>
      exact ih (List.cons.inj h).2 (fun z hz => hpre z (List.mem_cons_of_mem _ hz)) fun z hz =>
        hpre' z (List.mem_cons_of_mem _ hz)

/-- As many entries as there are, when each contributes. -/
theorem length_le_flatMap {xs : List α} {g : α → List β} (h : ∀ x ∈ xs, g x ≠ []) :
    xs.length ≤ (xs.flatMap g).length := by
  induction xs with
  | nil => exact Nat.le_refl _
  | cons x xs ih =>
    have hx := List.length_pos_of_ne_nil (h x List.mem_cons_self)
    have := ih fun y hy => h y (List.mem_cons_of_mem _ hy)
    rw [List.flatMap_cons, List.length_append, List.length_cons]
    omega

/-- When no result is listed twice, entries with the same result are the same. -/
theorem eq_of_filterMap_nodup {f : α → Option β} {xs : List α} (h : (xs.filterMap f).Nodup) {x y : α} {b : β}
    (hx : x ∈ xs) (hy : y ∈ xs) (hfx : f x = some b) (hfy : f y = some b) : x = y := by
  induction xs with
  | nil => cases hx
  | cons z xs ih =>
    have hrest : (xs.filterMap f).Nodup := h.sublist ((List.sublist_cons_self z xs).filterMap f)
    -- the head's result is not listed again
    have hhead : ∀ w ∈ xs, f z = some b → f w = some b → False := by
      intro w hw hfz hfw
      rw [List.filterMap_cons_some hfz] at h
      exact (List.nodup_cons.mp h).1 (List.mem_filterMap.mpr ⟨w, hw, hfw⟩)
    rcases List.mem_cons.mp hx with hxz | hx
    · rcases List.mem_cons.mp hy with hyz | hy
      · rw [hxz, hyz]
      · exact (hhead y hy (hxz ▸ hfx) hfy).elim
    · rcases List.mem_cons.mp hy with hyz | hy
      · exact (hhead x hx (hyz ▸ hfy) hfx).elim
      · exact ih hrest hx hy

/-! ## Replacing one entry -/

/-- What the entries contribute changes by what the replaced one did. -/
theorem flatMap_set_perm {xs : List α} {i : ℕ} {x : α} (h : xs[i]? = some x) (y : α) (g : α → List β) :
    ((xs.set i y).flatMap g ++ g x).Perm (xs.flatMap g ++ g y) := by
  obtain ⟨hi, rfl⟩ := List.getElem?_eq_some_iff.mp h
  have hset := (List.set_perm_cons_eraseIdx hi y).flatMap_right g
  have hget := (List.getElem_cons_eraseIdx_perm hi).symm.flatMap_right g
  rw [List.flatMap_cons] at hset hget
  calc ((xs.set i y).flatMap g ++ g xs[i]).Perm (g y ++ (xs.eraseIdx i).flatMap g ++ g xs[i]) := hset.append_right _
    List.Perm _ (g y ++ xs.flatMap g) := by
      rw [List.append_assoc]
      exact (List.perm_append_comm.trans hget.symm).append_left _
    List.Perm _ (xs.flatMap g ++ g y) := List.perm_append_comm

/-- An entry that contributes the same leaves the whole as it is. -/
theorem flatMap_set_eq {xs : List α} {i : ℕ} {x y : α} (h : xs[i]? = some x) (g : α → List β) (hg : g y = g x) :
    (xs.set i y).flatMap g = xs.flatMap g := by
  have hmap : (xs.map g).set i (g x) = xs.map g := by
    obtain ⟨hi, rfl⟩ := List.getElem?_eq_some_iff.mp h
    rw [← List.map_set, List.set_getElem_self]
  rw [List.flatMap_def, List.map_set, hg, hmap, List.flatMap_def]

theorem forall_mem_set {xs : List α} {i : ℕ} {y : α} {P : α → Prop} (h : ∀ x ∈ xs, P x) (hy : P y) :
    ∀ x ∈ xs.set i y, P x := fun x hx =>
  (List.mem_or_eq_of_mem_set hx).elim (h x) fun he => he ▸ hy

theorem forall₂_set {S : α → α → Prop} (hrefl : ∀ x, S x x) {xs : List α} {i : ℕ} {x y : α} (h : xs[i]? = some x)
    (hy : S y x) : List.Forall₂ S (xs.set i y) xs := by
  refine List.forall₂_iff_get.mpr ⟨List.length_set, fun j hj hj' => ?_⟩
  rw [List.get_eq_getElem, List.get_eq_getElem, List.getElem_set]
  split
  · rename_i hij
    subst hij
    rw [List.getElem?_eq_getElem hj', Option.some.injEq] at h
    rw [h]
    exact hy
  · exact hrefl _

/-! ## Turns -/

/-- The entries whose turn it is when `k` turns are taken round a table of `n` entries, from turn `start` on. -/
def turns (n start k : ℕ) : List ℕ := (List.range k).map fun i => (start + i) % n

@[simp] theorem length_turns (n start k : ℕ) : (turns n start k).length = k := by
  rw [turns, List.length_map, List.length_range]

theorem turns_succ (n start k : ℕ) : turns n start (k + 1) = turns n start k ++ [(start + k) % n] := by
  rw [turns, List.range_succ, List.map_append]
  rfl

theorem getElem?_turns {n start k i : ℕ} (h : i < k) : (turns n start k)[i]? = some ((start + i) % n) := by
  rw [turns, List.getElem?_map, List.getElem?_range h]
  rfl

/-- No entry has two turns among `n` consecutive ones. -/
theorem nodup_of_infix_turns {n start k : ℕ} {ws : List ℕ} (h : ws <:+: turns n start k) (hn : ws.length ≤ n) :
    ws.Nodup := by
  obtain ⟨a, hk, hget⟩ := List.infix_iff_getElem?.mp h
  rw [length_turns] at hk
  have hturn : ∀ i (hi : i < ws.length), ws[i]? = some ((start + a + i) % n) := by
    intro i hi
    have hi' := hget i hi
    rw [getElem?_turns (by omega), show start + (i + a) = start + a + i by omega] at hi'
    rw [List.getElem?_eq_getElem hi, hi']
  refine List.nodup_iff_getElem?_ne_getElem?.mpr fun i j hij hj heq => ?_
  rw [hturn i (by omega), hturn j hj] at heq
  -- the same remainder twice means at least one round between them
  have hsub := Nat.sub_mod_eq_zero_of_mod_eq (Option.some.inj heq).symm
  rw [Nat.add_sub_add_left, Nat.mod_eq_of_lt (by omega)] at hsub
  omega

theorem turns_nodup {n start k : ℕ} (h : k ≤ n) : (turns n start k).Nodup :=
  nodup_of_infix_turns (List.infix_refl _) (by rw [length_turns]; exact h)

/-- In a whole round every entry has its turn. -/
theorem mem_turns {n start i : ℕ} (h : i < n) : i ∈ turns n start n := by
  have hsub : turns n start n ⊆ List.range n := by
    intro j hj
    obtain ⟨a, -, rfl⟩ := List.mem_map.mp hj
    exact List.mem_range.mpr (Nat.mod_lt _ (by omega))
  have hperm : (turns n start n).Perm (List.range n) :=
    (List.subperm_of_subset (turns_nodup (Nat.le_refl n)) hsub).perm_of_length_le (by
      rw [length_turns, List.length_range])
  exact hperm.mem_iff.mpr (List.mem_range.mpr h)

/-- The entry whose turn it is comes first, and at the next turn it comes last. -/
theorem rotate_turn {xs : List α} {n : ℕ} {x : α} (hx : xs[n % xs.length]? = some x) :
    ∃ ys, xs.rotate n = x :: ys ∧ xs.rotate (n % xs.length + 1) = ys ++ [x] := by
  obtain ⟨hn, rfl⟩ := List.getElem?_eq_some_iff.mp hx
  have hdrop := List.drop_eq_getElem_cons hn
  have hcons : xs.rotate n = xs[n % xs.length] :: (xs.drop (n % xs.length + 1) ++ xs.take (n % xs.length)) := by
    rw [List.rotate_eq_drop_append_take_mod, hdrop, List.cons_append]
  refine ⟨_, hcons, ?_⟩
  rw [← List.rotate_rotate, List.rotate_mod, hcons, List.rotate_cons_succ, List.rotate_zero]

/-- The entry whose turn it is, and then the rest of the round from the next turn on. -/
theorem rotate_take_succ {xs : List α} {n k : ℕ} {x : α} (hx : xs[n % xs.length]? = some x) (hk : k < xs.length) :
    (xs.rotate n).take (k + 1) = x :: (xs.rotate (n % xs.length + 1)).take k := by
  obtain ⟨ys, hnow, hnext⟩ := rotate_turn hx
  have hlen := congrArg List.length hnow
  rw [List.length_rotate, List.length_cons] at hlen
  rw [hnow, hnext, List.take_succ_cons, List.take_append_of_le_length (by omega)]

/-- The entries that have had their turn, when the next one has it too. -/
theorem rotate_drop_succ {xs : List α} {n k : ℕ} {x : α} (hx : xs[n % xs.length]? = some x) (hk : k < xs.length) :
    (xs.rotate (n % xs.length + 1)).drop k = (xs.rotate n).drop (k + 1) ++ [x] := by
  obtain ⟨ys, hnow, hnext⟩ := rotate_turn hx
  have hlen := congrArg List.length hnow
  rw [List.length_rotate, List.length_cons] at hlen
  rw [hnow, hnext, List.drop_succ_cons, List.drop_append_of_le_length (by omega)]

theorem forall₂_rotate {xs : List α} {ys : List β} (h : List.Forall₂ R xs ys) (n : ℕ) :
    List.Forall₂ R (xs.rotate n) (ys.rotate n) := by
  rw [List.rotate_eq_drop_append_take_mod, List.rotate_eq_drop_append_take_mod, h.length_eq]
  exact List.rel_append (List.forall₂_drop _ h) (List.forall₂_take _ h)

/-- Entry by entry fewer contributions are fewer in all. -/
theorem flatMap_length_le {γ : Type} {g : α → List γ} {f : β → List γ} {xs : List α} {ys : List β}
    (h : List.Forall₂ (fun x y => (g x).length ≤ (f y).length) xs ys) :
    (xs.flatMap g).length ≤ (ys.flatMap f).length := by
  induction h with
  | nil => exact Nat.le_refl _
  | cons hxy _ ih =>
    rw [List.flatMap_cons, List.flatMap_cons, List.length_append, List.length_append]
    exact Nat.add_le_add hxy ih

/-- Each element that is kept adds something. -/
theorem filter_length_le_flatMap {f : α → List β} {p : α → Bool} {l : List α}
    (h : ∀ x ∈ l, p x = true → f x ≠ []) : (l.filter p).length ≤ (l.flatMap f).length := by
  induction l with
  | nil => exact Nat.le_refl _
  | cons x l ih =>
    have hrest := ih fun y hy => h y (List.mem_cons_of_mem _ hy)
    rw [List.flatMap_cons, List.length_append]
    by_cases hp : p x = true
    · have hpos := List.length_pos_of_ne_nil (h x List.mem_cons_self hp)
      rw [List.filter_cons_of_pos hp, List.length_cons]
      omega
    · rw [List.filter_cons_of_neg hp]
      omega

/-- Blocks have no repetitions if each has none and its elements tell which block they are in. -/
theorem nodup_flatMap_of {f : α → List β} (g : β → α) {l : List α} (hl : l.Nodup) (hf : ∀ x ∈ l, (f x).Nodup)
    (hg : ∀ x ∈ l, ∀ y ∈ f x, g y = x) : (l.flatMap f).Nodup := by
  refine List.nodup_flatMap.mpr ⟨hf, hl.imp_of_mem fun hx hy hne z hzx hzy => hne ?_⟩
  rw [← hg _ hx z hzx, hg _ hy z hzy]

/-- No repetitions, and all ranks between two bounds. -/
structure Ranked (g : α → ℕ) (lo hi : ℕ) (xs : List α) : Prop where
  nodup : xs.Nodup
  low : ∀ x ∈ xs, lo ≤ g x
  high : ∀ x ∈ xs, g x < hi

theorem Ranked.singleton {g : α → ℕ} {lo hi : ℕ} {x : α} (hlo : lo ≤ g x) (hhi : g x < hi) : Ranked g lo hi [x] := by
  refine ⟨List.nodup_singleton x, fun y hy => ?_, fun y hy => ?_⟩
  · rwa [List.mem_singleton.mp hy]
  · rwa [List.mem_singleton.mp hy]

/-- A list behind one of lower ranks. -/
theorem Ranked.append {g : α → ℕ} {lo mid hi : ℕ} {xs ys : List α} (hx : Ranked g lo mid xs) (hy : Ranked g mid hi ys)
    (hlo : lo ≤ mid) (hhi : mid ≤ hi) : Ranked g lo hi (xs ++ ys) := by
  refine ⟨List.nodup_append.mpr ⟨hx.nodup, hy.nodup, ?_⟩, fun z hz => ?_, fun z hz => ?_⟩
  · rintro z hzx _ hzy rfl
    exact absurd (hx.high z hzx) (Nat.not_lt.mpr (hy.low z hzy))
  · exact (List.mem_append.mp hz).elim (hx.low z) fun hzy => Nat.le_trans hlo (hy.low z hzy)
  · exact (List.mem_append.mp hz).elim (fun hzx => Nat.lt_of_lt_of_le (hx.high z hzx) hhi) (hy.high z)

theorem Ranked.flatMap {g : β → ℕ} {lo hi : ℕ} {f : α → List β} (block : β → α) {l : List α} (hl : l.Nodup)
    (hf : ∀ x ∈ l, Ranked g lo hi (f x)) (hb : ∀ x ∈ l, ∀ y ∈ f x, block y = x) : Ranked g lo hi (l.flatMap f) := by
  refine ⟨nodup_flatMap_of block hl (fun x hx => (hf x hx).nodup) hb, fun y hy => ?_, fun y hy => ?_⟩
  · obtain ⟨x, hx, hy⟩ := List.mem_flatMap.mp hy
    exact (hf x hx).low y hy
  · obtain ⟨x, hx, hy⟩ := List.mem_flatMap.mp hy
    exact (hf x hx).high y hy

theorem Ranked.map {g : β → ℕ} {lo hi : ℕ} {f : α → β} (hinj : Function.Injective f) {l : List α} (hl : l.Nodup)
    (hlo : ∀ x, lo ≤ g (f x)) (hhi : ∀ x, g (f x) < hi) : Ranked g lo hi (l.map f) := by
  refine ⟨hl.map hinj, fun y hy => ?_, fun y hy => ?_⟩
  · obtain ⟨x, -, rfl⟩ := List.mem_map.mp hy
    exact hlo x
  · obtain ⟨x, -, rfl⟩ := List.mem_map.mp hy
    exact hhi x

end ListFacts
