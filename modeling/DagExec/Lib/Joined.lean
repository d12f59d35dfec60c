import Mathlib.Data.List.Basic

/-!
# Strings joined by a separator

Joining strings that do not contain the separator loses nothing (`intercalate_injective`), and the decimal digits of a number
do not contain a slash (`slash_not_mem`).
-/

namespace Joined

variable {c : Char} {ss ts : List String}

theorem intercalate_injective (hs : ∀ s ∈ ss, c ∉ s.toList) (ht : ∀ s ∈ ts, c ∉ s.toList) (hne : ss ≠ []) (hne' : ts ≠ [])
    (h : (String.singleton c).intercalate ss = (String.singleton c).intercalate ts) : ss = ts := by
  have hsplit : ∀ us : List String, (∀ s ∈ us, c ∉ s.toList) → us ≠ [] →
      ((String.singleton c).intercalate us).toList.splitOn c = us.map String.toList := by
    intro us hus hne
    rw [String.toList_intercalate, String.toList_singleton]
    refine List.splitOn_intercalate c (fun l hl => ?_) (by simpa using hne)
    obtain ⟨s, hmem, rfl⟩ := List.mem_map.mp hl
    exact hus s hmem
  have hlists := hsplit ss hs hne
  rw [h, hsplit ts ht hne'] at hlists
  exact List.map_injective_iff.mpr (fun _ _ => String.toList_inj.mp) hlists.symm

theorem slash_not_mem (n : ℕ) : '/' ∉ (toString n).toList := by
  rw [Nat.toString_eq_repr, Nat.toList_repr]
  intro h
  exact absurd (Nat.isDigit_of_mem_toDigits (by decide) (by decide) h) (by decide)

theorem repr_inj {n m : ℕ} : n.repr = m.repr ↔ n = m := by
  refine ⟨fun h => ?_, congrArg Nat.repr⟩
  rw [← String.toList_inj, Nat.toList_repr, Nat.toList_repr] at h
  have hback := congrArg (fun l => Nat.ofDigitChars 10 l 0) h
  rwa [Nat.ofDigitChars_ten_toDigits, Nat.ofDigitChars_ten_toDigits] at hback

end Joined
