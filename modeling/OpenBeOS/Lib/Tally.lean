import Mathlib

/-! # Counting the members of a crowd

How many of the first `n` have a property, and how the number changes when one of them changes.
-/

namespace Tally

open Function

variable {n m : Nat}

theorem sum_change {g g' : Nat → Nat} (hm : m < n) (hsame : ∀ k, k ≠ m → g' k = g k) :
    ∑ k ∈ Finset.range n, g' k + g m = ∑ k ∈ Finset.range n, g k + g' m := by
  have hmem := Finset.mem_range.mpr hm
  have hrest : ∑ k ∈ (Finset.range n).erase m, g' k = ∑ k ∈ (Finset.range n).erase m, g k :=
    Finset.sum_congr rfl fun k hk => hsame k (Finset.ne_of_mem_erase hk)
  rw [← Finset.add_sum_erase _ g hmem, ← Finset.add_sum_erase _ g' hmem, hrest]
  omega

/-- How many have the property. -/
def tally (n : Nat) (p : Nat → Bool) : Nat := ∑ k ∈ Finset.range n, (p k).toNat

variable {p p' : Nat → Bool}

theorem tally_change (hm : m < n) (hsame : ∀ k, k ≠ m → p' k = p k) :
    tally n p' + (p m).toNat = tally n p + (p' m).toNat := by
  have hterms : ∀ k, k ≠ m → (fun k => (p' k).toNat) k = (fun k => (p k).toNat) k := by
    intro k hk
    dsimp only
    rw [hsame k hk]
  exact sum_change hm hterms

theorem tally_same (hsame : ∀ k < n, p' k = p k) : tally n p' = tally n p :=
  Finset.sum_congr rfl fun k hk => by rw [hsame k (Finset.mem_range.mp hk)]

theorem tally_none (h : ∀ k < n, p k = false) : tally n p = 0 :=
  Finset.sum_eq_zero fun k hk => by rw [h k (Finset.mem_range.mp hk)]; rfl

theorem tally_all (h : ∀ k < n, p k = true) : tally n p = n := by
  have hterms : ∀ k ∈ Finset.range n, (p k).toNat = 1 := fun k hk => by
    rw [h k (Finset.mem_range.mp hk), Bool.toNat_true]
  unfold tally
  rw [Finset.sum_congr rfl hterms, ← Finset.card_eq_sum_ones, Finset.card_range]

theorem tally_pos (hm : m < n) (hp : p m = true) : 0 < tally n p := by
  have hle : (p m).toNat ≤ tally n p :=
    Finset.single_le_sum (f := fun k => (p k).toNat) (fun _ _ => Nat.zero_le _)
      (Finset.mem_range.mpr hm)
  rw [hp] at hle
  exact hle

theorem exists_of_tally_pos (h : 0 < tally n p) : ∃ k < n, p k = true := by
  by_contra hnone
  have hzero : tally n p = 0 := by
    refine tally_none fun k hk => ?_
    by_contra hp
    exact hnone ⟨k, hk, Bool.not_eq_false _ ▸ hp⟩
  omega

theorem tally_unique (h : tally n p ≤ 1) {k : Nat} (hm : m < n) (hk : k < n) (hpm : p m = true)
    (hpk : p k = true) : m = k := by
  by_contra hne
  have hsame : ∀ j, j ≠ m → update p m false j = p j := fun j hj => update_of_ne hj ..
  have hchange := tally_change hm hsame
  have hpos : 0 < tally n (update p m false) := by
    refine tally_pos hk ?_
    rw [update_of_ne (Ne.symm hne)]
    exact hpk
  rw [hpm, update_self] at hchange
  simp only [Bool.toNat_true, Bool.toNat_false] at hchange
  omega

end Tally
