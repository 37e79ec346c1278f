import Mathlib

/-! # Buckets

Hash tables with chains: `array` has the chain of each bucket, and `slot` says where an entry
belongs. `gather` are the entries of the first buckets; what is in them is all that matters, in any
order.
-/

namespace Buckets

open Function

variable {ε : Type} {array : Nat → List ε} {slot : ε → Nat} {n i : Nat} {e : ε}

/-- The entries of the first `n` buckets. -/
def gather (array : Nat → List ε) (n : Nat) : List ε := (List.range n).flatMap array

theorem mem_gather : e ∈ gather array n ↔ ∃ i, i < n ∧ e ∈ array i := by
  simp [gather]

/-- Every entry is in the bucket it belongs to. -/
def Placed (slot : ε → Nat) (array : Nat → List ε) (n : Nat) : Prop :=
  ∀ i, ∀ e ∈ array i, slot e = i ∧ i < n

theorem Placed.mem_bucket (h : Placed slot array n) : e ∈ array (slot e) ↔ e ∈ gather array n := by
  rw [mem_gather]
  constructor
  · intro he
    exact ⟨slot e, (h _ _ he).2, he⟩
  · rintro ⟨i, -, he⟩
    rwa [(h i e he).1]

theorem gather_succ (array : Nat → List ε) (n : Nat) :
    gather array (n + 1) = gather array n ++ array n := by
  simp [gather, List.range_succ]

variable {chain : List ε}

theorem gather_update_of_le (h : n ≤ i) : gather (update array i chain) n = gather array n := by
  induction n with
  | zero => rfl
  | succ n ih =>
    rw [gather_succ, gather_succ, ih (by omega), update_of_ne (by omega)]

theorem gather_update_cons (hi : i < n) (hchain : chain.Perm (e :: array i)) :
    (gather (update array i chain) n).Perm (e :: gather array n) := by
  induction n with
  | zero => exact absurd hi (Nat.not_lt_zero i)
  | succ n ih =>
    rw [gather_succ, gather_succ]
    rcases Nat.eq_or_lt_of_le (Nat.le_of_lt_succ hi) with rfl | hlt
    · rw [gather_update_of_le (Nat.le_refl i), update_self]
      exact (hchain.append_left _).trans List.perm_middle
    · rw [update_of_ne (by omega)]
      exact (ih hlt).append_right _

theorem Placed.update (h : Placed slot array n) (hi : i < n)
    (hchain : ∀ x ∈ chain, slot x = i) : Placed slot (update array i chain) n := by
  intro j x hx
  by_cases hj : j = i
  · subst hj
    rw [update_self] at hx
    exact ⟨hchain x hx, hi⟩
  · rw [update_of_ne hj] at hx
    exact h j x hx

/-! ## Entering all entries into new buckets -/

/-- The entries are put in front of their buckets, one after the other. -/
def rehash (slot : ε → Nat) (es : List ε) (array : Nat → List ε) : Nat → List ε :=
  es.foldl (fun array e => update array (slot e) (e :: array (slot e))) array

theorem rehash_placed : ∀ (es : List ε) {array : Nat → List ε}, Placed slot array n →
    (∀ e ∈ es, slot e < n) → Placed slot (rehash slot es array) n
  | [], _, h, _ => h
  | e :: es, array, h, hes => by
    have he := hes e List.mem_cons_self
    refine rehash_placed es (h.update he fun x hx => ?_) fun x hx =>
      hes x (List.mem_cons_of_mem e hx)
    rcases List.mem_cons.1 hx with rfl | hx
    · rfl
    · exact (h _ x hx).1

theorem rehash_gather : ∀ (es : List ε) {array : Nat → List ε}, (∀ e ∈ es, slot e < n) →
    (gather (rehash slot es array) n).Perm (es ++ gather array n)
  | [], _, _ => List.Perm.refl _
  | e :: es, array, hes => by
    have hrest := @rehash_gather es (update array (slot e) (e :: array (slot e)))
      fun x hx => hes x (List.mem_cons_of_mem e hx)
    have hfirst := gather_update_cons (hes e List.mem_cons_self)
      (List.Perm.refl (e :: array (slot e)))
    exact hrest.trans ((hfirst.append_left es).trans List.perm_middle)

theorem gather_empty (n : Nat) : gather (fun _ => ([] : List ε)) n = [] := by
  simp [gather]

end Buckets
