import Mathlib

/-! # Regions that follow each other on a ring

Positions are the numbers below `size`, and a region is the positions from its start on, around
the end. `Chain` says that each region of a list starts where the one before ends, and `Stores` that
the cells from a position on hold the values of a list.
-/

namespace Circular

open Nat

variable {α : Type} {size : Nat} {start len : α → Nat}

/-- Where the first region starts, or `stop` if there is none. -/
def first (start : α → Nat) : List α → Nat → Nat
  | [], stop => stop
  | x :: _, _ => start x

/-- Each region starts where the one before ends, and the last one ends at `stop`. -/
def Chain (size : Nat) (start len : α → Nat) : List α → Nat → Prop
  | [], _ => True
  | x :: xs, stop =>
    start x < size ∧ (start x + len x) % size = first start xs stop ∧ Chain size start len xs stop

theorem mod_ne_of_lt {a b : Nat} (h : a < b) (h' : b < a + size) : a % size ≠ b % size := by
  intro heq
  have hdvd : size ∣ b - a := (modEq_iff_dvd' (le_of_lt h)).mp heq
  have := le_of_dvd (by omega) hdvd
  omega

theorem first_append_cons (xs : List α) (x : α) (ys : List α) (stop : Nat) :
    first start (xs ++ x :: ys) stop = first start xs (start x) := by
  cases xs <;> rfl

theorem Chain.suffix {ys : List α} {stop : Nat} :
    ∀ {xs : List α}, Chain size start len (xs ++ ys) stop → Chain size start len ys stop
  | [], h => h
  | _ :: _, h => h.2.2.suffix

theorem Chain.snoc {x : α} {stop : Nat} (hx : start x < size)
    (hend : (start x + len x) % size = stop) :
    ∀ {xs : List α}, Chain size start len xs (start x) → Chain size start len (xs ++ [x]) stop
  | [], _ => ⟨hx, hend, trivial⟩
  | y :: ys, h => by
    refine ⟨h.1, ?_, Chain.snoc hx hend h.2.2⟩
    rw [h.2.1]
    cases ys <;> rfl

theorem Chain.first_lt {xs : List α} {stop : Nat} (h : Chain size start len xs stop)
    (hstop : stop < size) : first start xs stop < size := by
  cases xs with
  | nil => exact hstop
  | cons x xs => exact h.1

theorem Chain.stop_eq {stop : Nat} (hstop : stop < size) :
    ∀ {xs : List α}, Chain size start len xs stop →
      stop = (first start xs stop + (xs.map len).sum) % size
  | [], _ => (mod_eq_of_lt hstop).symm
  | x :: xs, h => by
    have ih := Chain.stop_eq hstop h.2.2
    rw [← h.2.1, mod_add_mod] at ih
    simpa [first, add_assoc] using ih

theorem Chain.start_eq {x : α} {ys : List α} {stop : Nat} :
    ∀ {xs : List α}, Chain size start len (xs ++ x :: ys) stop →
      start x = (first start (xs ++ x :: ys) stop + (xs.map len).sum) % size
  | [], h => (mod_eq_of_lt h.1).symm
  | z :: xs, h => by
    have ih := Chain.start_eq h.2.2
    have hnext : (start z + len z) % size = first start (xs ++ x :: ys) stop := h.2.1
    rw [← hnext, mod_add_mod] at ih
    simpa [first, add_assoc] using ih

theorem Chain.disjoint {xs ys zs : List α} {x y : α} {stop : Nat}
    (h : Chain size start len (xs ++ x :: (ys ++ y :: zs)) stop)
    (htotal : ((xs ++ x :: (ys ++ y :: zs)).map len).sum ≤ size) {i k : Nat} (hi : i < len x)
    (hk : k < len y) : (start x + i) % size ≠ (start y + k) % size := by
  have hx := h.start_eq
  have happ : xs ++ x :: (ys ++ y :: zs) = (xs ++ x :: ys) ++ y :: zs := by simp
  have hy : start y = (first start (xs ++ x :: (ys ++ y :: zs)) stop +
      ((xs ++ x :: ys).map len).sum) % size := by
    rw [happ] at h ⊢
    exact h.start_eq
  simp only [List.map_append, List.map_cons, List.sum_append, List.sum_cons] at hy htotal
  rw [hx, hy, mod_add_mod, mod_add_mod]
  apply mod_ne_of_lt
  · omega
  · omega

theorem Chain.pairwise_disjoint {stop : Nat} :
    ∀ {xs : List α}, Chain size start len xs stop → (xs.map len).sum ≤ size → xs.Pairwise fun x y =>
        ∀ i < len x, ∀ k < len y, (start x + i) % size ≠ (start y + k) % size
  | [], _, _ => List.Pairwise.nil
  | x :: xs, h, htotal => by
    refine List.Pairwise.cons ?_ (Chain.pairwise_disjoint h.2.2 ?_)
    · intro y hy i hi k hk
      obtain ⟨ys, zs, rfl⟩ := List.append_of_mem hy
      exact @Chain.disjoint _ _ _ _ [] _ _ _ _ _ h htotal _ _ hi hk
    · rw [List.map_cons, List.sum_cons] at htotal
      omega

/-! ## A queue in a ring of cells -/

variable {cells : Nat → α} {tail : Nat} {xs ys : List α}

/-- The cells from `tail` on hold the values. -/
def Stores (size : Nat) (cells : Nat → α) : Nat → List α → Prop
  | _, [] => True
  | tail, x :: xs => cells tail = x ∧ Stores size cells ((tail + 1) % size) xs

theorem stores_append (hsize : 0 < size) : ∀ (xs : List α) {tail : Nat}, tail < size →
    (Stores size cells tail (xs ++ ys) ↔
      Stores size cells tail xs ∧ Stores size cells ((tail + xs.length) % size) ys)
  | [], tail, htail => by
    rw [List.nil_append, List.length_nil, add_zero, mod_eq_of_lt htail]
    exact ⟨fun h => ⟨trivial, h⟩, And.right⟩
  | x :: xs, tail, _ => by
    have ih := stores_append hsize xs (mod_lt (tail + 1) hsize)
    rw [mod_add_mod, add_assoc, add_comm 1] at ih
    show cells tail = x ∧ Stores size cells ((tail + 1) % size) (xs ++ ys) ↔ _
    rw [ih, ← and_assoc]
    rfl

theorem Stores.update {j : Nat} {v : α} (hsize : 0 < size) : ∀ {xs : List α} {tail : Nat},
    tail < size → (∀ i < xs.length, (tail + i) % size ≠ j) → Stores size cells tail xs →
      Stores size (Function.update cells j v) tail xs
  | [], _, _, _, _ => trivial
  | _ :: xs, tail, htail, hj, h => by
    refine ⟨?_, Stores.update hsize (mod_lt _ hsize) (fun i hi => ?_) h.2⟩
    · have hne := hj 0 (succ_pos _)
      rw [add_zero, mod_eq_of_lt htail] at hne
      rw [Function.update_of_ne hne]
      exact h.1
    · have hne := hj (i + 1) (succ_lt_succ hi)
      rwa [mod_add_mod, add_assoc, add_comm 1]

theorem Stores.push {x : α} (htail : tail < size) (hroom : xs.length < size)
    (h : Stores size cells tail xs) :
    Stores size (Function.update cells ((tail + xs.length) % size) x) tail (xs ++ [x]) := by
  have hsize : 0 < size := by omega
  refine (stores_append hsize xs htail).mpr ⟨h.update hsize htail fun i hi => ?_, ?_, trivial⟩
  · exact mod_ne_of_lt (by omega) (by omega)
  · exact Function.update_self ..

theorem Stores.pop {x v : α} (htail : tail < size) (hroom : (x :: xs).length ≤ size)
    (h : Stores size cells tail (x :: xs)) :
    Stores size (Function.update cells tail v) ((tail + 1) % size) xs := by
  have hsize : 0 < size := by omega
  have hlength : xs.length < size := hroom
  refine Stores.update hsize (mod_lt _ hsize) (fun i hi => ?_) h.2
  have hne : tail % size ≠ (tail + 1 + i) % size := mod_ne_of_lt (by omega) (by omega)
  rw [mod_add_mod]
  rwa [mod_eq_of_lt htail, ne_comm] at hne

end Circular
