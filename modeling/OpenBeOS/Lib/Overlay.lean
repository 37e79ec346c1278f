import Mathlib

/-! # Writing over a part of a list

`overlay xs i ys` is `xs` with `ys` written over it from `i` on; what is behind the end is not
written. A write over two lists in a row is a write over each.
-/

namespace Overlay

open List

variable {α : Type}

section

variable (xs : List α) (i : Nat)

def overlay (ys : List α) : List α :=
  xs.take i ++ ys.take (xs.length - i) ++ xs.drop (i + ys.length)

@[simp] theorem length_overlay (ys : List α) :
    (overlay xs i ys).length = xs.length := by
  simp only [overlay, length_append, length_take, length_drop]
  omega

@[simp] theorem overlay_nil : overlay xs i [] = xs := by
  rw [overlay, take_nil, append_nil, length_nil, Nat.add_zero, take_append_drop]

/-- The cell `j` behind a write. -/
theorem getElem?_overlay (ys : List α) (j : Nat) : (overlay xs i ys)[j]? =
      if j < i then xs[j]? else if j < i + ys.length ∧ j < xs.length then ys[j - i]? else xs[j]? := by
  unfold overlay
  by_cases hlen : i ≤ xs.length
  · by_cases hj : j < i
    · rw [if_pos hj, append_assoc, List.getElem?_append_left (by simp; omega),
        List.getElem?_take_of_lt hj]
    · rw [if_neg hj, append_assoc, List.getElem?_append_right (by simp; omega),
        length_take, Nat.min_eq_left hlen]
      by_cases hin : j < i + ys.length ∧ j < xs.length
      · rw [if_pos hin, List.getElem?_append_left (by simp; omega),
          List.getElem?_take_of_lt (by omega)]
      · rw [if_neg hin]
        by_cases hout : j < xs.length
        · have hys : i + ys.length ≤ j := by omega
          rw [List.getElem?_append_right (by simp; omega), List.getElem?_drop, length_take,
            Nat.min_eq_right (by omega)]
          congr 1
          omega
        · rw [List.getElem?_eq_none (by simp; omega), List.getElem?_eq_none (by omega)]
  · rw [Nat.sub_eq_zero_of_le (by omega), take_zero, append_nil,
      take_of_length_le (by omega), drop_eq_nil_of_le (by omega), append_nil]
    split
    · rfl
    · rw [if_neg (by omega)]

end

/-- A write in front of the end of the first list goes on in the second. -/
theorem overlay_append (xs ys : List α) {i : Nat} (hi : i ≤ xs.length) (zs : List α) :
    overlay (xs ++ ys) i zs =
      overlay xs i (zs.take (xs.length - i)) ++ overlay ys 0 (zs.drop (xs.length - i)) := by
  refine ext_getElem? fun j => ?_
  by_cases hj : j < xs.length
  · rw [List.getElem?_append_left (by simpa using hj), getElem?_overlay, getElem?_overlay,
      List.getElem?_append_left hj]
    by_cases hlow : j < i
    · rw [if_pos hlow, if_pos hlow]
    · rw [if_neg hlow, if_neg hlow, List.getElem?_take_of_lt (by omega)]
      simp only [length_append, length_take]
      congr 1
      rw [eq_iff_iff]
      omega
  · rw [List.getElem?_append_right (by simp; omega), getElem?_overlay, getElem?_overlay,
      List.getElem?_append_right (by omega), if_neg (by omega), if_neg (Nat.not_lt_zero _),
      length_overlay, List.getElem?_drop]
    simp only [length_append, length_drop]
    have hsub : xs.length - i + (j - xs.length - 0) = j - i := by omega
    rw [hsub]
    congr 1
    rw [eq_iff_iff]
    omega

theorem overlay_append_left (xs ys : List α) {i : Nat} {zs : List α}
    (h : i + zs.length ≤ xs.length) : overlay (xs ++ ys) i zs = overlay xs i zs ++ ys := by
  rw [overlay_append _ _ (by omega), take_of_length_le (by omega),
    drop_eq_nil_of_le (by omega), overlay_nil]

theorem overlay_append_right (xs ys : List α) (i : Nat) (zs : List α) :
    overlay (xs ++ ys) (xs.length + i) zs = xs ++ overlay ys i zs := by
  unfold overlay
  rw [take_length_add_append, length_append, Nat.add_assoc,
    drop_length_add_append, Nat.add_sub_add_left, append_assoc, append_assoc,
    append_assoc]

theorem overlay_overlay (xs : List α) (i : Nat) (ys zs : List α) :
    overlay (overlay xs i ys) (i + ys.length) zs = overlay xs i (ys ++ zs) := by
  refine ext_getElem? fun j => ?_
  rw [getElem?_overlay, getElem?_overlay, getElem?_overlay, length_overlay, length_append]
  by_cases hlow : j < i
  · rw [if_pos (by omega), if_pos hlow, if_pos hlow]
  · rw [if_neg hlow, if_neg hlow]
    by_cases hfirst : j < i + ys.length
    · rw [if_pos hfirst, List.getElem?_append_left (by omega)]
      by_cases hin : j < xs.length
      · rw [if_pos ⟨hfirst, hin⟩, if_pos ⟨by omega, hin⟩]
      · rw [if_neg (by omega), if_neg (by omega)]
    · rw [if_neg hfirst, List.getElem?_append_right (by omega), Nat.sub_sub]
      by_cases hin : j < i + ys.length + zs.length ∧ j < xs.length
      · rw [if_pos hin, if_pos ⟨by omega, hin.2⟩]
      · rw [if_neg hin, if_neg (by omega), if_neg (by omega)]

theorem overlay_all {xs ys : List α} (h : ys.length = xs.length) : overlay xs 0 ys = ys := by
  rw [overlay, take_zero, nil_append, Nat.sub_zero, Nat.zero_add,
    take_of_length_le (Nat.le_of_eq h), drop_eq_nil_of_le (Nat.le_of_eq h.symm),
    append_nil]

theorem window_overlay (xs : List α) {start len : Nat} (i : Nat) (ys : List α)
    (hwindow : start + len ≤ xs.length) :
    ((overlay xs (start + i) ys).drop start).take len =
      overlay ((xs.drop start).take len) i ys := by
  refine ext_getElem? fun j => ?_
  by_cases hj : j < len
  · rw [List.getElem?_take_of_lt hj, List.getElem?_drop, getElem?_overlay, getElem?_overlay,
      List.getElem?_take_of_lt hj, List.getElem?_drop]
    simp only [length_take, length_drop]
    by_cases hlow : j < i
    · rw [if_pos (by omega), if_pos hlow]
    · rw [if_neg (by omega), if_neg hlow]
      by_cases hin : j < i + ys.length
      · rw [if_pos (by omega), if_pos (by omega)]
        congr 1
        omega
      · rw [if_neg (by omega), if_neg (by omega)]
  · rw [List.getElem?_eq_none (by simp; omega), List.getElem?_eq_none (by simp; omega)]

end Overlay
