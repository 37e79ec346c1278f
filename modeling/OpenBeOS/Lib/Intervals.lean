import Mathlib

/-! # Sorted lists of disjoint intervals

The elements of a list occupy the intervals `[lo x, hi x)`. `Sorted` says that they lie one behind
the other, `Clear` that an interval meets none of them, and `NoRoom` that none of the gaps between
them holds an interval of a given size.
-/

namespace Intervals

open List

variable {α : Type} (lo hi : α → Nat)

/-- No element is empty, and each one ends before those behind it start. -/
def Sorted (xs : List α) : Prop := (∀ x ∈ xs, lo x < hi x) ∧ xs.Pairwise (fun x y => hi x ≤ lo y)

/-- `[g, g + n)` meets no element. -/
def Clear (xs : List α) (g n : Nat) : Prop := ∀ x ∈ xs, g + n ≤ lo x ∨ hi x ≤ g

/-- Neither between `start` and the first element, nor behind an element, nor between the last one
and `top` are there `n` places. -/
def NoRoom (n top : Nat) : Nat → List α → Prop
  | start, [] => top < start + n
  | start, x :: xs => lo x < start + n ∧ NoRoom n top (hi x) xs

variable {lo hi}

theorem Sorted.tail {x : α} {xs : List α} (h : Sorted lo hi (x :: xs)) : Sorted lo hi xs :=
  ⟨fun y hy => h.1 y (mem_cons_of_mem _ hy), (pairwise_cons.mp h.2).2⟩

variable {xs ys : List α}

theorem Sorted.append_right (h : Sorted lo hi (xs ++ ys)) : Sorted lo hi ys :=
  ⟨fun y hy => h.1 y (mem_append_right _ hy), (pairwise_append.mp h.2).2.1⟩

theorem Sorted.before (h : Sorted lo hi (xs ++ ys)) {x y : α} (hx : x ∈ xs)
    (hy : y ∈ ys) : hi x ≤ lo y :=
  (pairwise_append.mp h.2).2.2 x hx y hy

theorem Clear.append {g n : Nat} :
    Clear lo hi (xs ++ ys) g n ↔ Clear lo hi xs g n ∧ Clear lo hi ys g n := by
  simp only [Clear, mem_append, or_imp, forall_and]

theorem NoRoom.not_clear {n top g : Nat} :
    ∀ {start : Nat} {xs : List α}, NoRoom lo hi n top start xs → start ≤ g → g + n ≤ top →
      ¬ Clear lo hi xs g n
  | start, [], h, hg, htop, _ => by
    have hlt : top < start + n := h
    omega
  | start, x :: xs, h, hg, htop, hclear => by
    obtain ⟨hx, hxs⟩ := h
    rcases hclear x (mem_cons_self ..) with hbefore | hbehind
    · omega
    · exact hxs.not_clear hbehind htop fun y hy => hclear y (mem_cons_of_mem _ hy)

theorem Sorted.insert {z : α} (h : Sorted lo hi (xs ++ ys)) (hz : lo z < hi z)
    (hxs : ∀ x ∈ xs, hi x ≤ lo z) (hys : ∀ y ∈ ys, hi z ≤ lo y) : Sorted lo hi (xs ++ z :: ys) := by
  obtain ⟨hsize, hpair⟩ := h
  obtain ⟨hpx, hpy, hpxy⟩ := pairwise_append.mp hpair
  constructor
  · intro x hx
    simp only [mem_append, mem_cons] at hx hsize
    rcases hx with hx | rfl | hx
    · exact hsize x (Or.inl hx)
    · exact hz
    · exact hsize x (Or.inr hx)
  · rw [pairwise_append]
    refine ⟨hpx, pairwise_cons.mpr ⟨hys, hpy⟩, ?_⟩
    intro x hx y hy
    rcases mem_cons.mp hy with rfl | hy
    · exact hxs x hx
    · exact hpxy x hx y hy

theorem Sorted.last_before {x : α} (h : Sorted lo hi (xs ++ [x] ++ ys)) {y : α}
    (hy : y ∈ xs ++ [x]) : hi y ≤ hi x := by
  rcases mem_append.mp hy with hy | hy
  · have hsorted : Sorted lo hi (xs ++ ([x] ++ ys)) := by simpa using h
    have hlo := hsorted.before hy (mem_append_left _ (mem_singleton_self x))
    have hx := h.1 x (by simp)
    omega
  · exact Nat.le_of_eq (congrArg hi (mem_singleton.mp hy))

theorem Sorted.sublist (h : Sorted lo hi ys) (hsub : xs.Sublist ys) : Sorted lo hi xs :=
  ⟨fun x hx => h.1 x (hsub.subset hx), h.2.sublist hsub⟩

end Intervals
