import Mathlib

/-! # Reference counts

Things that are freed when the last reference to them is given back. `Exact` says that the counts
are the numbers of references, and that what has none left has been freed, once.
-/

namespace RefCount

open Function List

variable {α : Type}

/-- The count of each thing, and how often it has been freed. -/
structure Counts (α : Type) where
  count : α → Int
  freed : α → Nat

namespace Counts

variable [DecidableEq α]

/-- A new thing, with one reference. -/
def make (c : Counts α) (x : α) : Counts α := ⟨update c.count x 1, update c.freed x 0⟩

def acquire (c : Counts α) (x : α) : Counts α :=
  { c with count := update c.count x (c.count x + 1) }

/-- The thing is freed by the release that finds a count of one. -/
def release (c : Counts α) (x : α) : Counts α where
  count := update c.count x (c.count x - 1)
  freed := if c.count x = 1 then update c.freed x (c.freed x + 1) else c.freed

def acquireAll (c : Counts α) (xs : List α) : Counts α := xs.foldl acquire c

def releaseAll (c : Counts α) (xs : List α) : Counts α := xs.foldl release c

end Counts

/-- The counts of the things made are their references, and no other thing has any. -/
structure Exact (c : Counts α) (made : α → Prop) (refs : α → Nat) : Prop where
  count : ∀ x, made x → c.count x = refs x
  freed : ∀ x, made x → c.freed x = if refs x = 0 then 1 else 0
  made : ∀ x, ¬ made x → refs x = 0

variable {c : Counts α} {made : α → Prop} {refs refs' : α → Nat} {x : α}

theorem Exact.congr (h : Exact c made refs) (hrefs : ∀ x, refs' x = refs x) :
    Exact c made refs' := by
  have hsame : refs' = refs := funext hrefs
  exact hsame ▸ h

theorem Exact.made_of_pos (h : Exact c made refs) (hx : 0 < refs x) : made x := by
  by_contra hnot
  rw [h.made x hnot] at hx
  exact Nat.lt_irrefl 0 hx

variable [DecidableEq α]

theorem Exact.make (h : Exact c made refs) (hx : ¬ made x) :
    Exact (c.make x) (fun y => made y ∨ y = x) fun y => refs y + [x].count y := by
  have hnone := h.made x hx
  have hself : refs x + [x].count x = 1 := by rw [hnone, count_singleton_self]
  have hother : ∀ y, y ≠ x → refs y + [x].count y = refs y := fun y hy => by
    rw [count_singleton, if_neg (by simpa using Ne.symm hy), Nat.add_zero]
  refine ⟨fun y hy => ?_, fun y hy => ?_, fun y hy => ?_⟩
  · show update c.count x 1 y = _
    by_cases hyx : y = x
    · rw [hyx, update_self, hself]
      rfl
    · rw [update_of_ne hyx, hother y hyx]
      exact h.count y (hy.resolve_right hyx)
  · show update c.freed x 0 y = _
    by_cases hyx : y = x
    · rw [hyx, update_self, hself]
      rfl
    · rw [update_of_ne hyx, hother y hyx]
      exact h.freed y (hy.resolve_right hyx)
  · rw [hother y fun hyx => hy (Or.inr hyx)]
    exact h.made y fun hmade => hy (Or.inl hmade)

theorem Exact.acquire (h : Exact c made refs) (hx : 0 < refs x) :
    Exact (c.acquire x) made (update refs x (refs x + 1)) := by
  refine ⟨fun y hy => ?_, fun y hy => ?_, fun y hy => ?_⟩
  · show update c.count x (c.count x + 1) y = _
    by_cases hyx : y = x
    · rw [hyx, update_self, update_self, h.count x (hyx ▸ hy)]
      rfl
    · rw [update_of_ne hyx, update_of_ne hyx]
      exact h.count y hy
  · show c.freed y = _
    rw [h.freed y hy]
    by_cases hyx : y = x
    · rw [hyx, update_self, if_neg (Nat.ne_of_gt hx), if_neg (Nat.succ_ne_zero _)]
    · rw [update_of_ne hyx]
  · have hyx : y ≠ x := by
      rintro rfl
      exact hy (h.made_of_pos hx)
    rw [update_of_ne hyx]
    exact h.made y hy

theorem Exact.release (h : Exact c made refs) (hx : 0 < refs x) :
    Exact (c.release x) made (update refs x (refs x - 1)) := by
  have hmade := h.made_of_pos hx
  have hcount := h.count x hmade
  refine ⟨fun y hy => ?_, fun y hy => ?_, fun y hy => ?_⟩
  · show update c.count x (c.count x - 1) y = _
    by_cases hyx : y = x
    · rw [hyx, update_self, update_self]
      omega
    · rw [update_of_ne hyx, update_of_ne hyx]
      exact h.count y hy
  · show (if c.count x = 1 then update c.freed x (c.freed x + 1) else c.freed) y = _
    have hfreed := h.freed y hy
    by_cases hyx : y = x
    · rw [hyx] at hfreed ⊢
      rw [update_self]
      rw [if_neg (Nat.ne_of_gt hx)] at hfreed
      split
      · rw [update_self, hfreed, if_pos (by omega)]
      · rw [hfreed, if_neg (by omega)]
    · rw [update_of_ne hyx, ← hfreed]
      split
      · exact update_of_ne hyx ..
      · rfl
  · have hyx : y ≠ x := by
      rintro rfl
      exact hy hmade
    rw [update_of_ne hyx]
    exact h.made y hy

theorem Exact.acquireAll : ∀ (xs : List α) {c : Counts α} {refs : α → Nat}, Exact c made refs →
    (∀ x ∈ xs, 0 < refs x) → Exact (c.acquireAll xs) made fun x => refs x + xs.count x
  | [], _, _, h, _ => h.congr fun _ => rfl
  | x :: xs, c, refs, h, hxs => by
    have hx := hxs x (mem_cons_self ..)
    have ih := Exact.acquireAll xs (h.acquire hx) fun y hy => ?_
    · refine ih.congr fun y => ?_
      by_cases hyx : y = x
      · rw [hyx, update_self, count_cons_self]
        omega
      · rw [update_of_ne hyx, count_cons_of_ne (Ne.symm hyx)]
    · by_cases hyx : y = x
      · rw [hyx, update_self]
        exact Nat.succ_pos _
      · rw [update_of_ne hyx]
        exact hxs y (mem_cons_of_mem _ hy)

theorem Exact.releaseAll : ∀ (xs : List α) {c : Counts α} {refs : α → Nat}, Exact c made refs →
    (∀ x, xs.count x ≤ refs x) → Exact (c.releaseAll xs) made fun x => refs x - xs.count x
  | [], _, _, h, _ => h.congr fun _ => rfl
  | x :: xs, c, refs, h, hxs => by
    have hx := hxs x
    rw [count_cons_self] at hx
    have ih := Exact.releaseAll xs (h.release (Nat.lt_of_lt_of_le (Nat.succ_pos _) hx)) fun y => ?_
    · refine ih.congr fun y => ?_
      by_cases hyx : y = x
      · rw [hyx, update_self, count_cons_self]
        omega
      · rw [update_of_ne hyx, count_cons_of_ne (Ne.symm hyx)]
    · by_cases hyx : y = x
      · rw [hyx, update_self]
        omega
      · rw [update_of_ne hyx]
        have hy := hxs y
        rwa [count_cons_of_ne (Ne.symm hyx)] at hy

/-! ## References by their holders -/

variable {β : Type} {g : β → Nat}

theorem sum_map_set {b : β} : ∀ {xs : List β} {i : Nat}, xs[i]? = some b → ∀ b' : β,
    ((xs.set i b').map g).sum + g b = (xs.map g).sum + g b'
  | [], _, h, _ => absurd h nofun
  | x :: xs, 0, h, b' => by
    cases h
    rw [set_cons_zero, map_cons, map_cons, sum_cons, sum_cons]
    omega
  | x :: xs, i + 1, h, b' => by
    have ih : ((xs.set i b').map g).sum + g b = (xs.map g).sum + g b' :=
      sum_map_set (show xs[i]? = some b from h) b'
    rw [set_cons_succ, map_cons, map_cons, sum_cons, sum_cons]
    omega

theorem sum_map_append_singleton (xs : List β) (b : β) :
    ((xs ++ [b]).map g).sum = (xs.map g).sum + g b := by
  rw [map_append, sum_append, map_singleton, sum_singleton]

theorem le_sum_map_of_mem {b : β} {xs : List β} (hb : b ∈ xs) : g b ≤ (xs.map g).sum :=
  single_le_sum (fun _ _ => Nat.zero_le _) _ (mem_map_of_mem hb)

end RefCount
