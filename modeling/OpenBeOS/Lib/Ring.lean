import OpenBeOS.Lib.Chain

/-! # Rings

Circular lists that are linked both ways. Both directions are chains that lead back to where they
start: forwards from the head, and backwards from the last node.
-/

namespace Chain

open List

variable {α : Type}

/-- A circular list, linked both ways, from its head. -/
structure Ring (next prev : α → Option α) (head : Option α) (xs : List α) : Prop where
  head : head = xs.head?
  next : Leads next xs.head? xs xs.head?
  prev : Leads prev xs.getLast? xs.reverse xs.getLast?
  nodup : xs.Nodup

theorem Ring.nil (next prev : α → Option α) : Ring next prev none [] := ⟨rfl, rfl, rfl, nodup_nil⟩

variable {next prev next' prev' : α → Option α} {head : Option α} {xs : List α} {h x last : α}

theorem Ring.prev_head (r : Ring next prev (some h) xs) : prev h = xs.getLast? := by
  obtain ⟨ys, rfl⟩ : ∃ ys, xs = h :: ys := by
    cases xs with
    | nil => exact absurd r.head nofun
    | cons a ys => exact ⟨ys, by rw [Option.some.inj r.head]⟩
  have hprev := r.prev
  rw [reverse_cons] at hprev
  exact (leads_snoc.1 hprev).2

/-- A new node behind the last one of a ring. -/
theorem Ring.push (r : Ring next prev (some h) xs) (hlast : prev h = some last) (hx : x ∉ xs)
    (hnext : next' last = some x) (hnextx : next' x = some h)
    (hnextSame : ∀ y ∈ xs, y ≠ last → next' y = next y)
    (hprev : prev' h = some x) (hprevx : prev' x = some last)
    (hprevSame : ∀ y ∈ xs, y ≠ h → prev' y = prev y) :
    Ring next' prev' (some h) (xs ++ [x]) := by
  have hgetLast := r.prev_head.symm.trans hlast
  obtain ⟨ys, rfl⟩ : ∃ ys, xs = h :: ys := by
    cases xs with
    | nil => exact absurd r.head nofun
    | cons a ys => exact ⟨ys, by rw [Option.some.inj r.head]⟩
  refine ⟨rfl, ?_, ?_, ?_⟩
  · -- the pointer of the last node leads to the new one now
    obtain ⟨init, hinit⟩ : ∃ init, h :: ys = init ++ [last] := by
      have hne : h :: ys ≠ [] := cons_ne_nil h ys
      refine ⟨(h :: ys).dropLast, ?_⟩
      have hsame : (h :: ys).getLast hne = last := by
        rw [List.getLast?_eq_getLast_of_ne_nil hne] at hgetLast
        exact Option.some.inj hgetLast
      rw [← hsame, dropLast_append_getLast]
    have hleads := r.next
    have hnodup := r.nodup
    show Leads next' (some h) (h :: ys ++ [x]) (some h)
    change Leads next (some h) (h :: ys) (some h) at hleads
    rw [hinit] at hleads hnodup hnextSame ⊢
    rw [append_assoc]
    have hinitSame : ∀ y ∈ init, next' y = next y := fun y hy =>
      hnextSame y (mem_append_left _ hy) fun heq =>
        (nodup_append.1 hnodup).2.2 y hy last (mem_singleton_self last) heq
    refine leads_append_cons.2 ⟨(leads_snoc.1 hleads).1.congr hinitSame, hnext, hnextx⟩
  · rw [List.getLast?_concat, reverse_append]
    have hleads := r.prev
    have hnodup := nodup_cons.1 r.nodup
    rw [hgetLast, reverse_cons] at hleads
    refine ⟨rfl, ?_⟩
    rw [hprevx, reverse_cons]
    refine leads_snoc.2 ⟨(leads_snoc.1 hleads).1.congr fun y hy => ?_, hprev⟩
    have hy' : y ∈ ys := mem_reverse.1 hy
    exact hprevSame y (mem_cons_of_mem h hy') fun heq => hnodup.1 (heq ▸ hy')
  · exact nodup_append.2 ⟨r.nodup, nodup_singleton x, fun y hy z hz heq =>
      hx (mem_singleton.1 hz ▸ heq ▸ hy)⟩

theorem Ring.single (hnext : next x = some x) (hprev : prev x = some x) :
    Ring next prev (some x) [x] :=
  ⟨rfl, ⟨rfl, hnext⟩, ⟨rfl, hprev⟩, nodup_singleton x⟩

theorem Ring.congr (r : Ring next prev head xs) (hnext : ∀ y ∈ xs, next' y = next y)
    (hprev : ∀ y ∈ xs, prev' y = prev y) : Ring next' prev' head xs :=
  ⟨r.head, r.next.congr hnext, r.prev.congr fun y hy => hprev y (mem_reverse.1 hy), r.nodup⟩

end Chain
