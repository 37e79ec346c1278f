import Mathlib

/-! # Binary search

A binary search over the positions `first, …, last - 1` that asks `probe` for the sign of the
comparison with each position, and stops when a probe fails. `search_spec` says what it finds
when the answers are split at a position `p`: positive below it, not positive from it on, and
negative behind it.
-/

namespace Bisect

/-- The outcome of a search: a failed probe, the position of a match, or the position at which
the sought value would have to be inserted. -/
inductive Outcome where
  | failed
  | found (i : Nat)
  | absent (i : Nat)
  deriving DecidableEq

/-- The search between `first` and `last` (exclusive); `save` is the best position so far. -/
def search (probe : Nat → Option Int) : Nat → Nat → Nat → Nat → Outcome
  | 0, _, _, save => .absent save
  | fuel + 1, first, last, save =>
    if first < last then
      match probe ((first + last - 1) / 2) with
      | none => .failed
      | some cmp =>
        if cmp < 0 then
          search probe fuel first ((first + last - 1) / 2) ((first + last - 1) / 2)
        else if cmp > 0 then
          search probe fuel ((first + last - 1) / 2 + 1) last ((first + last - 1) / 2 + 1)
        else .found ((first + last - 1) / 2)
    else .absent save

/-- The answers below `n` are split at `p`. -/
structure SplitAt (probe : Nat → Option Int) (n p : Nat) : Prop where
  le : p ≤ n
  below : ∀ i, i < p → ∃ cmp, probe i = some cmp ∧ 0 < cmp
  behind : ∀ i, p < i → i < n → ∃ cmp, probe i = some cmp ∧ cmp < 0
  at_split : p < n → ∃ cmp, probe p = some cmp ∧ cmp ≤ 0

/-- The outcome for answers split at `p`. -/
def outcomeAt (probe : Nat → Option Int) (n p : Nat) : Outcome :=
  if p < n ∧ probe p = some 0 then .found p else .absent p

variable {probe : Nat → Option Int}

theorem search_spec {n p : Nat} (h : SplitAt probe n p) :
    ∀ fuel first last save : Nat, first ≤ p → p ≤ last → last ≤ n → last - first ≤ fuel →
      (save = first ∨ save = last) → (p = last → last < n → probe p ≠ some 0) →
      search probe fuel first last save = outcomeAt probe n p := by
  -- when the interval is empty, it has closed in on `p`
  have hclosed : ∀ first last save : Nat, first ≤ p → p ≤ last → ¬first < last →
      (save = first ∨ save = last) → (p = last → last < n → probe p ≠ some 0) →
      Outcome.absent save = outcomeAt probe n p := by
    intro first last save hfirst hlast hempty hsave hne
    have hp : p = last := by omega
    rw [outcomeAt, if_neg fun hmatch => hne hp (by omega) hmatch.2]
    congr 1
    omega
  intro fuel
  induction fuel with
  | zero =>
    intro first last save hfirst hlast hn hfuel hsave hne
    exact hclosed first last save hfirst hlast (by omega) hsave hne
  | succ fuel ih =>
    intro first last save hfirst hlast hn hfuel hsave hne
    rw [search]
    by_cases hlt : first < last
    · rw [if_pos hlt]
      generalize hi : (first + last - 1) / 2 = i
      have hbounds : first ≤ i ∧ i < last := by omega
      rcases Nat.lt_trichotomy i p with hip | rfl | hpi
      · -- the position lies below the split
        obtain ⟨cmp, hprobe, hcmp⟩ := h.below i hip
        rw [hprobe]
        simp only
        rw [if_neg (by omega), if_pos hcmp]
        exact ih _ _ _ (by omega) hlast hn (by omega) (.inl rfl) hne
      · obtain ⟨cmp, hprobe, hcmp⟩ := h.at_split (by omega)
        rw [hprobe]
        simp only
        by_cases hzero : cmp = 0
        · rw [if_neg (by omega), if_neg (by omega), outcomeAt,
            if_pos ⟨by omega, by rw [hprobe, hzero]⟩]
        · rw [if_pos (by omega)]
          refine ih _ _ _ hfirst (Nat.le_refl _) (by omega) (by omega) (.inr rfl) fun _ _ => ?_
          rw [hprobe]
          exact fun heq => hzero (Option.some.inj heq)
      · -- the position lies behind the split
        obtain ⟨cmp, hprobe, hcmp⟩ := h.behind i hpi (by omega)
        rw [hprobe]
        simp only
        rw [if_pos hcmp]
        exact ih _ _ _ hfirst (by omega) (by omega) (by omega) (.inr rfl)
          fun heq => absurd heq (by omega)
    · rw [if_neg hlt]
      exact hclosed first last save hfirst hlast hlt hsave hne

theorem search_all {n p : Nat} (h : SplitAt probe n p) :
    search probe n 0 n 0 = outcomeAt probe n p :=
  search_spec h n 0 n 0 (Nat.zero_le p) h.le (Nat.le_refl n) (by omega) (.inl rfl)
    fun _ hlt => absurd hlt (Nat.lt_irrefl n)

theorem search_congr {probe probe' : Nat → Option Int} :
    ∀ fuel first last save : Nat, (∀ i, i < last → probe i = probe' i) →
      search probe fuel first last save = search probe' fuel first last save := by
  intro fuel
  induction fuel with
  | zero =>
    intro first last save _
    rfl
  | succ fuel ih =>
    intro first last save heq
    rw [search, search]
    by_cases hlt : first < last
    · rw [if_pos hlt, if_pos hlt, heq _ (by omega)]
      cases probe' ((first + last - 1) / 2) with
      | none => rfl
      | some cmp =>
        simp only
        rw [ih first _ _ fun i hi => heq i (by omega), ih _ last _ heq]
    · rw [if_neg hlt, if_neg hlt]

end Bisect
