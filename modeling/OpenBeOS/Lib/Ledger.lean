import Mathlib

/-! # Ledgers

What a program holds: it acquires resources and releases them, and it is recorded if one is released
that is not held. `Holds` says what is held, in any order.
-/

structure Ledger (ρ : Type) where
  live : List ρ
  twice : Bool

namespace Ledger

variable {ρ : Type} [DecidableEq ρ] {l : Ledger ρ} {r : ρ} {rs rs' : List ρ}

def acquire (l : Ledger ρ) (r : ρ) : Ledger ρ := { l with live := r :: l.live }

def release (l : Ledger ρ) (r : ρ) : Ledger ρ where
  live := l.live.erase r
  twice := l.twice || decide (r ∉ l.live)

/-- Just the resources `rs` are held, and none was released that was not. -/
structure Holds (l : Ledger ρ) (rs : List ρ) : Prop where
  live : l.live.Perm rs
  once : l.twice = false

omit [DecidableEq ρ] in
theorem Holds.perm (h : l.Holds rs) (hperm : rs.Perm rs') : l.Holds rs' :=
  ⟨h.live.trans hperm, h.once⟩

omit [DecidableEq ρ] in
theorem Holds.acquire (h : l.Holds rs) (r : ρ) : (l.acquire r).Holds (r :: rs) :=
  ⟨h.live.cons r, h.once⟩

theorem Holds.release (h : l.Holds (r :: rs)) : (l.release r).Holds rs := by
  have hheld : r ∈ l.live := h.live.mem_iff.mpr List.mem_cons_self
  constructor
  · have herase := h.live.erase r
    rwa [List.erase_cons_head] at herase
  · have hnot : decide (r ∉ l.live) = false := decide_eq_false (not_not_intro hheld)
    show (l.twice || decide (r ∉ l.live)) = false
    rw [h.once, hnot]
    rfl

end Ledger
