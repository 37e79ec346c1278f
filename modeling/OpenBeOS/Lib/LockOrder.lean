import Mathlib

/-! # Waiting for locks

Who waits for whom when each of several processors holds some locks and wants at most one more. If
the locks have ranks, and every one wants a lock of a higher rank than those it holds, nobody waits
for itself, not even through others.
-/

namespace LockOrder

open Relation

variable {κ ι : Type} {wants : κ → Option ι} {holds : κ → List ι} {rank : ι → Nat}

/-- `a` wants a lock that `b` holds. -/
def Waits (wants : κ → Option ι) (holds : κ → List ι) (a b : κ) : Prop :=
  ∃ lock, wants a = some lock ∧ lock ∈ holds b

/-- The lock wanted is above the locks held. -/
def Ordered (rank : ι → Nat) (want : Option ι) (held : List ι) : Prop :=
  ∀ lock, want = some lock → ∀ lock' ∈ held, rank lock' < rank lock

theorem rank_lt_of_transGen (h : ∀ a, Ordered rank (wants a) (holds a)) {a b : κ}
    (hwaits : TransGen (Waits wants holds) a b) :
    ∃ lock, wants a = some lock ∧ ∀ lock', wants b = some lock' → rank lock < rank lock' := by
  induction hwaits with
  | single hab =>
    obtain ⟨lock, hwants, hholds⟩ := hab
    exact ⟨lock, hwants, fun lock' hwants' => h _ lock' hwants' lock hholds⟩
  | tail _ hbc ih =>
    obtain ⟨lock, hwants, hbelow⟩ := ih
    obtain ⟨lock₁, hwants₁, hholds₁⟩ := hbc
    refine ⟨lock, hwants, fun lock' hwants' => ?_⟩
    calc rank lock < rank lock₁ := hbelow lock₁ hwants₁
      _ < rank lock' := h _ lock' hwants' lock₁ hholds₁

theorem acyclic (h : ∀ a, Ordered rank (wants a) (holds a)) (a : κ) :
    ¬ TransGen (Waits wants holds) a a := by
  intro hwaits
  obtain ⟨lock, hwants, hbelow⟩ := rank_lt_of_transGen h hwaits
  exact Nat.lt_irrefl _ (hbelow lock hwants)

end LockOrder
