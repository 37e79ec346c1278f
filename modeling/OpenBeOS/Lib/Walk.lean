import Mathlib

/-! # Loops that follow links

A loop that in every round either leaves with a result or goes on in a next state. `Returns` says
that it comes to an end. When only finitely many states can come next, it does exactly when the
states it passes are all different (`returns_iff_not_cycles`). `Endless` is the rule for the other
direction, and `Tracks` carries the answer over to a loop that keeps more in its state.
-/

namespace Walk

open Relation

variable {σ τ ρ ρ' : Type}

/-- The result of the loop, if it leaves within the given number of rounds. -/
def run (step : σ → ρ ⊕ σ) : Nat → σ → Option ρ
  | 0, _ => none
  | n + 1, s =>
    match step s with
    | .inl r => some r
    | .inr s' => run step n s'

/-- The loop comes to an end. -/
def Returns (step : σ → ρ ⊕ σ) (s : σ) : Prop := ∃ n r, run step n s = some r

/-- The loop goes on from one state in the other. -/
def Next (step : σ → ρ ⊕ σ) (s s' : σ) : Prop := step s = .inr s'

/-- The loop comes to a state that it comes to again. -/
def Cycles (step : σ → ρ ⊕ σ) (s : σ) : Prop :=
  ∃ t, ReflTransGen (Next step) s t ∧ TransGen (Next step) t t

section Steps

variable {step : σ → ρ ⊕ σ} {s s' t : σ}

theorem Returns.of_inl {r : ρ} (h : step s = .inl r) : Returns step s := ⟨1, r, by rw [run, h]⟩

theorem run_succ_next (h : Next step s s') (n : Nat) : run step (n + 1) s = run step n s' := by
  rw [run, h]

theorem returns_next_iff (h : Next step s s') : Returns step s ↔ Returns step s' := by
  constructor
  · rintro ⟨n, r, hr⟩
    cases n with
    | zero => cases hr
    | succ n => exact ⟨n, r, by rwa [run_succ_next h] at hr⟩
  · rintro ⟨n, r, hr⟩
    exact ⟨n + 1, r, by rwa [run_succ_next h]⟩

theorem returns_reach_iff (h : ReflTransGen (Next step) s t) : Returns step s ↔ Returns step t := by
  induction h with
  | refl => rfl
  | tail _ hnext ih => rw [ih, returns_next_iff hnext]

theorem run_lt {n : Nat} {r : ρ} (h : TransGen (Next step) s t) (hr : run step n s = some r) :
    ∃ m, m < n ∧ run step m t = some r := by
  induction h with
  | single hnext =>
    cases n with
    | zero => cases hr
    | succ n => exact ⟨n, Nat.lt_succ_self n, by rwa [run_succ_next hnext] at hr⟩
  | tail _ hnext ih =>
    obtain ⟨m, hm, hrun⟩ := ih
    cases m with
    | zero => cases hrun
    | succ m => exact ⟨m, by omega, by rwa [run_succ_next hnext] at hrun⟩

theorem not_returns_of_cycle (h : TransGen (Next step) t t) : ¬Returns step t := by
  rintro ⟨n, r, hr⟩
  -- the number of rounds could be made less and less
  induction n using Nat.strong_induction_on with
  | _ n ih =>
    obtain ⟨m, hm, hrun⟩ := run_lt h hr
    exact ih m hm hrun

theorem Cycles.not_returns (h : Cycles step s) : ¬Returns step s := by
  obtain ⟨t, hreach, hcycle⟩ := h
  rw [returns_reach_iff hreach]
  exact not_returns_of_cycle hcycle

/-- **A loop through finitely many states comes to an end exactly when it comes to none of them
twice.** -/
theorem returns_iff_not_cycles {states : Set σ} (hfin : states.Finite)
    (hnext : ∀ s s', Next step s s' → s' ∈ states) (s : σ) :
    Returns step s ↔ ¬Cycles step s := by
  refine ⟨fun h hcycles => hcycles.not_returns h, fun hno => ?_⟩
  -- the states reached are finitely many, and going on is well-founded on them
  have hreached : {t | ReflTransGen (Next step) s t}.Finite := by
    refine (hfin.insert s).subset fun t ht => ?_
    obtain rfl | ⟨u, -, hu⟩ := ReflTransGen.cases_tail_iff _ _ _ |>.1 ht
    · exact Set.mem_insert _ _
    · exact Set.mem_insert_of_mem _ (hnext u t hu)
  have : Finite {t // ReflTransGen (Next step) s t} := hreached.to_subtype
  let later (u v : {t // ReflTransGen (Next step) s t}) : Prop := TransGen (Next step) v.1 u.1
  have : IsTrans _ later := ⟨fun _ _ _ huv hvw => hvw.trans huv⟩
  have : Std.Irrefl later := ⟨fun u hu => hno ⟨u.1, u.2, hu⟩⟩
  have hwf : WellFounded later := Finite.wellFounded_of_trans_of_irrefl later
  have hall : ∀ u : {t // ReflTransGen (Next step) s t}, Returns step u.1 := by
    intro u
    induction u using hwf.induction with
    | _ u ih =>
      cases hstep : step u.1 with
      | inl r => exact .of_inl hstep
      | inr v =>
        rw [returns_next_iff hstep]
        exact ih ⟨v, u.2.tail hstep⟩ (.single hstep)
  exact hall ⟨s, .refl⟩

theorem not_returns_of_endless {Kind : σ → Prop}
    (h : ∀ s, Kind s → ∃ s', Next step s s' ∧ Kind s') (hs : Kind s) : ¬Returns step s := by
  rintro ⟨n, r, hr⟩
  induction n generalizing s with
  | zero => cases hr
  | succ n ih =>
    obtain ⟨s', hnext, hkind⟩ := h s hs
    exact ih hkind (by rwa [run_succ_next hnext] at hr)

end Steps

/-- The second loop goes the same way as the first, which keeps more in its state. -/
def Tracks (proj : σ → τ) (step : σ → ρ ⊕ σ) (step' : τ → ρ' ⊕ τ) : Prop :=
  ∀ s, match step s with
    | .inl _ => ∃ r', step' (proj s) = .inl r'
    | .inr s' => step' (proj s) = .inr (proj s')

theorem Tracks.returns_iff {proj : σ → τ} {step : σ → ρ ⊕ σ} {step' : τ → ρ' ⊕ τ}
    (h : Tracks proj step step') (s : σ) : Returns step s ↔ Returns step' (proj s) := by
  constructor
  · rintro ⟨n, r, hr⟩
    induction n generalizing s with
    | zero => cases hr
    | succ n ih =>
      have hs := h s
      cases hstep : step s with
      | inl r₁ =>
        rw [hstep] at hs
        obtain ⟨r', hr'⟩ := hs
        exact .of_inl hr'
      | inr s' =>
        rw [hstep] at hs
        rw [run_succ_next hstep] at hr
        exact (returns_next_iff hs).2 (ih s' hr)
  · rintro ⟨n, r, hr⟩
    induction n generalizing s with
    | zero => cases hr
    | succ n ih =>
      have hs := h s
      cases hstep : step s with
      | inl r₁ => exact .of_inl hstep
      | inr s' =>
        rw [hstep] at hs
        rw [run_succ_next hs] at hr
        exact (returns_next_iff hstep).2 (ih s' hr)

end Walk
