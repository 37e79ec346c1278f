import Mathlib

/-! # Reachable states

The states a system reaches from its initial states by steps that meet a condition, and the
induction over its runs.
-/

namespace Reachable

variable {σ α : Type}

/-- The states reached by runs all of whose steps are `ok` in the state they are taken in. -/
inductive By (init : σ → Prop) (ok : σ → α → Prop) (step : σ → α → σ → Prop) : σ → Prop
  | init {s : σ} : init s → By init ok step s
  | step {s s' : σ} {a : α} : By init ok step s → ok s a → step s a s' → By init ok step s'

variable {init : σ → Prop} {ok : σ → α → Prop} {step : σ → α → σ → Prop}

theorem By.invariant (inv : σ → Prop) (hinit : ∀ s, init s → inv s)
    (hstep : ∀ s a s', inv s → ok s a → step s a s' → inv s') {s : σ} (h : By init ok step s) :
    inv s := by
  induction h with
  | init hs => exact hinit _ hs
  | step _ hok hs ih => exact hstep _ _ _ ih hok hs

theorem By.mono {ok' : σ → α → Prop} (hmono : ∀ s a, ok s a → ok' s a) {s : σ}
    (h : By init ok step s) : By init ok' step s := by
  induction h with
  | init hs => exact .init hs
  | step _ hok hs ih => exact .step ih (hmono _ _ hok) hs

/-- The state behind a list of steps. -/
def exec (next : σ → α → Option σ) : List α → σ → Option σ
  | [], s => some s
  | a :: as, s => (next s a).bind (exec next as)

/-- The steps that are `ok`. -/
def guarded (ok : σ → α → Prop) [∀ s, DecidablePred (ok s)] (next : σ → α → Option σ) (s : σ)
    (a : α) : Option σ :=
  if ok s a then next s a else none

theorem guarded_some {ok : σ → α → Prop} [∀ s, DecidablePred (ok s)] {next : σ → α → Option σ}
    {s s' : σ} {a : α} (h : guarded ok next s a = some s') : ok s a ∧ next s a = some s' := by
  unfold guarded at h
  split at h
  · rename_i hok
    exact ⟨hok, h⟩
  · cases h

theorem By.exec {next : σ → α → Option σ}
    (hnext : ∀ s a s', next s a = some s' → ok s a ∧ step s a s') :
    ∀ (as : List α) {s s' : σ}, By init ok step s → Reachable.exec next as s = some s' →
      By init ok step s'
  | [], _, _, h, hexec => Option.some.inj hexec ▸ h
  | a :: as, s, s', h, hexec => by
    obtain ⟨s₁, hs₁, hrest⟩ := Option.bind_eq_some_iff.mp hexec
    obtain ⟨hok, hstep⟩ := hnext s a s₁ hs₁
    exact By.exec hnext as (h.step hok hstep) hrest

end Reachable
