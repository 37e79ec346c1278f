import Mathlib

/-! # Trees given by their parent pointers

A node reaches the root if following the parents leads to it. Giving a node `m` another parent
keeps that for all nodes, if the walk from the new parent upwards does not meet `m`.
-/

namespace ParentTree

open Function

variable {α : Type}

/-- It takes `n` parents to get to the root for the first time. -/
inductive ReachesIn (parent : α → α) (root : α) : Nat → α → Prop
  | root : ReachesIn parent root 0 root
  | step {n : Nat} {d : α} : d ≠ root → ReachesIn parent root n (parent d) →
      ReachesIn parent root (n + 1) d

def Reaches (parent : α → α) (root d : α) : Prop := ∃ n, ReachesIn parent root n d

/-- The walk upwards from a node arrives at one that stops it, and meets no `m` until then. -/
inductive Walk (parent : α → α) (m : α) (stop : α → Prop) : α → Prop
  | stop {x : α} : x ≠ m → stop x → Walk parent m stop x
  | next {x : α} : x ≠ m → Walk parent m stop (parent x) → Walk parent m stop x

variable {parent : α → α} {root : α}

theorem reaches_root : Reaches parent root root := ⟨0, .root⟩

theorem ReachesIn.unique {n k : Nat} {d : α} (h : ReachesIn parent root n d) :
    ReachesIn parent root k d → n = k := by
  induction h generalizing k with
  | root =>
    intro h'
    cases h' with
    | root => rfl
    | step hne _ => exact absurd rfl hne
  | step hne _ ih =>
    intro h'
    cases h' with
    | root => exact absurd rfl hne
    | step _ hrest => rw [ih hrest]

theorem Reaches.of_parent {d : α} (h : Reaches parent root (parent d)) : Reaches parent root d := by
  by_cases hd : d = root
  · rw [hd]
    exact reaches_root
  · obtain ⟨n, h⟩ := h
    exact ⟨n + 1, .step hd h⟩

theorem Walk.reaches {m x : α} {stop : α → Prop} (h : Walk parent m stop x)
    {parent' : α → α} (hsame : ∀ y, y ≠ m → parent' y = parent y)
    (hstop : ∀ y, stop y → Reaches parent' root y) : Reaches parent' root x := by
  induction h with
  | stop _ hx => exact hstop _ hx
  | next hne _ ih =>
    rw [← hsame _ hne] at ih
    exact ih.of_parent

section Move

variable [DecidableEq α] {m dir : α}

theorem ReachesIn.move {n : Nat} {d : α} (h : ReachesIn parent root n d)
    (hm : ∀ k, ReachesIn parent root k m → n < k) :
    ReachesIn (update parent m dir) root n d := by
  induction h with
  | root => exact .root
  | @step n d hne hrest ih =>
    have hd : d ≠ m := by
      intro heq
      rw [heq] at hne hrest
      exact Nat.lt_irrefl _ (hm _ (.step hne hrest))
    refine .step hne ?_
    rw [update_of_ne hd]
    exact ih fun k hk => Nat.lt_of_succ_lt (hm k hk)

theorem Reaches.move_parent (h : Reaches parent root m) (hm : m ≠ root) :
    Reaches (update parent m dir) root (parent m) := by
  obtain ⟨n, h⟩ := h
  cases h with
  | root => exact absurd rfl hm
  | @step n _ hne hrest =>
    refine ⟨n, hrest.move fun k hk => ?_⟩
    have := (ReachesIn.step hne hrest).unique hk
    omega

/-- **Moving a node**: if its new parent reaches the root then, all nodes do. -/
theorem Reaches.move {d : α} (h : Reaches parent root d)
    (hdir : Reaches (update parent m dir) root dir) :
    Reaches (update parent m dir) root d := by
  obtain ⟨n, h⟩ := h
  induction h with
  | root => exact reaches_root
  | @step n d hne _ ih =>
    refine .of_parent ?_
    by_cases hd : d = m
    · rw [hd, update_self]
      exact hdir
    · rw [update_of_ne hd]
      exact ih

theorem not_reaches_self (hm : m ≠ root) : ¬ Reaches (update parent m m) root m := by
  rintro ⟨n, h⟩
  induction n with
  | zero => cases h; exact hm rfl
  | succ n ih =>
    cases h with
    | step _ hrest =>
      rw [update_self] at hrest
      exact ih hrest

end Move

end ParentTree
