import Mathlib

/-! # Pieces of a whole

Pieces lie one behind the other from a place on, without a gap. Some of them, in their order, which
also have no gap from that place on and include the last piece, are all of them.
-/

namespace Pieces

open List

variable {α : Type} (off len : α → Int)

/-- Each piece begins where the one before it ends, the first at `n`. -/
def Consecutive : Int → List α → Prop
  | _, [] => True
  | n, p :: ps => off p = n ∧ Consecutive (n + len p) ps

variable {off len} {n : Int} {ps qs : List α} {x : α}

theorem consecutive_congr {off' len' : α → Int}
    (h : ∀ p ∈ ps, off p = off' p ∧ len p = len' p) :
    Consecutive off len n ps ↔ Consecutive off' len' n ps := by
  induction ps generalizing n with
  | nil => exact Iff.rfl
  | cons p ps ih =>
    obtain ⟨hoff, hlen⟩ := h p (mem_cons_self ..)
    rw [Consecutive, Consecutive, hoff, hlen, ih fun q hq => h q (mem_cons_of_mem _ hq)]

section

variable (h : Consecutive off len n ps) (hpos : ∀ p ∈ ps, 0 < len p)
include h hpos

theorem Consecutive.le_off :
    ∀ p ∈ ps, n ≤ off p := by
  induction ps generalizing n with
  | nil =>
    intro p hp
    cases hp
  | cons q ps ih =>
    intro p hp
    rcases mem_cons.mp hp with rfl | hp
    · exact le_of_eq h.1.symm
    · have hq := hpos q (mem_cons_self ..)
      have := ih h.2 (fun r hr => hpos r (mem_cons_of_mem _ hr)) p hp
      omega

theorem Consecutive.pairwise :
    ps.Pairwise fun p q => off p + len p ≤ off q := by
  induction ps generalizing n with
  | nil => exact .nil
  | cons p ps ih =>
    have hpos' : ∀ q ∈ ps, 0 < len q := fun q hq => hpos q (mem_cons_of_mem _ hq)
    refine pairwise_cons.mpr ⟨?_, ih h.2 hpos'⟩
    intro q hq
    rw [h.1]
    exact h.2.le_off hpos' q hq

theorem Consecutive.sorted :
    ps.Pairwise fun p q => off p < off q := by
  refine (h.pairwise hpos).imp_of_mem ?_
  intro p q hp _ hle
  have := hpos p hp
  omega

end

variable {p q : α}

theorem Consecutive.eq_or_apart (h : Consecutive off len n ps) (hpos : ∀ p ∈ ps, 0 < len p)
    (hp : p ∈ ps) (hq : q ∈ ps) : p = q ∨ off p + len p ≤ off q ∨ off q + len q ≤ off p := by
  have hsymm : Std.Symm fun p q => off p + len p ≤ off q ∨ off q + len q ≤ off p :=
    ⟨fun _ _ => Or.symm⟩
  have hpair : ps.Pairwise fun p q => off p + len p ≤ off q ∨ off q + len q ≤ off p :=
    (h.pairwise hpos).imp Or.inl
  exact or_iff_not_imp_left.mpr (hpair.forall hp hq)

theorem Consecutive.apart (h : Consecutive off len n ps) (hpos : ∀ p ∈ ps, 0 < len p)
    (hp : p ∈ ps) (hq : q ∈ ps) (hlt : off p < off q) : off p + len p ≤ off q := by
  have hq' := hpos q hq
  rcases h.eq_or_apart hpos hp hq with rfl | hle | hle <;> omega

theorem Consecutive.eq_of_off (h : Consecutive off len n ps) (hpos : ∀ p ∈ ps, 0 < len p)
    (hp : p ∈ ps) (hq : q ∈ ps) (heq : off p = off q) : p = q := by
  have hp' := hpos p hp
  have hq' := hpos q hq
  exact (h.eq_or_apart hpos hp hq).resolve_right (by omega)

theorem sublist_of_sorted (hqs : qs.Pairwise fun p q => off p < off q)
    (hps : ps.Pairwise fun p q => off p < off q) (hsub : qs ⊆ ps) : qs.Sublist ps := by
  have hanti : Std.Antisymm fun p q : α => off p < off q :=
    ⟨fun _ _ h h' => absurd (lt_trans h h') (lt_irrefl _)⟩
  have hnodup : qs.Nodup := hqs.imp fun hlt heq => absurd (heq ▸ hlt) (lt_irrefl _)
  exact sublist_of_subperm_of_pairwise (subperm_of_subset hnodup hsub) hqs hps

theorem eq_of_sorted (hqs : qs.Pairwise fun p q => off p < off q)
    (hps : ps.Pairwise fun p q => off p < off q) (hsub : qs ⊆ ps) (hsup : ps ⊆ qs) : qs = ps :=
  (sublist_of_sorted hqs hps hsub).antisymm (sublist_of_sorted hps hqs hsup)

/-- Some of the pieces without a gap, up to the last one. -/
theorem Consecutive.eq_of_sublist (h : Consecutive off len n ps) (hpos : ∀ p ∈ ps, 0 < len p)
    (hqs : Consecutive off len n qs) (hsub : qs.Sublist ps)
    (hlast : ∀ p, ps.getLast? = some p → p ∈ qs) : qs = ps := by
  induction ps generalizing n qs with
  | nil => exact sublist_nil.mp hsub
  | cons p ps ih =>
    have hpos' : ∀ q ∈ ps, 0 < len q := fun q hq => hpos q (mem_cons_of_mem _ hq)
    have hp := hpos p (mem_cons_self ..)
    cases hsub with
    | cons _ hsub =>
      -- the first piece is left out: then the others do not begin at `n`
      cases qs with
      | nil =>
        have hq := List.getLast?_eq_some_getLast (cons_ne_nil p ps)
        exact absurd (hlast _ hq) not_mem_nil
      | cons q qs =>
        have hmem : q ∈ ps := hsub.subset (mem_cons_self ..)
        have := h.2.le_off hpos' q hmem
        have := hqs.1
        omega
    | cons_cons _ hsub =>
      rename_i qs
      refine congrArg _ (ih h.2 hpos' hqs.2 hsub ?_)
      intro q hq
      have hmem : q ∈ ps := mem_of_getLast? hq
      have hcons : (p :: ps).getLast? = some q := by
        cases ps with
        | nil => cases hmem
        | cons r ps => rw [List.getLast?_cons_cons, hq]
      rcases mem_cons.mp (hlast q hcons) with rfl | hq'
      · have := h.2.le_off hpos' q hmem
        have := h.1
        omega
      · exact hq'

/-! ## A new piece in its place -/

variable (off)

/-- `x` behind all that do not begin after it. -/
def place (x : α) (qs : List α) : List α :=
  (qs.takeWhile fun q => decide (off q ≤ off x)) ++
    x :: qs.dropWhile fun q => decide (off q ≤ off x)

variable {off}

open List in
theorem place_perm (x : α) (qs : List α) : place off x qs ~ x :: qs := by
  have h := takeWhile_append_dropWhile (p := fun q => decide (off q ≤ off x)) (l := qs)
  calc place off x qs
      ~ x :: ((qs.takeWhile fun q => decide (off q ≤ off x)) ++
          qs.dropWhile fun q => decide (off q ≤ off x)) := perm_middle
    _ = x :: qs := by rw [h]

theorem off_le_of_mem_takeWhile {q : α}
    (h : q ∈ qs.takeWhile fun q => decide (off q ≤ off x)) : off q ≤ off x := by
  simpa using mem_takeWhile_imp h

theorem off_lt_of_mem_dropWhile (hsorted : qs.Pairwise fun p q => off p ≤ off q) {q : α}
    (h : q ∈ qs.dropWhile fun q => decide (off q ≤ off x)) : off x < off q := by
  induction qs with
  | nil => cases h
  | cons r qs ih =>
    have hr := pairwise_cons.mp hsorted
    by_cases hle : off r ≤ off x
    · rw [dropWhile_cons_of_pos (by simpa using hle)] at h
      exact ih hr.2 h
    · rw [dropWhile_cons_of_neg (by simpa using hle)] at h
      rcases mem_cons.mp h with rfl | h
      · omega
      · have := hr.1 q h
        omega

theorem place_sorted (x : α) (hsorted : qs.Pairwise fun p q => off p ≤ off q) :
    (place off x qs).Pairwise fun p q => off p ≤ off q := by
  have hbefore : ∀ q ∈ qs.takeWhile fun q => decide (off q ≤ off x), off q ≤ off x :=
    fun _ => off_le_of_mem_takeWhile
  have hbehind : ∀ q ∈ qs.dropWhile fun q => decide (off q ≤ off x), off x < off q :=
    fun _ => off_lt_of_mem_dropWhile hsorted
  refine pairwise_append.mpr ⟨?_, ?_, ?_⟩
  · exact hsorted.sublist (takeWhile_sublist _)
  · refine pairwise_cons.mpr ⟨?_, hsorted.sublist (dropWhile_sublist _)⟩
    intro q hq
    exact le_of_lt (hbehind q hq)
  · intro p hp q hq
    have hle := hbefore p hp
    rcases mem_cons.mp hq with rfl | hq
    · exact hle
    · have := hbehind q hq
      omega

theorem off_le_getLast? (hsorted : qs.Pairwise fun p q => off p ≤ off q) (hp : p ∈ qs)
    (hq : qs.getLast? = some q) : off p ≤ off q := by
  induction qs with
  | nil => cases hp
  | cons r qs ih =>
    have hr := pairwise_cons.mp hsorted
    cases qs with
    | nil =>
      obtain rfl := mem_singleton.mp hp
      cases hq
      exact le_refl _
    | cons s qs =>
      rw [List.getLast?_cons_cons] at hq
      rcases mem_cons.mp hp with rfl | hp'
      · exact hr.1 q (mem_of_getLast? hq)
      · exact ih hr.2 hp' hq

/-! ## Collecting all of them, again and again -/

section Collect

variable [DecidableEq α]

/-- What has been collected in the end, with `got` to begin with, and what was the last to come
each time when all of `ps` had been collected. -/
def collect (ps : List α) : List α → List α → List α × List α
  | got, [] => (got, [])
  | got, m :: ms =>
    if ∀ p ∈ ps, p ∈ got ++ [m] then
      ((collect ps [] ms).1, m :: (collect ps [] ms).2)
    else collect ps (got ++ [m]) ms

theorem collect_nothing {got ms : List α} (h : (collect ps got ms).2 = []) :
    (collect ps got ms).1 = got ++ ms := by
  induction ms generalizing got with
  | nil => exact (append_nil _).symm
  | cons m ms ih =>
    unfold collect at h ⊢
    split at h
    · cases h
    · next hnot =>
      rw [if_neg hnot, ih h, append_assoc]
      rfl

/-- All of them, for the first time at the very end. -/
theorem collect_once {got init : List α} {l : α} (hnot : ¬ ∀ p ∈ ps, p ∈ got ++ init)
    (hall : ∀ p ∈ ps, p ∈ got ++ (init ++ [l])) :
    collect ps got (init ++ [l]) = ([], [l]) := by
  induction init generalizing got with
  | nil =>
    show collect ps got [l] = _
    unfold collect
    rw [if_pos (by simpa using hall)]
    rfl
  | cons m init ih =>
    show collect ps got (m :: (init ++ [l])) = _
    have hm : ¬ ∀ p ∈ ps, p ∈ got ++ [m] := by
      intro h
      refine hnot fun p hp => ?_
      have := h p hp
      simp only [mem_append, mem_cons, not_mem_nil, or_false] at this ⊢
      tauto
    unfold collect
    rw [if_neg hm]
    refine ih ?_ ?_
    · simpa using hnot
    · simpa using hall

/-- **Once, and nothing left**: the last to come has not come before. -/
theorem collect_eq_iff {ms : List α} (hne : ps ≠ []) (hsub : ∀ m ∈ ms, m ∈ ps)
    (hall : ∀ p ∈ ps, p ∈ ms) {l : α} :
    collect ps [] ms = ([], [l]) ↔ ∃ init, ms = init ++ [l] ∧ l ∉ init := by
  constructor
  · intro h
    have hend : ∀ got ms : List α, collect ps got ms = ([], [l]) →
        (¬ ∀ p ∈ ps, p ∈ got) → ∃ init, ms = init ++ [l] ∧ ¬ ∀ p ∈ ps, p ∈ got ++ init := by
      intro got ms
      induction ms generalizing got with
      | nil =>
        intro h
        cases h
      | cons m ms ih =>
        intro h hnot
        unfold collect at h
        split at h
        · obtain ⟨hend, hlist⟩ := Prod.mk.inj h
          obtain ⟨rfl, hnone⟩ := List.cons.inj hlist
          rw [collect_nothing hnone, nil_append] at hend
          exact ⟨[], by rw [hend]; rfl, by simpa using hnot⟩
        · next hm =>
          obtain ⟨init, rfl, hinit⟩ := ih _ h hm
          exact ⟨m :: init, rfl, by simpa using hinit⟩
    obtain ⟨p, rest, rfl⟩ := exists_cons_of_ne_nil hne
    obtain ⟨init, rfl, hinit⟩ := hend [] ms h (fun h => absurd (h p (mem_cons_self ..)) not_mem_nil)
    refine ⟨init, rfl, fun hl => hinit fun q hq => ?_⟩
    rcases mem_append.mp (hall q hq) with hq | hq
    · exact hq
    · rw [mem_singleton.mp hq]
      exact hl
  · rintro ⟨init, rfl, hl⟩
    refine collect_once (fun h => hl ?_) hall
    exact h l (hsub l (by simp))

end Collect

end Pieces
