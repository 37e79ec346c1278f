import OpenBeOS.Kernel.Types

/-! # The caches of pages

The page lists of the caches and the hash table of `vm_cache.c`. A `vm_cache_ref` and its cache are
given by one number. `Coherent` says that lists and hash table agree, `OnePerOffset` that a cache
has no two pages at one offset.
-/

namespace Kernel

open Function

/-- An offset in a cache. -/
abbrev off_t := BitVec 64

/-- A `vm_page`: a physical page, by its index in `all_pages`, or the dummy page on the stack of a
thread. -/
inductive vm_page where
  | physical (page : Nat)
  | dummy (thread : Nat)
  deriving DecidableEq

/-- The pages of a cache, the first of its list in front. -/
structure VmCaches where
  page_list : Nat → List vm_page
  cache_ref : vm_page → Option Nat
  offset : vm_page → off_t
  page_cache_table : List vm_page

namespace VmCaches

/-- `page_compare_func`. -/
def compares (s : VmCaches) (cache_ref : Nat) (offset : off_t) (page : vm_page) : Bool :=
  s.cache_ref page = some cache_ref && s.offset page = offset

/-- The page inserted last is found first. -/
def vm_cache_lookup_page (s : VmCaches) (cache_ref : Nat) (offset : off_t) : Option vm_page :=
  s.page_cache_table.find? (s.compares cache_ref offset)

def vm_cache_insert_page (s : VmCaches) (cache_ref : Nat) (page : vm_page) (offset : off_t) :
    VmCaches where
  page_list := update s.page_list cache_ref (page :: s.page_list cache_ref)
  cache_ref := update s.cache_ref page (some cache_ref)
  offset := update s.offset page offset
  page_cache_table := page :: s.page_cache_table

def vm_cache_remove_page (s : VmCaches) (cache_ref : Nat) (page : vm_page) : VmCaches where
  page_list := update s.page_list cache_ref ((s.page_list cache_ref).erase page)
  cache_ref := update s.cache_ref page none
  offset := s.offset
  page_cache_table := s.page_cache_table.erase page

/-! ## Lists and hash table -/

/-- Each page of a list is in the hash table under its cache, and each page of the hash table is in
the list of its cache. -/
structure Coherent (s : VmCaches) : Prop where
  mem_page_list : ∀ c page,
    page ∈ s.page_list c ↔ page ∈ s.page_cache_table ∧ s.cache_ref page = some c
  cached : ∀ page ∈ s.page_cache_table, (s.cache_ref page).isSome
  nodup : s.page_cache_table.Nodup
  list_nodup : ∀ c, (s.page_list c).Nodup

/-- A cache holds at most one page per offset. -/
def OnePerOffset (s : VmCaches) : Prop :=
  ∀ c, ∀ page ∈ s.page_list c, ∀ page' ∈ s.page_list c, s.offset page = s.offset page' →
    page = page'

variable {s : VmCaches} {c : Nat} {page : vm_page} {offset : off_t}

theorem Coherent.insert (h : s.Coherent) (hout : page ∉ s.page_cache_table) (c : Nat)
    (offset : off_t) : (s.vm_cache_insert_page c page offset).Coherent := by
  have hlist : ∀ c', page ∉ s.page_list c' := fun c' hin => hout ((h.mem_page_list c' page).mp hin).1
  refine ⟨?_, ?_, List.nodup_cons.mpr ⟨hout, h.nodup⟩, ?_⟩
  · intro c' page'
    by_cases hpage : page' = page
    · subst hpage
      simp only [vm_cache_insert_page, update_self, List.mem_cons_self, true_and, Option.some.injEq]
      by_cases hc : c' = c
      · simp [hc]
      · rw [update_of_ne hc]
        exact iff_of_false (hlist c') (Ne.symm hc)
    · simp only [vm_cache_insert_page, update_of_ne hpage, List.mem_cons, hpage, false_or,
        ← h.mem_page_list c' page']
      by_cases hc : c' = c
      · simp [hc, hpage]
      · rw [update_of_ne hc]
  · intro page' hpage'
    by_cases hpage : page' = page
    · simp [vm_cache_insert_page, hpage]
    · simp only [vm_cache_insert_page, update_of_ne hpage]
      exact h.cached page' ((List.mem_cons.mp hpage').resolve_left hpage)
  · intro c'
    by_cases hc : c' = c
    · subst hc
      simp only [vm_cache_insert_page, update_self]
      exact List.nodup_cons.mpr ⟨hlist c', h.list_nodup c'⟩
    · simp only [vm_cache_insert_page, update_of_ne hc]
      exact h.list_nodup c'

theorem Coherent.remove (h : s.Coherent) (hin : page ∈ s.page_list c) :
    (s.vm_cache_remove_page c page).Coherent := by
  have hc := ((h.mem_page_list c page).mp hin).2
  refine ⟨?_, ?_, h.nodup.erase page, ?_⟩
  · intro c' page'
    simp only [vm_cache_remove_page, h.nodup.mem_erase_iff]
    by_cases hpage : page' = page
    · subst hpage
      refine iff_of_false (fun hmem => ?_) fun hmem => hmem.1.1 rfl
      by_cases hc' : c' = c
      · subst hc'
        rw [update_self] at hmem
        exact (h.list_nodup c').not_mem_erase hmem
      · rw [update_of_ne hc'] at hmem
        exact hc' (Option.some.inj (((h.mem_page_list c' page').mp hmem).2.symm.trans hc))
    · simp only [update_of_ne hpage, ne_eq, hpage, not_false_eq_true, true_and,
        ← h.mem_page_list c' page']
      by_cases hc' : c' = c
      · subst hc'
        rw [update_self, List.mem_erase_of_ne hpage]
      · rw [update_of_ne hc']
  · intro page' hpage'
    obtain ⟨hne, hmem⟩ := (h.nodup.mem_erase_iff).mp hpage'
    simp only [vm_cache_remove_page, update_of_ne hne]
    exact h.cached page' hmem
  · intro c'
    by_cases hc' : c' = c
    · subst hc'
      simp only [vm_cache_remove_page, update_self]
      exact (h.list_nodup c').erase page
    · simp only [vm_cache_remove_page, update_of_ne hc']
      exact h.list_nodup c'

/-! ## Looking up a page -/

theorem Coherent.lookup_some (h : s.Coherent) (hlookup : s.vm_cache_lookup_page c offset = some page) :
    page ∈ s.page_list c ∧ s.offset page = offset := by
  have hmem := List.mem_of_find?_eq_some hlookup
  have hcompares := List.find?_some hlookup
  simp only [compares, Bool.and_eq_true, decide_eq_true_eq] at hcompares
  exact ⟨(h.mem_page_list c page).mpr ⟨hmem, hcompares.1⟩, hcompares.2⟩

theorem Coherent.lookup_none (h : s.Coherent) :
    s.vm_cache_lookup_page c offset = none ↔ ∀ page ∈ s.page_list c, s.offset page ≠ offset := by
  simp only [vm_cache_lookup_page, List.find?_eq_none, compares, h.mem_page_list]
  constructor
  · rintro hnone page ⟨hmem, hc⟩ rfl
    simpa [hc] using hnone page hmem
  · intro hnone page hmem hcompares
    simp only [Bool.and_eq_true, decide_eq_true_eq] at hcompares
    exact hnone page ⟨hmem, hcompares.1⟩ hcompares.2

theorem lookup_insert_of_ne {c c' : Nat} (hc : c' ≠ c) (hout : page ∉ s.page_cache_table)
    (offset offset' : off_t) :
    (s.vm_cache_insert_page c page offset).vm_cache_lookup_page c' offset' =
      s.vm_cache_lookup_page c' offset' := by
  have hnew : (s.vm_cache_insert_page c page offset).compares c' offset' page = false := by
    simp [compares, vm_cache_insert_page, Ne.symm hc]
  rw [vm_cache_lookup_page, show (s.vm_cache_insert_page c page offset).page_cache_table =
    page :: s.page_cache_table from rfl, List.find?_cons, hnew]
  show _ = s.page_cache_table.find? _
  rw [← List.head?_filter, ← List.head?_filter]
  refine congrArg List.head? (List.filter_congr fun page' hpage' => ?_)
  have hne : page' ≠ page := by
    rintro rfl
    exact hout hpage'
  simp only [compares, vm_cache_insert_page, update_of_ne hne]

/-! ## One page per offset -/

theorem OnePerOffset.insert (h : s.OnePerOffset) (hcoherent : s.Coherent)
    (hout : page ∉ s.page_cache_table) (hnone : ∀ page' ∈ s.page_list c, s.offset page' ≠ offset) :
    (s.vm_cache_insert_page c page offset).OnePerOffset := by
  have hlist : ∀ c' page', page' ∈ s.page_list c' → page' ≠ page := by
    rintro c' page' hin rfl
    exact hout ((hcoherent.mem_page_list c' page').mp hin).1
  intro c' page₁ h₁ page₂ h₂ heq
  by_cases hc : c' = c
  · subst hc
    simp only [vm_cache_insert_page, update_self, List.mem_cons] at h₁ h₂ heq
    rcases h₁ with rfl | h₁
    · rcases h₂ with rfl | h₂
      · rfl
      · rw [update_self, update_of_ne (hlist c' page₂ h₂)] at heq
        exact absurd heq.symm (hnone page₂ h₂)
    · rcases h₂ with rfl | h₂
      · rw [update_self, update_of_ne (hlist c' page₁ h₁)] at heq
        exact absurd heq (hnone page₁ h₁)
      · rw [update_of_ne (hlist c' page₁ h₁), update_of_ne (hlist c' page₂ h₂)]
          at heq
        exact h c' page₁ h₁ page₂ h₂ heq
  · simp only [vm_cache_insert_page, update_of_ne hc] at h₁ h₂ heq
    rw [update_of_ne (hlist c' page₁ h₁), update_of_ne (hlist c' page₂ h₂)] at heq
    exact h c' page₁ h₁ page₂ h₂ heq

theorem OnePerOffset.remove (h : s.OnePerOffset) (c : Nat) (page : vm_page) :
    (s.vm_cache_remove_page c page).OnePerOffset := by
  have hsub : ∀ c' page', page' ∈ (s.vm_cache_remove_page c page).page_list c' →
      page' ∈ s.page_list c' := by
    intro c' page' hin
    by_cases hc : c' = c
    · subst hc
      simp only [vm_cache_remove_page, update_self] at hin
      exact List.mem_of_mem_erase hin
    · simpa only [vm_cache_remove_page, update_of_ne hc] using hin
  exact fun c' page₁ h₁ page₂ h₂ heq => h c' page₁ (hsub _ _ h₁) page₂ (hsub _ _ h₂) heq

theorem OnePerOffset.vacated (h : s.OnePerOffset) (hcoherent : s.Coherent)
    (hin : page ∈ s.page_list c) :
    ∀ page' ∈ (s.vm_cache_remove_page c page).page_list c,
      (s.vm_cache_remove_page c page).offset page' ≠ s.offset page := by
  intro page' hin' heq
  simp only [vm_cache_remove_page, update_self] at hin'
  obtain ⟨hne, hmem⟩ := ((hcoherent.list_nodup c).mem_erase_iff).mp hin'
  exact hne (h c page' hmem page hin heq)

end VmCaches

end Kernel
