import OpenBeOS.Kernel.PageAlloc

/-! # Every page is in the queue of its state

`Sound` is the invariant behind `PageSystem.InQueues`. Each entry point keeps it if its call is safe,
and so does every run of safe calls.
-/

namespace Kernel

open PageState QueueName Reachable Function List

namespace PageTable

/-! ## The invariant -/

/-- The queue a page belongs into while the scrubber holds `held`. -/
def place (t : PageTable) (held : List Nat) (page : Nat) : Option QueueName :=
  if t.SetUp page ∧ page ∉ held then some (t.state page).queue else none

structure Sound (t : PageTable) (held : List Nat) : Prop where
  filed : t.Filed (t.place held)
  held_free : ∀ p ∈ held, t.SetUp p ∧ t.state p = PAGE_STATE_FREE
  held_nodup : held.Nodup

variable {t t' : PageTable} {held : List Nat} {page : Nat}

theorem place_of (hsetUp : t.SetUp page) (hpage : page ∉ held) :
    t.place held page = some (t.state page).queue := if_pos ⟨hsetUp, hpage⟩

theorem setUp_of_place {q : QueueName} (h : t.place held page = some q) :
    t.SetUp page ∧ page ∉ held ∧ (t.state page).queue = q := by
  unfold place at h
  split at h
  · rename_i hin
    exact ⟨hin.1, hin.2, Option.some.inj h⟩
  · cases h

section

variable (h : t.Sound held)
include h

theorem Sound.refile (page_state : PageState)
    (hstate : t'.state = update t.state page page_state)
    (hnum : t'.num_pages = t.num_pages) (hsetUp : t.SetUp page) (hpage : page ∉ held)
    (hfiled : t'.Filed (update (t.place held) page (some page_state.queue))) :
    t'.Sound held := by
  have hsetUp' : ∀ p, t'.SetUp p ↔ t.SetUp p := fun p => by rw [SetUp, SetUp, hnum]
  have hplace : t'.place held = update (t.place held) page (some page_state.queue) := by
    funext p
    by_cases hp : p = page
    · subst hp
      rw [update_self, place_of ((hsetUp' p).mpr hsetUp) hpage, hstate, update_self]
    · rw [update_of_ne hp]
      rw [place, place, hstate, update_of_ne hp]
      exact if_congr (and_congr_left fun _ => hsetUp' p) rfl rfl
  refine ⟨by rwa [hplace], fun p hp => ?_, h.held_nodup⟩
  have hne : p ≠ page := by
    rintro rfl
    exact hpage hp
  rw [hsetUp', hstate, update_of_ne hne]
  exact h.held_free p hp

theorem Sound.outside (hsetUp : ¬ t.SetUp page) (page_state : PageState) :
    (t.setState page page_state).Sound held := by
  have hne : ∀ p, t.SetUp p → p ≠ page := by
    rintro p hp rfl
    exact hsetUp hp
  have hplace : (t.setState page page_state).place held = t.place held := by
    funext p
    by_cases hp : t.SetUp p
    · rw [place, place, setState_state, update_of_ne (hne p hp)]
      rfl
    · exact (if_neg fun h => hp h.1).trans (if_neg fun h => hp h.1).symm
  refine ⟨?_, fun p hp => ?_, h.held_nodup⟩
  · rw [hplace]
    exact h.filed.setState page page_state
  · have hp' := h.held_free p hp
    rw [setState_state, update_of_ne (hne p hp'.1)]
    exact hp'

/-! ## The entry points keep it -/

theorem Sound.set_state (page_state : PageState) (hsetUp : t.SetUp page)
    (hpage : page ∉ held) : (t.vm_page_set_state_nolock page page_state).Sound held := by
  refine h.refile page_state ?_ ?_ hsetUp hpage ?_
  · simp [vm_page_set_state_nolock]
  · simp [vm_page_set_state_nolock]
  · exact h.filed.set_state page_state (place_of hsetUp hpage)

theorem Sound.set_held (hpage : page ∈ held) :
    (t.vm_page_set_state_nolock page PAGE_STATE_FREE).Sound held := by
  have hfree := (h.held_free page hpage).2
  have hsame : t.vm_page_set_state_nolock page PAGE_STATE_FREE = t := by
    have hstate : update t.state page PAGE_STATE_FREE = t.state := by
      rw [← hfree, update_eq_self]
    simp only [vm_page_set_state_nolock, move_page_to_queue, hfree, ne_eq, not_true_eq_false,
      if_false, setState, hstate]
  rwa [hsame]

theorem Sound.take {q : QueueName} (hpage : t.place held page = some q) :
    (((t.remove_page_from_queue q page).setState page PAGE_STATE_BUSY).enqueue_page
      page_active_queue page).Sound held := by
  obtain ⟨hsetUp, hout, -⟩ := setUp_of_place hpage
  refine h.refile PAGE_STATE_BUSY rfl rfl hsetUp hout ?_
  have hfiled := (((h.filed.remove hpage).setState page PAGE_STATE_BUSY).enqueue
    page_active_queue (update_self ..))
  rwa [update_idem] at hfiled

theorem Sound.specific (page_state : PageState)
    (hsafe : t.available page → t.SetUp page ∧ page ∉ held) :
    (t.takeSpecific page page_state).table.Sound held := by
  unfold takeSpecific
  cases hstate : t.state page with
  | PAGE_STATE_FREE | PAGE_STATE_CLEAR =>
    obtain ⟨hsetUp, hout⟩ := hsafe (by simp [available, hstate])
    exact h.take (by rw [place_of hsetUp hout, hstate]; rfl)
  | PAGE_STATE_UNUSED =>
    by_cases hsetUp : t.SetUp page
    · have hout : page ∉ held := by
        intro hin
        rw [(h.held_free page hin).2] at hstate
        cases hstate
      have hplace : t.place held page = some page_active_queue := by
        rw [place_of hsetUp hout, hstate]
        rfl
      refine h.refile PAGE_STATE_BUSY rfl rfl hsetUp hout ?_
      rw [show PAGE_STATE_BUSY.queue = page_active_queue from rfl, ← hplace, update_eq_self]
      exact h.filed.setState page PAGE_STATE_BUSY
    · exact h.outside hsetUp PAGE_STATE_BUSY
  | _ => exact h

end

theorem takeSpecific_page {p : Nat} {page_state : PageState}
    (h : p ∈ (t.takeSpecific page page_state).page) : p = page := by
  unfold takeSpecific at h
  cases hstate : t.state page <;> rw [hstate] at h <;> first
    | exact (Option.some.inj h).symm
    | cases h

/-- The page handed out was in one of the two queues. -/
theorem Sound.allocateFrom_taken (h : t.Sound held) {page_state : PageState}
    {q q_other : QueueName} {a : Allocation} (ha : t.allocateFrom page_state q q_other = some a) :
    ∃ queue page, (queue = q ∨ queue = q_other) ∧ t.place held page = some queue ∧
      a = ⟨some page, decide (page_state = PAGE_STATE_CLEAR ∧ t.state page = PAGE_STATE_FREE),
        ((t.remove_page_from_queue queue page).setState page PAGE_STATE_BUSY).enqueue_page
          page_active_queue page⟩ := by
  unfold PageTable.allocateFrom at ha
  rcases h.filed.dequeue q with ⟨hnone, -⟩ | ⟨page, hsome, hplace⟩
  · rw [hnone] at ha
    simp only at ha
    rcases h.filed.dequeue q_other with ⟨hnone', -⟩ | ⟨page, hsome, hplace⟩
    · rw [hnone'] at ha
      cases ha
    · rw [hsome] at ha
      cases ha
      exact ⟨q_other, page, .inr rfl, hplace, rfl⟩
  · rw [hsome] at ha
    cases ha
    exact ⟨q, page, .inl rfl, hplace, rfl⟩

theorem Sound.allocateFrom (h : t.Sound held) {page_state : PageState} {q q_other : QueueName}
    {a : Allocation} (ha : t.allocateFrom page_state q q_other = some a) :
    a.table.Sound held ∧ ∀ p ∈ a.page, p ∉ held := by
  obtain ⟨queue, page, -, hplace, rfl⟩ := h.allocateFrom_taken ha
  refine ⟨h.take hplace, ?_⟩
  rintro p ⟨⟩
  exact (setUp_of_place hplace).2.1

theorem Sound.markPage (h : t.Sound held) (hsetUp : t.SetUp page) (hpage : page ∉ held) :
    (t.markPage page).Sound held := by
  unfold PageTable.markPage
  cases t.state page with
  | PAGE_STATE_FREE | PAGE_STATE_CLEAR => exact h.set_state _ hsetUp hpage
  | _ => exact h

@[simp] theorem vm_page_set_state_nolock_num_pages (t : PageTable) (page : Nat)
    (page_state : PageState) :
    (t.vm_page_set_state_nolock page page_state).num_pages = t.num_pages := by
  simp [vm_page_set_state_nolock]

@[simp] theorem markPage_num_pages (t : PageTable) (page : Nat) :
    (t.markPage page).num_pages = t.num_pages := by
  unfold PageTable.markPage
  split <;> simp

theorem Sound.loop {f : PageTable → Nat → PageTable}
    (hnum : ∀ t page, (f t page).num_pages = t.num_pages)
    (hf : ∀ (t : PageTable) (page : Nat), t.Sound held → t.SetUp page → page ∉ held →
      (f t page).Sound held) :
    ∀ (n : Nat) {t : PageTable} {page : Nat}, t.Sound held →
      page + n < t.num_pages.toNat → (∀ i < n, page + i ∉ held) →
      (forPages f t page n).Sound held
  | 0, _, _, h, _, _ => h
  | n + 1, t, page, h, hle, hout => by
    refine Sound.loop hnum hf n (hf t page h ?_ (hout 0 (Nat.succ_pos n))) ?_ ?_
    · show page + 1 < t.num_pages.toNat
      omega
    · rw [hnum]
      omega
    · intro i hi
      have := hout (i + 1) (Nat.succ_lt_succ hi)
      rwa [Nat.add_assoc, Nat.add_comm 1 i]

theorem Sound.mark (h : t.Sound held) {start_page len : addr}
    (hsafe : t.physical_page_offset ≤ start_page →
      start_page - t.physical_page_offset + len < t.num_pages →
        (start_page - t.physical_page_offset).toNat + len.toNat < 2 ^ 32 ∧
          ∀ i < len.toNat, (start_page - t.physical_page_offset).toNat + i ∉ held) :
    (t.vm_mark_page_range_inuse start_page len).2.Sound held := by
  unfold vm_mark_page_range_inuse
  split
  · exact h
  · rename_i hoffset
    split
    · exact h
    · rename_i hend
      have hend' := BitVec.not_le.mp hend
      obtain ⟨hsum, hout⟩ := hsafe (BitVec.not_lt.mp hoffset) hend'
      rw [BitVec.lt_def, BitVec.toNat_add, Nat.mod_eq_of_lt hsum] at hend'
      refine Sound.loop (fun t page => markPage_num_pages t _) ?_ len.toNat h hend' hout
      intro t' page ht' hsetUp hpage
      have hlt : page < 2 ^ 32 := by
        have := t'.num_pages.isLt
        unfold SetUp at hsetUp
        omega
      rw [Nat.mod_eq_of_lt hlt]
      exact ht'.markPage hsetUp hpage

/-! ### Runs of pages -/

theorem findRun_spec (t : PageTable) (len start : Nat) {first : Nat}
    (h : t.findRun len start = some first)
    (hbefore : ∀ start' < start, ¬ ∀ i < len, t.available (start' + i)) : t.FirstRun len first := by
  induction start using PageTable.findRun.induct t len with
  | case1 start hend =>
    rw [findRun, if_pos hend] at h
    cases h
  | case2 start hend hfind =>
    rw [findRun, if_neg hend, hfind] at h
    cases h
    refine ⟨by omega, fun i hi => ?_, hbefore⟩
    have hall := List.find?_eq_none.mp hfind i (mem_range.mpr hi)
    simpa using hall
  | case3 start hend i hfind hlast =>
    rw [findRun, if_neg hend, hfind] at h
    simp only [if_pos hlast] at h
    cases h
  | case4 start hend i hfind hlast ih =>
    rw [findRun, if_neg hend, hfind] at h
    simp only [if_neg hlast] at h
    refine ih h fun start' hlt hall => ?_
    by_cases hle : start' < start
    · exact hbefore start' hle hall
    · -- the window reaches over the page that is not available
      have hi := mem_range.mp (mem_of_find?_eq_some hfind)
      have hbad := List.find?_some hfind
      have hgood := hall (start + i - start') (by omega)
      rw [show start' + (start + i - start') = start + i by omega] at hgood
      rw [hgood] at hbad
      cases hbad

theorem Sound.run (h : t.Sound held) {len : addr}
    (hsafe : ∀ start, t.FirstRun len.toNat start → ∀ i < len.toNat, start + i ∉ held) :
    (t.vm_page_allocate_page_run len).2.Sound held ∧
      ∀ first, (t.vm_page_allocate_page_run len).1 = some first →
        ∀ p ∈ List.range' first len.toNat, p ∉ held := by
  unfold vm_page_allocate_page_run
  cases hfind : t.findRun len.toNat 0 with
  | none => exact ⟨h, nofun⟩
  | some first =>
    have hrun := findRun_spec t len.toNat 0 hfind nofun
    have hout := hsafe first hrun
    refine ⟨?_, ?_⟩
    · refine Sound.loop (fun t page => vm_page_set_state_nolock_num_pages t page _) ?_ len.toNat h
        hrun.1 hout
      exact fun t' page ht' hsetUp hpage => ht'.set_state _ hsetUp hpage
    · rintro first ⟨⟩ p hp
      obtain ⟨hle, hlt⟩ := mem_range'_1.mp hp
      have := hout (p - first) (by omega)
      rwa [show first + (p - first) = p by omega] at this

/-! ### The scrubber -/

/-- A free page is taken off its queue. -/
theorem Sound.hold (h : t.Sound held) (hpage : t.place held page = some page_free_queue) :
    (t.remove_page_from_queue page_free_queue page).Sound (page :: held) := by
  obtain ⟨hsetUp, hout, hqueue⟩ := setUp_of_place hpage
  have hfree : t.state page = PAGE_STATE_FREE := by
    cases hstate : t.state page <;> rw [hstate] at hqueue <;> first | rfl | cases hqueue
  have hplace : (t.remove_page_from_queue page_free_queue page).place (page :: held) =
      update (t.place held) page none := by
    funext p
    by_cases hp : p = page
    · rw [hp, update_self]
      exact if_neg fun h => h.2 (mem_cons_self ..)
    · rw [update_of_ne hp]
      refine if_congr (and_congr_right fun _ => ?_) rfl rfl
      rw [mem_cons, not_or]
      exact and_iff_right hp
  refine ⟨?_, ?_, nodup_cons.mpr ⟨hout, h.held_nodup⟩⟩
  · rw [hplace]
    exact h.filed.remove hpage
  · intro p hp
    rcases mem_cons.mp hp with rfl | hp
    · exact ⟨hsetUp, hfree⟩
    · exact h.held_free p hp

theorem Sound.scrubTake : ∀ (n : Nat) {t : PageTable} {held : List Nat}, t.Sound held →
      (t.scrubTake n).2.Sound ((t.scrubTake n).1.reverse ++ held)
  | 0, t, held, h => h
  | n + 1, t, held, h => by
    unfold PageTable.scrubTake
    rcases h.filed.dequeue page_free_queue with ⟨hnone, -⟩ | ⟨page, hsome, hplace⟩
    · rw [hnone]
      exact h
    · rw [hsome]
      have hrest := Sound.scrubTake n (h.hold hplace)
      simpa using hrest

/-- A page that has been cleared gets into the clear queue. -/
theorem Sound.release (h : t.Sound (page :: held)) :
    ((t.setState page PAGE_STATE_CLEAR).enqueue_page page_clear_queue page).Sound held := by
  obtain ⟨hout, hnodup⟩ := nodup_cons.mp h.held_nodup
  have hsetUp := (h.held_free page (mem_cons_self ..)).1
  have hplace : ((t.setState page PAGE_STATE_CLEAR).enqueue_page page_clear_queue page).place held =
      update (t.place (page :: held)) page (some page_clear_queue) := by
    funext p
    by_cases hp : p = page
    · subst hp
      rw [update_self]
      refine (if_pos ⟨hsetUp, hout⟩).trans ?_
      rw [enqueue_page_state, setState_state, update_self]
      rfl
    · rw [update_of_ne hp, place, place, enqueue_page_state, setState_state, update_of_ne hp]
      refine if_congr (and_congr Iff.rfl ?_) rfl rfl
      rw [mem_cons, not_or]
      exact (and_iff_right hp).symm
  refine ⟨?_, ?_, hnodup⟩
  · rw [hplace]
    refine (h.filed.setState page PAGE_STATE_CLEAR).enqueue page_clear_queue ?_
    exact if_neg fun h => h.2 (mem_cons_self ..)
  · intro p hp
    have hne : p ≠ page := by
      rintro rfl
      exact hout hp
    rw [enqueue_page_state, setState_state, update_of_ne hne]
    exact h.held_free p (mem_cons_of_mem _ hp)

theorem Sound.scrubPut :
    ∀ {pages : List Nat} {t : PageTable} {held : List Nat}, t.Sound (pages ++ held) →
      (t.scrubPut pages).Sound held
  | [], _, _, h => h
  | _ :: pages, _, _, h => @Sound.scrubPut pages _ _ h.release

theorem Sound.perm (h : t.Sound held) {held' : List Nat} (hperm : held.Perm held') :
    t.Sound held' := by
  have hplace : t.place held' = t.place held := by
    funext p
    exact if_congr (and_congr_right fun _ => not_congr hperm.mem_iff.symm) rfl rfl
  exact ⟨by rw [hplace]; exact h.filed, fun p hp => h.held_free p (hperm.mem_iff.mpr hp),
    hperm.nodup_iff.mp h.held_nodup⟩

/-! ### The first state -/

theorem init_loop : ∀ (n : Nat) {t : PageTable} {page : Nat},
      t.Filed (fun p => if p < page then some page_free_queue else none) →
      (∀ p < page, t.state p = PAGE_STATE_FREE) →
      (forPages (fun t i => (t.setState i PAGE_STATE_FREE).enqueue_page page_free_queue i)
          t page n).Filed (fun p => if p < page + n then some page_free_queue else none) ∧
        (∀ p < page + n, (forPages (fun t i =>
          (t.setState i PAGE_STATE_FREE).enqueue_page page_free_queue i) t page n).state p =
            PAGE_STATE_FREE) ∧
        (forPages (fun t i => (t.setState i PAGE_STATE_FREE).enqueue_page page_free_queue i)
          t page n).num_pages = t.num_pages
  | 0, t, page, hfiled, hstate => ⟨hfiled, hstate, rfl⟩
  | n + 1, t, page, hfiled, hstate => by
    have hnext := (hfiled.setState page PAGE_STATE_FREE).enqueue page_free_queue
      (if_neg (Nat.lt_irrefl page))
    have hplace : update (fun p => if p < page then some page_free_queue else none) page
        (some page_free_queue) = fun p => if p < page + 1 then some page_free_queue else none := by
      funext p
      by_cases hp : p = page
      · rw [hp, update_self, if_pos (Nat.lt_succ_self page)]
      · rw [update_of_ne hp]
        exact if_congr ⟨fun h => by omega, fun h => by omega⟩ rfl rfl
    rw [hplace] at hnext
    have hrest := init_loop n hnext (by
      intro p hp
      rw [enqueue_page_state, setState_state]
      by_cases heq : p = page
      · rw [heq, update_self]
      · rw [update_of_ne heq]
        exact hstate p (by omega))
    rw [show page + 1 + n = page + (n + 1) by omega] at hrest
    exact hrest

theorem init_filed (t : PageTable) : t.vm_page_init.Filed
        (fun p => if p < t.num_pages.toNat - 1 then some page_free_queue else none) ∧
      (∀ p < t.num_pages.toNat - 1, t.vm_page_init.state p = PAGE_STATE_FREE) ∧
      t.vm_page_init.num_pages = t.num_pages := by
  have hempty : PageTable.Filed { t with queues := fun _ => ⟨none, none, 0⟩ }
      (fun p => if p < 0 then some page_free_queue else none) := by
    refine ⟨fun _ => [], ⟨fun _ => rfl, fun _ => rfl, fun _ => nodup_nil, ?_, fun _ => rfl⟩, ?_⟩
    · exact fun _ _ _ p hp => absurd hp nofun
    · intro q p
      simp
  have hloop := init_loop (t.num_pages.toNat - 1) hempty fun p hp => absurd hp (Nat.not_lt_zero p)
  rwa [Nat.zero_add] at hloop

theorem init_sound (t : PageTable) (hpages : 0 < t.num_pages.toNat) : t.vm_page_init.Sound [] := by
  obtain ⟨hfiled, hstate, hnum⟩ := t.init_filed
  have hplace : t.vm_page_init.place [] =
      fun p => if p < t.num_pages.toNat - 1 then some page_free_queue else none := by
    funext p
    by_cases hp : p < t.num_pages.toNat - 1
    · rw [if_pos hp, place_of (by rw [SetUp, hnum]; omega) not_mem_nil, hstate p hp]
      rfl
    · rw [if_neg hp]
      exact if_neg fun h => hp (by have := h.1; rw [SetUp, hnum] at this; omega)
  exact ⟨by rwa [hplace], fun p hp => absurd hp nofun, nodup_nil⟩

end PageTable

/-! ## Every run -/

namespace PageSystem

variable {s s' : PageSystem} {handed : List Nat} {call : PageCall}

/-- A safe section keeps the invariant, and leaves the scrubber its pages. -/
theorem step_sound (h : s.table.Sound s.held) (hsafe : s.Safe call)
    (hstep : s.step call = some (handed, s')) :
    s'.table.Sound s'.held ∧ (call ≠ .scrubPut → ∀ p ∈ s.held, p ∉ handed ∧ p ∈ s'.held) := by
  cases call with
  | allocate_page page_state =>
    obtain ⟨a, ha, heq⟩ := Option.map_eq_some_iff.mp hstep
    cases heq
    have hsound : a.table.Sound s.held ∧ ∀ p ∈ a.page, p ∉ s.held := by
      cases page_state with
      | PAGE_STATE_FREE => exact h.allocateFrom ha
      | PAGE_STATE_CLEAR => exact h.allocateFrom ha
      | _ =>
        cases ha
        exact ⟨h, nofun⟩
    refine ⟨hsound.1, fun _ p hp => ⟨fun hin => ?_, hp⟩⟩
    exact hsound.2 p (Option.mem_toList.mp hin) hp
  | allocate_specific_page page_num page_state =>
    cases hstep
    have hkeeps : ∀ p ∈ s.held, p ∈ s.held := fun _ hp => hp
    unfold PageTable.vm_page_allocate_specific_page
    cases hlookup : s.table.vm_lookup_page page_num with
    | none => exact ⟨h, fun _ p hp => ⟨nofun, hp⟩⟩
    | some page =>
      have hpage := hsafe page hlookup
      refine ⟨h.specific page_state hpage, fun _ p hp => ⟨fun hin => ?_, hp⟩⟩
      -- a held page is free, so it would have been available
      have hfree := (h.held_free p hp).2
      obtain rfl := PageTable.takeSpecific_page (Option.mem_toList.mp hin)
      exact (hpage (by simp [PageTable.available, hfree])).2 hp
  | allocate_page_run len =>
    cases hstep
    obtain ⟨hsound, hout⟩ := h.run hsafe
    refine ⟨hsound, fun _ p hp => ⟨fun hin => ?_, hp⟩⟩
    change p ∈ (s.table.vm_page_allocate_page_run len).1.elim [] _ at hin
    cases hfirst : (s.table.vm_page_allocate_page_run len).1 with
    | none =>
      rw [hfirst] at hin
      cases hin
    | some first =>
      rw [hfirst] at hin
      exact hout first hfirst p hin hp
  | set_state page page_state =>
    cases hstep
    refine ⟨?_, fun _ p hp => ⟨nofun, hp⟩⟩
    by_cases hheld : page ∈ s.held
    · rw [hsafe.2 hheld]
      exact h.set_held hheld
    · exact h.set_state page_state hsafe.1 hheld
  | mark_page_range_inuse start_page len =>
    cases hstep
    exact ⟨h.mark hsafe, fun _ p hp => ⟨nofun, hp⟩⟩
  | scrubTake =>
    unfold PageSystem.step at hstep
    cases hscrub : s.scrubbing with
    | some pages =>
      rw [hscrub] at hstep
      cases hstep
    | none =>
      rw [hscrub] at hstep
      cases hstep
      have hnone : s.held = [] := by rw [held, hscrub]; rfl
      rw [hnone] at h ⊢
      have htake := h.scrubTake SCRUB_SIZE
      rw [append_nil] at htake
      exact ⟨htake.perm (reverse_perm _), fun _ p hp => absurd hp nofun⟩
  | scrubPut =>
    unfold PageSystem.step at hstep
    cases hscrub : s.scrubbing with
    | none =>
      rw [hscrub] at hstep
      cases hstep
    | some pages =>
      rw [hscrub] at hstep
      cases hstep
      have hheld : s.held = pages ++ [] := by rw [held, hscrub, append_nil]; rfl
      rw [hheld] at h
      exact ⟨h.scrubPut, fun hne => absurd rfl hne⟩

theorem sound_inQueues (h : s.table.Sound s.held) : s.InQueues := by
  obtain ⟨pages, hlinked, hmem⟩ := h.filed
  refine ⟨pages, hlinked, fun q p => (hmem q p).trans ⟨PageTable.setUp_of_place, ?_⟩, h.held_free⟩
  rintro ⟨hsetUp, hout, hqueue⟩
  rw [PageTable.place_of hsetUp hout, hqueue]

theorem run_sound (h : By Init Safe Step s) : s.table.Sound s.held := by
  refine h.invariant (fun s => s.table.Sound s.held) ?_ ?_
  · rintro s ⟨t, hpages, rfl⟩
    exact t.init_sound hpages
  · rintro s call s' hs hsafe ⟨handed, hstep⟩
    exact (step_sound hs hsafe hstep).1

end PageSystem

open PageSystem in
/-- In every run of safe calls, each page is in the queue of its state or with the scrubber, and no
other call hands out or puts into a queue a page that is with the scrubber. -/
theorem pages_in_queues {s : PageSystem} (h : By Init Safe Step s) :
    s.InQueues ∧ ∀ (call : PageCall) (handed : List Nat) (s' : PageSystem), s.Safe call →
      s.step call = some (handed, s') → call ≠ .scrubPut → ∀ p ∈ s.held, p ∉ handed ∧ p ∈ s'.held :=
  ⟨sound_inQueues (run_sound h), fun _ _ _ hsafe hstep => (step_sound (run_sound h) hsafe hstep).2⟩

/-- A machine with two pages that are set up, before `vm_page_init`. -/
def twoPages : PageTable where
  queue_prev := fun _ => none
  queue_next := fun _ => none
  state := fun _ => PAGE_STATE_ACTIVE
  queues := fun _ => ⟨none, none, 0⟩
  physical_page_offset := 0
  num_pages := 3
  modified_pages_available := 0

/-- The scrubber has taken both pages. -/
def scrubbedPages : PageSystem :=
  ⟨(twoPages.vm_page_init.scrubTake SCRUB_SIZE).2, some (twoPages.vm_page_init.scrubTake SCRUB_SIZE).1⟩

theorem scrubbedPages_reached {ok : PageSystem → PageCall → Prop}
    (hok : ∀ s, ok s .scrubTake) :
    By PageSystem.Init ok PageSystem.Step scrubbedPages :=
  .step (.init ⟨twoPages, by decide, rfl⟩) (hok _) ⟨[], rfl⟩

theorem pages_in_queues_scrubbing : scrubbedPages.InQueues :=
  (pages_in_queues (scrubbedPages_reached fun _ => trivial)).1

/-- A page the scrubber holds is handed out as a free one, and then put into the clear queue, while
the active queue leads to it. -/
theorem pages_not_in_queues :
    ¬ ∀ s, By PageSystem.Init (fun _ _ => True) PageSystem.Step s → s.InQueues := by
  intro hall
  have htaken : By PageSystem.Init (fun _ _ => True) PageSystem.Step
      ⟨(scrubbedPages.table.vm_page_allocate_specific_page 0 PAGE_STATE_FREE).table,
        scrubbedPages.scrubbing⟩ :=
    .step (scrubbedPages_reached fun _ => trivial) trivial
      (a := .allocate_specific_page 0 PAGE_STATE_FREE) ⟨[0], rfl⟩
  have hput := By.step htaken trivial (a := .scrubPut) ⟨[], rfl⟩
  obtain ⟨pages, hlinked, hmem, -⟩ := hall _ hput
  have hhead := (hlinked.next page_active_queue).head
  have hin : 0 ∈ pages page_active_queue := mem_of_head? (hhead.symm.trans rfl)
  exact absurd ((hmem _ _).mp hin).2.2 (by decide)

end Kernel
