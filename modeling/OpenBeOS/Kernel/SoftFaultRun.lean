import OpenBeOS.Kernel.SoftFault

/-! # A cache holds at most one page per offset

`Sound` is the invariant of every run of page faults: the dummy page of a call is busy exactly while
it is in the top cache, and it is there whenever the call inserts a page at the top. So a page
inserted at the top finds no other one, and no dummy page is left behind; only below the top can two
calls insert pages at the same offset.
-/

namespace Kernel

open PageState QueueName Reachable Function List

/-! ## Allocating a page -/

theorem queue_eq_free {st : PageState} (h : st.queue = page_free_queue) : st = PAGE_STATE_FREE := by
  cases st <;> first | rfl | cases h

theorem queue_eq_clear {st : PageState} (h : st.queue = page_clear_queue) :
    st = PAGE_STATE_CLEAR := by
  cases st <;> first | rfl | cases h

namespace PageTable

/-- A page that was available becomes busy; it is cleared if a clear page was asked for and it was
none. -/
structure Allocates (t : PageTable) (page_state : PageState) (page : Nat) (cleared : Bool)
    (t' : PageTable) : Prop where
  setUp : t.SetUp page
  available : t.available page
  state : t'.state = update t.state page PAGE_STATE_BUSY
  num_pages : t'.num_pages = t.num_pages
  offset : t'.physical_page_offset = t.physical_page_offset
  cleared : page_state = PAGE_STATE_CLEAR → t.state page = PAGE_STATE_CLEAR ∨ cleared = true

variable {t : PageTable} {held : List Nat} {page_state : PageState} {a : Allocation}

theorem Sound.allocateFrom_spec (h : t.Sound held) {q q_other : QueueName}
    (hq : q = page_free_queue ∨ q = page_clear_queue)
    (hq' : q_other = page_free_queue ∨ q_other = page_clear_queue)
    (ha : t.allocateFrom page_state q q_other = some a) :
    ∃ page, a.page = some page ∧ t.Allocates page_state page a.cleared a.table := by
  obtain ⟨queue, page, htaken, hplace, rfl⟩ := h.allocateFrom_taken ha
  have hq'' : queue = page_free_queue ∨ queue = page_clear_queue := by
    rcases htaken with rfl | rfl
    · exact hq
    · exact hq'
  obtain ⟨hsetUp, -, hqueue⟩ := setUp_of_place hplace
  have hstate : t.state page = PAGE_STATE_FREE ∨ t.state page = PAGE_STATE_CLEAR := by
    rcases hq'' with rfl | rfl
    · exact Or.inl (queue_eq_free hqueue)
    · exact Or.inr (queue_eq_clear hqueue)
  refine ⟨page, rfl, hsetUp, ?_, rfl, rfl, rfl, fun hclear => ?_⟩
  · rcases hstate with hstate | hstate
    · simp [PageTable.available, hstate]
    · simp [PageTable.available, hstate]
  · rcases hstate with hstate | hstate
    · exact Or.inr (decide_eq_true ⟨hclear, hstate⟩)
    · exact Or.inl hstate

theorem Sound.allocate (h : t.Sound held)
    (hstate : page_state = PAGE_STATE_FREE ∨ page_state = PAGE_STATE_CLEAR)
    (ha : t.vm_page_allocate_page page_state = some a) :
    a.table.Sound held ∧ ∃ page, a.page = some page ∧ t.Allocates page_state page a.cleared a.table := by
  rcases hstate with rfl | rfl
  · exact ⟨(h.allocateFrom ha).1, h.allocateFrom_spec (Or.inl rfl) (Or.inr rfl) ha⟩
  · exact ⟨(h.allocateFrom ha).1, h.allocateFrom_spec (Or.inr rfl) (Or.inl rfl) ha⟩

end PageTable

/-! ## The invariant -/

/-- The page a call has allocated and not yet inserted. -/
def Place.fresh : Place → Option Nat
  | insertRead _ page => some page
  | insertZero _ page => some page
  | insertCopy page => some page
  | _ => none

def FaultThread.fresh : FaultThread → Option Nat
  | running _ place => place.fresh
  | returned _ => none

/-- The page of a call that is in a cache. -/
def Place.cached : Place → Option Nat
  | dropZero page => some page
  | found page => some page
  | dropCopy page => some page
  | map page => some page
  | dropMapped page _ => some page
  | activate page _ => some page
  | _ => none

/-- The cache that gets a page of zeros. -/
def Place.target : Place → Option Nat
  | zero cache_ref => some cache_ref
  | insertZero cache_ref _ => some cache_ref
  | _ => none

/-- The dummy page of the call is in the top cache. -/
def Place.KeepsDummy (s : VmSystem) (f : Fault) : Place → Prop
  | search cache_ref => cache_ref ≠ f.top_cache_ref
  | found page => f.is_write ∧ s.caches.cache_ref (.physical page) ≠ some f.top_cache_ref
  | read _ => True
  | insertRead _ _ => True
  | zero _ => True
  | insertZero _ _ => True
  | dropZero _ => True
  | insertCopy _ => True
  | dropCopy _ => True
  | dropMapped _ _ => True
  | map _ => False
  | activate _ _ => False

namespace VmSystem

variable {s s' s'' : VmSystem} {t : Nat} {f : Fault} {c page : Nat}

/-! ## What every state has -/

/-- The page table is sound, and the physical pages in the caches are in use. -/
structure Base (s : VmSystem) : Prop where
  table : ∃ held, s.table.Sound held
  coherent : s.caches.Coherent
  inUse : ∀ p, .physical p ∈ s.caches.page_cache_table → s.InUse p

/-- What a step of the thread leaves to the others: their dummy pages, and every page in a cache.
`new` is the page it inserts. -/
structure Frame (s s' : VmSystem) (t : Nat) (new : Option Nat) : Prop where
  dummy_state : ∀ t', t' ≠ t → s'.dummy_state t' = s.dummy_state t'
  dummy : ∀ t', t' ≠ t →
    (.dummy t' ∈ s'.caches.page_cache_table ↔ .dummy t' ∈ s.caches.page_cache_table)
  physical : ∀ p, .physical p ∈ s'.caches.page_cache_table ↔
    .physical p ∈ s.caches.page_cache_table ∨ p ∈ new
  cache_ref : ∀ x ∈ s.caches.page_cache_table, x ≠ .dummy t →
    s'.caches.cache_ref x = s.caches.cache_ref x
  offset : ∀ x ∈ s.caches.page_cache_table, x ≠ .dummy t → s'.caches.offset x = s.caches.offset x
  inUse : ∀ p, s.InUse p → s'.InUse p

theorem Frame.refl (s : VmSystem) (t : Nat) : s.Frame s t none :=
  ⟨fun _ _ => rfl, fun _ _ => Iff.rfl, fun _ => by simp, fun _ _ _ => rfl, fun _ _ _ => rfl,
    fun _ h => h⟩

variable {place : Place} {new : Option Nat} {p : Nat} {st : PageState}

theorem Frame.trans (h : s.Frame s' t none) (h' : s'.Frame s'' t new) : s.Frame s'' t new := by
  have hkeep : ∀ x ∈ s.caches.page_cache_table, x ≠ .dummy t → x ∈ s'.caches.page_cache_table := by
    intro x hx hne
    cases x with
    | physical p => exact (h.physical p).mpr (Or.inl hx)
    | dummy t' => exact (h.dummy t' fun heq => hne (heq ▸ rfl)).mpr hx
  refine ⟨?_, ?_, ?_, ?_, ?_, fun p hp => h'.inUse p (h.inUse p hp)⟩
  · exact fun t' ht' => (h'.dummy_state t' ht').trans (h.dummy_state t' ht')
  · exact fun t' ht' => (h'.dummy t' ht').trans (h.dummy t' ht')
  · intro p
    rw [h'.physical p, h.physical p]
    simp
  · exact fun x hx hne => (h'.cache_ref x (hkeep x hx hne) hne).trans (h.cache_ref x hx hne)
  · exact fun x hx hne => (h'.offset x (hkeep x hx hne) hne).trans (h.offset x hx hne)

/-! ### The operations -/

theorem Base.insert (h : s.Base) {x : vm_page} (hout : x ∉ s.caches.page_cache_table)
    (hinUse : ∀ p, x = .physical p → s.InUse p) (c : Nat) (offset : off_t) :
    (s.insertPage c x offset).Base := by
  refine ⟨h.table, h.coherent.insert hout c offset, fun p hp => ?_⟩
  rcases mem_cons.mp hp with heq | hp
  · exact hinUse p heq.symm
  · exact h.inUse p hp

theorem frame_insert (hout : .physical p ∉ s.caches.page_cache_table) (c : Nat)
    (offset : off_t) : s.Frame (s.insertPage c (.physical p) offset) t (some p) := by
  have hne : ∀ x ∈ s.caches.page_cache_table, x ≠ .physical p := by
    rintro x hx rfl
    exact hout hx
  refine ⟨fun _ _ => rfl, fun t' _ => ?_, fun p' => ?_, ?_, ?_, fun _ h => h⟩
  · simp [insertPage, VmCaches.vm_cache_insert_page]
  · simp [insertPage, VmCaches.vm_cache_insert_page, or_comm, eq_comm]
  · exact fun x hx _ => update_of_ne (hne x hx) ..
  · exact fun x hx _ => update_of_ne (hne x hx) ..

theorem frame_insert_dummy (s : VmSystem) (t c : Nat) (offset : off_t) :
    s.Frame ((s.setDummy t PAGE_STATE_BUSY).insertPage c (.dummy t) offset) t none := by
  refine ⟨?_, fun t' ht' => ?_, fun p => ?_, ?_, ?_, fun _ h => h⟩
  · exact fun t' ht' => update_of_ne ht' ..
  · simp [insertPage, setDummy, VmCaches.vm_cache_insert_page, ht']
  · simp [insertPage, setDummy, VmCaches.vm_cache_insert_page]
  · exact fun x _ hne => update_of_ne hne ..
  · exact fun x _ hne => update_of_ne hne ..

theorem Base.dropDummy (h : s.Base) (hin : .dummy t ∈ s.caches.page_list c) :
    (s.dropDummy c t).Base := by
  refine ⟨h.table, h.coherent.remove hin, fun p hp => ?_⟩
  exact h.inUse p (mem_of_mem_erase hp)

theorem frame_dropDummy (s : VmSystem) (t c : Nat) : s.Frame (s.dropDummy c t) t none := by
  refine ⟨?_, fun t' ht' => ?_, fun p => ?_, ?_, fun _ _ _ => rfl, fun _ h => h⟩
  · exact fun t' ht' => update_of_ne ht' ..
  · exact mem_erase_of_ne fun heq => ht' (vm_page.dummy.inj heq)
  · show .physical p ∈ s.caches.page_cache_table.erase (.dummy t) ↔ _
    have hne : vm_page.physical p ≠ .dummy t := nofun
    rw [mem_erase_of_ne hne]
    simp
  · exact fun x _ hne => update_of_ne hne ..

theorem dropDummy_out (h : s.Base) : .dummy t ∉ (s.dropDummy c t).caches.page_cache_table :=
  h.coherent.nodup.not_mem_erase

@[simp] theorem dropDummy_dummy_state (s : VmSystem) (c t : Nat) :
    (s.dropDummy c t).dummy_state t = PAGE_STATE_INACTIVE := update_self ..

theorem inUse_set_state (hst : st ≠ PAGE_STATE_FREE)
    (hst' : st ≠ PAGE_STATE_CLEAR) (q : Nat) (h : s.InUse q) : (s.vm_page_set_state p st).InUse q := by
  refine ⟨?_, ?_⟩
  · show q + 1 < (s.table.vm_page_set_state_nolock p st).num_pages.toNat
    rw [PageTable.vm_page_set_state_nolock_num_pages]
    exact h.1
  · show ¬ (s.table.vm_page_set_state_nolock p st).available q
    have hstate : (s.table.vm_page_set_state_nolock p st).state = update s.table.state p st := by
      simp [PageTable.vm_page_set_state_nolock]
    rw [PageTable.available, hstate]
    by_cases hq : q = p
    · simp [hq, hst, hst']
    · rw [update_of_ne hq]
      exact h.2

theorem Base.set_state (h : s.Base) (hp : s.InUse p)
    (hst : st ≠ PAGE_STATE_FREE) (hst' : st ≠ PAGE_STATE_CLEAR) :
    (s.vm_page_set_state p st).Base := by
  obtain ⟨held, hsound⟩ := h.table
  refine ⟨⟨held, hsound.set_state st hp.1 fun hin => ?_⟩, h.coherent, ?_⟩
  · exact hp.2 (by simp [PageTable.available, (hsound.held_free p hin).2])
  · exact fun q hq => inUse_set_state hst hst' q (h.inUse q hq)

theorem frame_set_state (hst : st ≠ PAGE_STATE_FREE)
    (hst' : st ≠ PAGE_STATE_CLEAR) : s.Frame (s.vm_page_set_state p st) t none :=
  { Frame.refl s t with inUse := inUse_set_state hst hst' }

/-- Only the contents of pages and the mappings differ. -/
structure Quiet (s s' : VmSystem) : Prop where
  table : s'.table = s.table
  caches : s'.caches = s.caches
  dummy_state : s'.dummy_state = s.dummy_state
  thread : s'.thread = s.thread

theorem Quiet.inUse (h : s.Quiet s') (hp : s.InUse p) : s'.InUse p := by
  rw [InUse, h.table]
  exact hp

theorem Quiet.base (h : s.Quiet s') (hbase : s.Base) : s'.Base := by
  refine ⟨?_, ?_, ?_⟩
  · rw [h.table]
    exact hbase.table
  · rw [h.caches]
    exact hbase.coherent
  · rw [h.caches]
    exact fun p hp => h.inUse (hbase.inUse p hp)

theorem Quiet.frame (h : s.Quiet s') (t : Nat) : s.Frame s' t none := by
  refine ⟨fun t' _ => ?_, fun t' _ => ?_, fun p => ?_, fun x _ _ => ?_, fun x _ _ => ?_,
    fun _ => h.inUse⟩
  · rw [h.dummy_state]
  · rw [h.caches]
  · simp [h.caches]
  · rw [h.caches]
  · rw [h.caches]

/-- Only the page table and the contents of pages differ. -/
structure SameCaches (s s' : VmSystem) : Prop where
  caches : s'.caches = s.caches
  cache : s'.cache = s.cache
  aspace : s'.aspace = s.aspace
  dummy_state : s'.dummy_state = s.dummy_state
  thread : s'.thread = s.thread
  offset : s'.table.physical_page_offset = s.table.physical_page_offset

/-- A page that was not in use is allocated. -/
structure Allocated (s : VmSystem) (page_state : PageState) (page : Nat) (s' : VmSystem) : Prop
    extends SameCaches s s' where
  base : s'.Base
  unused : ¬ s.InUse page
  used : s'.InUse page
  inUse : ∀ p, s.InUse p → s'.InUse p
  contents : ∀ p, p ≠ page → s'.contents p = s.contents p
  clear : page_state = PAGE_STATE_CLEAR → s'.contents page = PageContents.clear ∨
      s.table.state page = PAGE_STATE_CLEAR ∧ s'.contents page = s.contents page
  state : s'.table.state = update s.table.state page PAGE_STATE_BUSY

theorem Base.allocate (h : s.Base) {page_state : PageState}
    (hstate : page_state = PAGE_STATE_FREE ∨ page_state = PAGE_STATE_CLEAR)
    (ha : s.vm_page_allocate_page page_state = some (page, s')) :
    s.Allocated page_state page s' := by
  obtain ⟨held, hsound⟩ := h.table
  unfold vm_page_allocate_page at ha
  cases halloc : s.table.vm_page_allocate_page page_state with
  | none => rw [halloc] at ha; cases ha
  | some a =>
    obtain ⟨hsound', page', hpage', hallocates⟩ := hsound.allocate hstate halloc
    obtain ⟨allocated, cleared, table⟩ := a
    obtain rfl : allocated = some page' := hpage'
    rw [halloc] at ha
    obtain ⟨rfl, rfl⟩ := Prod.mk.inj (Option.some.inj ha)
    have hunused : ¬ s.InUse page' := fun hin => hin.2 hallocates.available
    have hsetUp : ∀ p, s.table.SetUp p → table.SetUp p := by
      intro p hp
      rw [PageTable.SetUp, hallocates.num_pages]
      exact hp
    have hinUse : ∀ p, s.InUse p → table.SetUp p ∧ ¬ table.available p := by
      intro p hp
      have hne : p ≠ page' := by
        rintro rfl
        exact hunused hp
      refine ⟨hsetUp p hp.1, ?_⟩
      rw [PageTable.available, hallocates.state, update_of_ne hne]
      exact hp.2
    refine ⟨⟨rfl, rfl, rfl, rfl, rfl, hallocates.offset⟩, ⟨⟨held, hsound'⟩, h.coherent, ?_⟩, hunused,
      ⟨hsetUp _ hallocates.setUp, ?_⟩, hinUse, ?_, ?_, hallocates.state⟩
    · exact fun p hp => hinUse p (h.inUse p hp)
    · show ¬ table.available page'
      rw [PageTable.available, hallocates.state, update_self]
      simp
    · intro p hp
      cases cleared with
      | true => exact update_of_ne hp ..
      | false => rfl
    · intro hclear
      rcases hallocates.cleared hclear with hwas | hcleared
      · cases cleared with
        | true => exact Or.inl (update_self ..)
        | false => exact Or.inr ⟨hwas, rfl⟩
      · obtain rfl : cleared = true := hcleared
        exact Or.inl (update_self ..)

theorem Allocated.frame {page_state : PageState} (h : s.Allocated page_state page s') (t : Nat) :
    s.Frame s' t none := by
  refine ⟨fun _ _ => ?_, fun _ _ => ?_, fun p => ?_, fun _ _ _ => ?_, fun _ _ _ => ?_, h.inUse⟩
  · rw [h.dummy_state]
  · rw [h.caches]
  · simp [h.caches]
  · rw [h.caches]
  · rw [h.caches]

/-! ### The calls -/

structure Good (s : VmSystem) (t : Nat) (f : Fault) (place : Place) : Prop where
  busy : s.dummy_state t = PAGE_STATE_BUSY ↔ .dummy t ∈ s.caches.page_cache_table
  top : .dummy t ∈ s.caches.page_cache_table →
    s.caches.cache_ref (.dummy t) = some f.top_cache_ref ∧
      s.caches.offset (.dummy t) = f.cache_offset
  keeps : place.KeepsDummy s f → .dummy t ∈ s.caches.page_cache_table
  dropped : ∀ page err, place = .activate page err → .dummy t ∉ s.caches.page_cache_table
  fresh : ∀ p ∈ place.fresh, s.InUse p ∧ .physical p ∉ s.caches.page_cache_table
  cached : ∀ p ∈ place.cached, .physical p ∈ s.caches.page_cache_table
  target : ∀ c ∈ place.target, f.is_write → c = f.top_cache_ref
  reads : ∀ page, place = .dropZero page → ¬ f.is_write

structure Sound (s : VmSystem) : Prop where
  base : s.Base
  running : ∀ t, .dummy t ∈ s.caches.page_cache_table → ∃ f place, s.thread t = .running f place
  good : ∀ t f place, s.thread t = .running f place → s.Good t f place
  apart : ∀ t t', t ≠ t' → ∀ p ∈ (s.thread t).fresh, p ∉ (s.thread t').fresh

theorem Good.setThread (h : s.Good t f place) (t' : Nat) (x : FaultThread) :
    (s.setThread t' x).Good t f place :=
  ⟨h.busy, h.top, h.keeps, h.dropped, h.fresh, h.cached, h.target, h.reads⟩

/-- What another thread does keeps a call good. -/
theorem Good.frame {t t' : Nat} (h : s.Good t f place)
    (hframe : s.Frame s' t' new) (hne : t ≠ t') (hnew : ∀ p ∈ place.fresh, p ∉ new) :
    s'.Good t f place := by
  have hdummy := hframe.dummy t hne
  have hne' : vm_page.dummy t ≠ .dummy t' := fun heq => hne (vm_page.dummy.inj heq)
  refine ⟨?_, ?_, ?_, ?_, ?_, ?_, h.target, h.reads⟩
  · rw [hframe.dummy_state t hne, hdummy]
    exact h.busy
  · intro hin
    rw [hframe.cache_ref _ (hdummy.mp hin) hne', hframe.offset _ (hdummy.mp hin) hne']
    exact h.top (hdummy.mp hin)
  · intro hkeeps
    refine hdummy.mpr (h.keeps ?_)
    cases place with
    | found page =>
      have hin := h.cached page rfl
      rw [Place.KeepsDummy, hframe.cache_ref _ hin nofun] at hkeeps
      exact hkeeps
    | _ => exact hkeeps
  · exact fun page err hplace hin => h.dropped page err hplace (hdummy.mp hin)
  · intro p hp
    refine ⟨hframe.inUse p (h.fresh p hp).1, fun hin => ?_⟩
    rcases (hframe.physical p).mp hin with hin | hin
    · exact (h.fresh p hp).2 hin
    · exact hnew p hp hin
  · exact fun p hp => (hframe.physical p).mpr (Or.inl (h.cached p hp))

/-- A thread does a step. -/
theorem Sound.setThread (h : s.Sound) (hbase : s'.Base)
    (hframe : s.Frame s' t new) (hnew : ∀ p ∈ new, p ∈ (s.thread t).fresh)
    (hthread : s'.thread = s.thread) {x : FaultThread}
    (hgood : ∀ f place, x = .running f place → s'.Good t f place)
    (hfresh : ∀ p ∈ x.fresh, p ∈ (s.thread t).fresh ∨ ¬ s.InUse p)
    (hreturned : ∀ err, x = .returned err → .dummy t ∉ s'.caches.page_cache_table) :
    (s'.setThread t x).Sound := by
  have hself : (s'.setThread t x).thread t = x := update_self ..
  have hother : ∀ t', t' ≠ t → (s'.setThread t x).thread t' = s.thread t' := by
    intro t' ht'
    rw [← hthread]
    exact update_of_ne ht' ..
  -- a page that is new to the thread was in use by none
  have hapart : ∀ t', t' ≠ t → ∀ p ∈ x.fresh, p ∉ (s.thread t').fresh := by
    intro t' ht' p hp hin
    rcases hfresh p hp with hold | hunused
    · exact h.apart t t' (Ne.symm ht') p hold hin
    · cases hx : s.thread t' with
      | returned err =>
        rw [hx] at hin
        cases hin
      | running f place =>
        rw [hx] at hin
        exact hunused ((h.good t' f place hx).fresh p hin).1
  refine ⟨⟨hbase.table, hbase.coherent, hbase.inUse⟩, ?_, ?_, ?_⟩
  · intro t' hin
    by_cases ht' : t' = t
    · subst ht'
      rw [hself]
      cases hx : x with
      | running f place => exact ⟨f, place, rfl⟩
      | returned err => exact absurd hin (hreturned err hx)
    · rw [hother t' ht']
      exact h.running t' ((hframe.dummy t' ht').mp hin)
  · intro t' f place hrunning
    by_cases ht' : t' = t
    · subst ht'
      rw [hself] at hrunning
      exact (hgood f place hrunning).setThread t' x
    · rw [hother t' ht'] at hrunning
      have hgood' := (h.good t' f place hrunning).frame hframe ht' fun p hp hin =>
        h.apart t' t ht' p (by rw [hrunning]; exact hp) (hnew p hin)
      exact hgood'.setThread t x
  · intro t₁ t₂ hne p hp hin
    by_cases ht₁ : t₁ = t
    · subst ht₁
      rw [hself] at hp
      rw [hother t₂ (Ne.symm hne)] at hin
      exact hapart t₂ (Ne.symm hne) p hp hin
    · rw [hother t₁ ht₁] at hp
      by_cases ht₂ : t₂ = t
      · subst ht₂
        rw [hself] at hin
        exact hapart t₁ ht₁ p hin hp
      · rw [hother t₂ ht₂] at hin
        exact h.apart t₁ t₂ hne p hp hin

theorem Sound.go (h : s.Sound) {place place' : Place} (ht : s.thread t = .running f place)
    (hbase : s'.Base) (hframe : s.Frame s' t new)
    (hnew : ∀ p ∈ new, p ∈ place.fresh) (hthread : s'.thread = s.thread)
    (hgood : s'.Good t f place') (hfresh : ∀ p ∈ place'.fresh, p ∈ place.fresh ∨ ¬ s.InUse p) :
    (s'.setThread t (.running f place')).Sound := by
  have heq : (s.thread t).fresh = place.fresh := by
    rw [ht]
    rfl
  refine h.setThread hbase hframe ?_ hthread ?_ ?_ nofun
  · rw [heq]
    exact hnew
  · rintro f' place₁ ⟨⟩
    exact hgood
  · rw [heq]
    exact hfresh

theorem good_with (hbusy : s.dummy_state t = PAGE_STATE_BUSY)
    (hin : .dummy t ∈ s.caches.page_cache_table)
    (htop : s.caches.cache_ref (.dummy t) = some f.top_cache_ref ∧
      s.caches.offset (.dummy t) = f.cache_offset)
    (hdropped : ∀ page err, place ≠ .activate page err)
    (hfresh : ∀ p ∈ place.fresh, s.InUse p ∧ .physical p ∉ s.caches.page_cache_table)
    (hcached : ∀ p ∈ place.cached, .physical p ∈ s.caches.page_cache_table)
    (htarget : ∀ c ∈ place.target, f.is_write → c = f.top_cache_ref)
    (hreads : ∀ page, place = .dropZero page → ¬ f.is_write) : s.Good t f place :=
  ⟨iff_of_true hbusy hin, fun _ => htop, fun _ => hin,
    fun page err hplace => absurd hplace (hdropped page err), hfresh, hcached, htarget, hreads⟩

theorem good_without (hstate : s.dummy_state t ≠ PAGE_STATE_BUSY)
    (hout : .dummy t ∉ s.caches.page_cache_table) (hkeeps : ¬ place.KeepsDummy s f)
    (hfresh : place.fresh = none) (hcached : ∀ p ∈ place.cached, .physical p ∈ s.caches.page_cache_table)
    (htarget : place.target = none) : s.Good t f place := by
  refine ⟨iff_of_false hstate hout, fun hin => absurd hin hout, fun h => absurd h hkeeps,
    fun _ _ _ => hout, ?_, hcached, ?_, ?_⟩
  · rw [hfresh]
    exact nofun
  · rw [htarget]
    exact nofun
  · rintro page rfl
    exact absurd trivial hkeeps

/-! ## One step -/

/-- A step keeps the invariant, and one page per offset if it is safe. -/
def Keeps (s : VmSystem) (t : Nat) (s' : VmSystem) : Prop :=
  s'.Sound ∧ (s.caches.OnePerOffset → s.Safe (.go t) → s'.caches.OnePerOffset)

section

variable (h : s.Sound)
include h

theorem Sound.dummy_mem (ht : s.thread t = .running f place)
    (hin : .dummy t ∈ s.caches.page_cache_table) : .dummy t ∈ s.caches.page_list f.top_cache_ref :=
  (h.base.coherent.mem_page_list _ _).mpr ⟨hin, ((h.good t f place ht).top hin).1⟩

theorem search_sound (ht : s.thread t = .running f (.search c))
    (hstep : s.searchCache t f c = some s') : s.Keeps t s' := by
  have hgood := h.good t f _ ht
  unfold searchCache at hstep
  cases hlookup : s.caches.vm_cache_lookup_page c f.cache_offset with
  | some x =>
    obtain ⟨hx, -⟩ := h.base.coherent.lookup_some hlookup
    have hmem := (h.base.coherent.mem_page_list c x).mp hx
    simp only [hlookup] at hstep
    split at hstep
    · cases hstep
      exact ⟨h, fun hone _ => hone⟩
    · cases x with
      | dummy t' => cases hstep
      | physical p =>
        cases hstep
        have hbase : (s.vm_page_set_state p PAGE_STATE_BUSY).Base :=
          h.base.set_state (h.base.inUse p hmem.1) nofun nofun
        have hframe : s.Frame (s.vm_page_set_state p PAGE_STATE_BUSY) t none :=
          frame_set_state nofun nofun
        refine ⟨h.go ht hbase hframe nofun rfl ?_ nofun, fun hone _ => hone⟩
        refine ⟨hgood.busy, hgood.top, ?_, nofun, nofun, ?_, nofun, nofun⟩
        · rintro ⟨-, hne⟩
          refine hgood.keeps fun hc => hne ?_
          rw [← hc]
          exact hmem.2
        · rintro p' ⟨⟩
          exact hmem.1
  | none =>
    have hnone := h.base.coherent.lookup_none.mp hlookup
    simp only [hlookup] at hstep
    cases hstep
    have hnext : ∀ s' : VmSystem, s'.dummy_state t = PAGE_STATE_BUSY →
        .dummy t ∈ s'.caches.page_cache_table →
        s'.caches.cache_ref (.dummy t) = some f.top_cache_ref ∧
          s'.caches.offset (.dummy t) = f.cache_offset →
        s'.Good t f (s'.nextPlace f c) ∧ (s'.nextPlace f c).fresh = none := by
      intro s' hbusy hin htop
      unfold nextPlace
      split
      · exact ⟨good_with hbusy hin htop nofun nofun nofun nofun nofun, rfl⟩
      · split
        · exact ⟨good_with hbusy hin htop nofun nofun nofun nofun nofun, rfl⟩
        · refine ⟨good_with hbusy hin htop nofun nofun nofun ?_ nofun, rfl⟩
          rintro c' ⟨⟩ hwrite
          exact if_pos hwrite
    by_cases hc : c = f.top_cache_ref
    · rw [if_pos hc]
      -- the dummy page would have been found
      have hout : .dummy t ∉ s.caches.page_cache_table := by
        intro hin
        exact hnone _ (hc ▸ h.dummy_mem ht hin) (hgood.top hin).2
      have hbase : (s.setDummy t PAGE_STATE_BUSY).Base :=
        ⟨h.base.table, h.base.coherent, h.base.inUse⟩
      obtain ⟨hgood', hfresh⟩ := hnext
        ((s.setDummy t PAGE_STATE_BUSY).insertPage c (.dummy t) f.cache_offset)
        (update_self ..) (mem_cons_self ..)
        ⟨hc ▸ update_self .., update_self ..⟩
      refine ⟨h.go ht (hbase.insert hout nofun c f.cache_offset)
        (frame_insert_dummy s t c f.cache_offset) nofun rfl hgood' ?_, ?_⟩
      · rw [hfresh]
        exact nofun
      · exact fun hone _ => hone.insert h.base.coherent hout hnone
    · rw [if_neg hc]
      have hin := hgood.keeps hc
      obtain ⟨hgood', hfresh⟩ := hnext s (hgood.busy.mpr hin) hin (hgood.top hin)
      refine ⟨h.go ht h.base (Frame.refl s t) nofun rfl hgood' ?_, fun hone _ => hone⟩
      rw [hfresh]
      exact nofun

/-- The page that takes the place of the dummy page. -/
theorem Sound.swap (ht : s.thread t = .running f place)
    (hin : .dummy t ∈ s.caches.page_cache_table) (hp : s.InUse p)
    (hout : .physical p ∉ s.caches.page_cache_table)
    (hs' : s' = (s.dropDummy f.top_cache_ref t).insertPage f.top_cache_ref (.physical p)
      f.cache_offset) :
    s'.Base ∧ s.Frame s' t (some p) ∧ .dummy t ∉ s'.caches.page_cache_table ∧
      s'.dummy_state t = PAGE_STATE_INACTIVE ∧
      (s.caches.OnePerOffset → s'.caches.OnePerOffset) := by
  subst hs'
  have hmem := h.dummy_mem ht hin
  have hbase := h.base.dropDummy hmem
  have hout' : .physical p ∉ (s.dropDummy f.top_cache_ref t).caches.page_cache_table :=
    fun hp => hout (mem_of_mem_erase hp)
  refine ⟨hbase.insert hout' ?_ _ _, (frame_dropDummy s t _).trans (frame_insert hout' _ _), ?_,
    dropDummy_dummy_state s _ t, fun hone => ?_⟩
  · rintro q ⟨⟩
    exact hp
  · intro hdummy
    rcases mem_cons.mp hdummy with heq | hdummy
    · cases heq
    · exact dropDummy_out h.base hdummy
  · -- the dummy page was the only one at the offset
    have hvacated := hone.vacated h.base.coherent hmem
    rw [((h.good t f place ht).top hin).2] at hvacated
    exact (hone.remove _ _).insert hbase.coherent hout' hvacated

theorem Sound.insertBelow (hp : s.InUse p)
    (hout : .physical p ∉ s.caches.page_cache_table)
    (hs' : s' = s.insertPage c (.physical p) f.cache_offset) :
    s'.Base ∧ s.Frame s' t (some p) ∧
      (s.caches.OnePerOffset → s.caches.vm_cache_lookup_page c f.cache_offset = none →
        s'.caches.OnePerOffset) := by
  subst hs'
  refine ⟨h.base.insert hout ?_ _ _, frame_insert hout _ _, fun hone hnone => ?_⟩
  · rintro q ⟨⟩
    exact hp
  · exact hone.insert h.base.coherent hout (h.base.coherent.lookup_none.mp hnone)

theorem read_sound (ht : s.thread t = .running f (.read c))
    (hstep : s.go t f (.read c) = some s') : s.Keeps t s' := by
  have hgood := h.good t f _ ht
  have hin := hgood.keeps trivial
  obtain ⟨⟨p, s₁⟩, ha, rfl⟩ := Option.map_eq_some_iff.mp hstep
  have hal := h.base.allocate (Or.inl rfl) ha
  have hout : .physical p ∉ s.caches.page_cache_table := fun hp => hal.unused (h.base.inUse p hp)
  have hread : ∀ s₂ : VmSystem, s₁.Quiet s₂ →
      s.Keeps t (s₂.setThread t (.running f (.insertRead c p))) := by
    intro s₂ hquiet
    have hcaches := hquiet.caches.trans hal.caches
    refine ⟨h.go ht (hquiet.base hal.base) ((hal.frame t).trans (hquiet.frame t)) nofun
      (hquiet.thread.trans hal.thread) ?_ ?_, fun hone _ => ?_⟩
    · refine good_with ?_ ?_ ?_ nofun ?_ nofun nofun nofun
      · rw [hquiet.dummy_state, hal.dummy_state]
        exact hgood.busy.mpr hin
      · rw [hcaches]
        exact hin
      · rw [hcaches]
        exact hgood.top hin
      · rintro q ⟨⟩
        rw [hcaches]
        exact ⟨hquiet.inUse hal.used, hout⟩
    · rintro q ⟨⟩
      exact Or.inr hal.unused
    · show s₂.caches.OnePerOffset
      rw [hcaches]
      exact hone
  simp only
  split
  · exact hread _ ⟨rfl, rfl, rfl, rfl⟩
  · exact hread _ ⟨rfl, rfl, rfl, rfl⟩

theorem insertRead_sound (ht : s.thread t = .running f (.insertRead c p))
    (hstep : s.go t f (.insertRead c p) = some s') : s.Keeps t s' := by
  have hgood := h.good t f _ ht
  have hin := hgood.keeps trivial
  obtain ⟨hp, hout⟩ := hgood.fresh p rfl
  cases hstep
  by_cases hc : c = f.top_cache_ref
  · subst hc
    rw [if_pos rfl]
    obtain ⟨hbase, hframe, hdummy, hstate, hone⟩ := h.swap ht hin hp hout rfl
    refine ⟨h.go ht hbase hframe ?_ rfl ?_ nofun, fun h' _ => hone h'⟩
    · exact fun q hq => hq
    · refine good_without ?_ hdummy ?_ rfl ?_ rfl
      · rw [hstate]
        exact nofun
      · exact fun hkeeps => hkeeps.2 (update_self ..)
      · rintro q ⟨⟩
        exact mem_cons_self ..
  · rw [if_neg hc]
    obtain ⟨hbase, hframe, hone⟩ := h.insertBelow hp hout rfl
    have hne : vm_page.dummy t ≠ .physical p := nofun
    refine ⟨h.go ht hbase hframe ?_ rfl ?_ nofun, fun h' hsafe => ?_⟩
    · exact fun q hq => hq
    · refine good_with (hgood.busy.mpr hin) (mem_cons_of_mem _ hin) ?_ nofun nofun ?_ nofun nofun
      · simp only [insertPage, VmCaches.vm_cache_insert_page, update_of_ne hne]
        exact hgood.top hin
      · rintro q ⟨⟩
        exact mem_cons_self ..
    · rw [Safe, ht] at hsafe
      exact hone h' (hsafe c rfl hc)

theorem zero_sound (ht : s.thread t = .running f (.zero c))
    (hstep : s.go t f (.zero c) = some s') : s.Keeps t s' := by
  have hgood := h.good t f _ ht
  have hin := hgood.keeps trivial
  obtain ⟨⟨p, s₁⟩, ha, rfl⟩ := Option.map_eq_some_iff.mp hstep
  have hal := h.base.allocate (Or.inr rfl) ha
  have hout : .physical p ∉ s.caches.page_cache_table := fun hp => hal.unused (h.base.inUse p hp)
  refine ⟨h.go ht hal.base (hal.frame t) nofun hal.thread ?_ ?_, fun hone _ => ?_⟩
  · refine good_with ?_ ?_ ?_ nofun ?_ nofun hgood.target nofun
    · rw [hal.dummy_state]
      exact hgood.busy.mpr hin
    · rw [hal.caches]
      exact hin
    · rw [hal.caches]
      exact hgood.top hin
    · rintro q ⟨⟩
      rw [hal.caches]
      exact ⟨hal.used, hout⟩
  · rintro q ⟨⟩
    exact Or.inr hal.unused
  · show s₁.caches.OnePerOffset
    rw [hal.caches]
    exact hone

end

theorem Good.replaceDummy_top (h : s.Good t f place)
    (hin : .dummy t ∈ s.caches.page_cache_table) (p : Nat) :
    s.replaceDummy t f f.top_cache_ref p =
      (s.dropDummy f.top_cache_ref t).insertPage f.top_cache_ref (.physical p) f.cache_offset := by
  rw [replaceDummy, if_pos ⟨h.busy.mpr hin, (h.top hin).1⟩]

theorem Good.replaceDummy_of_ne (h : s.Good t f place)
    (hin : .dummy t ∈ s.caches.page_cache_table) (hc : c ≠ f.top_cache_ref) (p : Nat) :
    s.replaceDummy t f c p = s.insertPage c (.physical p) f.cache_offset := by
  rw [replaceDummy, if_neg]
  rintro ⟨-, href⟩
  exact hc (Option.some.inj (href.symm.trans (h.top hin).1))

theorem insertZero_sound (h : s.Sound) (ht : s.thread t = .running f (.insertZero c p))
    (hstep : s.go t f (.insertZero c p) = some s') : s.Keeps t s' := by
  have hgood := h.good t f _ ht
  have hin := hgood.keeps trivial
  obtain ⟨hp, hout⟩ := hgood.fresh p rfl
  cases hstep
  by_cases hc : c = f.top_cache_ref
  · subst hc
    obtain ⟨hbase, hframe, hdummy, hstate, hone⟩ :=
      h.swap ht hin hp hout (hgood.replaceDummy_top hin p)
    have hidle : (s.replaceDummy t f f.top_cache_ref p).dummy_state t ≠ PAGE_STATE_BUSY := by
      rw [hstate]
      exact nofun
    rw [afterDrop, if_neg hidle]
    refine ⟨h.go ht hbase hframe ?_ ?_ ?_ nofun, fun h' _ => hone h'⟩
    · exact fun q hq => hq
    · rw [hgood.replaceDummy_top hin p]
      rfl
    · refine good_without hidle hdummy ?_ rfl ?_ rfl
      · rw [hgood.replaceDummy_top hin p]
        exact fun hkeeps => hkeeps.2 (update_self ..)
      · rintro q ⟨⟩
        rw [hgood.replaceDummy_top hin p]
        exact mem_cons_self ..
  · rw [hgood.replaceDummy_of_ne hin hc p]
    have hbusy : (s.insertPage c (.physical p) f.cache_offset).dummy_state t = PAGE_STATE_BUSY :=
      hgood.busy.mpr hin
    have hne : vm_page.dummy t ≠ .physical p := nofun
    obtain ⟨hbase, hframe, hone⟩ := h.insertBelow hp hout rfl
    rw [afterDrop, if_pos hbusy]
    refine ⟨h.go ht hbase hframe ?_ rfl ?_ nofun, fun h' hsafe => ?_⟩
    · exact fun q hq => hq
    · refine good_with hbusy (mem_cons_of_mem _ hin) ?_ nofun nofun ?_ nofun ?_
      · simp only [insertPage, VmCaches.vm_cache_insert_page, update_of_ne hne]
        exact hgood.top hin
      · rintro q ⟨⟩
        exact mem_cons_self ..
      · exact fun _ _ hwrite => hc (hgood.target c rfl hwrite)
    · rw [Safe, ht] at hsafe
      exact hone h' (hsafe c rfl hc)

/-- The dummy page is dropped on its own. -/
theorem Sound.dropTemp (h : s.Sound) {place place' : Place} (ht : s.thread t = .running f place)
    (hkeeps : place.KeepsDummy s f) (hplace : place.fresh = none ∧ place'.fresh = none)
    (htarget : place'.target = none) (hcached : place'.cached = place.cached)
    (hkeeps' : ¬ place'.KeepsDummy (s.dropTemp t) f) :
    s.Keeps t ((s.dropTemp t).setThread t (.running f place')) := by
  have hgood := h.good t f _ ht
  have hin := hgood.keeps hkeeps
  have heq : s.dropTemp t = s.dropDummy f.top_cache_ref t := by
    rw [VmSystem.dropTemp, (hgood.top hin).1]
  rw [heq] at hkeeps' ⊢
  refine ⟨h.go ht (h.base.dropDummy (h.dummy_mem ht hin)) (frame_dropDummy s t _) nofun rfl ?_ ?_,
    fun hone _ => hone.remove _ _⟩
  · refine good_without ?_ (dropDummy_out h.base) hkeeps' hplace.2 ?_ htarget
    · rw [dropDummy_dummy_state]
      exact nofun
    · intro q hq
      have hmem := hgood.cached q (hcached ▸ hq)
      have hne : vm_page.physical q ≠ .dummy t := nofun
      exact (mem_erase_of_ne hne).mpr hmem
  · rw [hplace.2]
    exact nofun

theorem found_sound (h : s.Sound) (ht : s.thread t = .running f (.found p))
    (hstep : s.go t f (.found p) = some s') : s.Keeps t s' := by
  have hgood := h.good t f _ ht
  have hcached := hgood.cached p rfl
  unfold go at hstep
  by_cases hcopy : s.caches.cache_ref (.physical p) ≠ some f.top_cache_ref ∧ f.is_write
  · simp only [if_pos hcopy] at hstep
    have hin := hgood.keeps hcopy.symm
    obtain ⟨⟨q, s₁⟩, ha, rfl⟩ := Option.map_eq_some_iff.mp hstep
    have hal := h.base.allocate (Or.inl rfl) ha
    have hout : .physical q ∉ s.caches.page_cache_table := fun hq => hal.unused (h.base.inUse q hq)
    have hquiet : s₁.Quiet (s₁.setContents q (s₁.contents p)) := ⟨rfl, rfl, rfl, rfl⟩
    have hp : (s₁.setContents q (s₁.contents p)).InUse p := hal.inUse p (h.base.inUse p hcached)
    have hbase : ((s₁.setContents q (s₁.contents p)).vm_page_set_state p PAGE_STATE_ACTIVE).Base :=
      (hquiet.base hal.base).set_state hp nofun nofun
    have hframe : s.Frame ((s₁.setContents q (s₁.contents p)).vm_page_set_state p
        PAGE_STATE_ACTIVE) t none :=
      ((hal.frame t).trans (hquiet.frame t)).trans (frame_set_state nofun nofun)
    refine ⟨h.go ht hbase hframe nofun hal.thread ?_ ?_, fun hone _ => ?_⟩
    · refine good_with ?_ ?_ ?_ nofun ?_ nofun nofun nofun
      · show s₁.dummy_state t = _
        rw [hal.dummy_state]
        exact hgood.busy.mpr hin
      · show .dummy t ∈ s₁.caches.page_cache_table
        rw [hal.caches]
        exact hin
      · show s₁.caches.cache_ref (.dummy t) = _ ∧ s₁.caches.offset (.dummy t) = _
        rw [hal.caches]
        exact hgood.top hin
      · rintro q' ⟨⟩
        have hq : (s₁.setContents q (s₁.contents p)).InUse q := hal.used
        refine ⟨@inUse_set_state _ p PAGE_STATE_ACTIVE nofun nofun q hq, ?_⟩
        show .physical q ∉ s₁.caches.page_cache_table
        rw [hal.caches]
        exact hout
    · rintro q' ⟨⟩
      exact Or.inr hal.unused
    · show s₁.caches.OnePerOffset
      rw [hal.caches]
      exact hone
  · simp only [if_neg hcopy] at hstep
    cases hstep
    refine ⟨h.go ht h.base (Frame.refl s t) nofun rfl ?_ nofun, fun hone _ => hone⟩
    exact ⟨hgood.busy, hgood.top, nofun, nofun, nofun, hgood.cached, nofun, nofun⟩

theorem insertCopy_sound (h : s.Sound) (ht : s.thread t = .running f (.insertCopy p))
    (hstep : s.go t f (.insertCopy p) = some s') : s.Keeps t s' := by
  have hgood := h.good t f _ ht
  have hin := hgood.keeps trivial
  obtain ⟨hp, hout⟩ := hgood.fresh p rfl
  cases hstep
  obtain ⟨hbase, hframe, hdummy, hstate, hone⟩ :=
    h.swap ht hin hp hout (hgood.replaceDummy_top hin p)
  have hidle : (s.replaceDummy t f f.top_cache_ref p).dummy_state t ≠ PAGE_STATE_BUSY := by
    rw [hstate]
    exact nofun
  rw [afterDrop, if_neg hidle]
  refine ⟨h.go ht hbase hframe ?_ ?_ ?_ nofun, fun h' _ => hone h'⟩
  · exact fun q hq => hq
  · rw [hgood.replaceDummy_top hin p]
    rfl
  · refine good_without hidle hdummy nofun rfl ?_ rfl
    rintro q ⟨⟩
    rw [hgood.replaceDummy_top hin p]
    exact mem_cons_self ..

theorem quiet_mapPage (s : VmSystem) (f : Fault) (p : Nat) : s.Quiet (s.mapPage f p).2 := by
  unfold mapPage
  split
  · exact ⟨rfl, rfl, rfl, rfl⟩
  · exact ⟨rfl, rfl, rfl, rfl⟩

theorem map_sound (h : s.Sound) (ht : s.thread t = .running f (.map p))
    (hstep : s.go t f (.map p) = some s') : s.Keeps t s' := by
  have hgood := h.good t f _ ht
  have hquiet := s.quiet_mapPage f p
  have hs' : s' = (s.mapPage f p).2.setThread t (.running f ((s.mapPage f p).2.afterDrop t
      (.dropMapped p (s.mapPage f p).1) (.activate p (s.mapPage f p).1))) :=
    (Option.some.inj hstep).symm
  rw [hs']
  have hcached : .physical p ∈ (s.mapPage f p).2.caches.page_cache_table := by
    rw [hquiet.caches]
    exact hgood.cached p rfl
  have hplace : ∀ place', place'.fresh = none → (s.mapPage f p).2.Good t f place' →
      s.Keeps t ((s.mapPage f p).2.setThread t (.running f place')) := by
    intro place' hfresh hgood'
    refine ⟨h.go ht (hquiet.base h.base) (hquiet.frame t) nofun hquiet.thread hgood' ?_,
      fun hone _ => ?_⟩
    · rw [hfresh]
      exact nofun
    · show (s.mapPage f p).2.caches.OnePerOffset
      rw [hquiet.caches]
      exact hone
  unfold afterDrop
  by_cases hbusy : s.dummy_state t = PAGE_STATE_BUSY
  · have hin := hgood.busy.mp hbusy
    rw [← hquiet.dummy_state] at hbusy
    rw [if_pos hbusy]
    refine hplace _ rfl (good_with hbusy ?_ ?_ nofun nofun ?_ nofun nofun)
    · rw [hquiet.caches]
      exact hin
    · rw [hquiet.caches]
      exact hgood.top hin
    · rintro q ⟨⟩
      exact hcached
  · have hout := fun hin => hbusy (hgood.busy.mpr hin)
    rw [← hquiet.dummy_state] at hbusy
    rw [if_neg hbusy]
    refine hplace _ rfl (good_without hbusy ?_ nofun rfl ?_ rfl)
    · rw [hquiet.caches]
      exact hout
    · rintro q ⟨⟩
      exact hcached

theorem activate_sound (h : s.Sound) {err : Option FaultError}
    (ht : s.thread t = .running f (.activate p err))
    (hstep : s.go t f (.activate p err) = some s') : s.Keeps t s' := by
  have hgood := h.good t f _ ht
  cases hstep
  have hbase : (s.vm_page_set_state p PAGE_STATE_ACTIVE).Base :=
    h.base.set_state (h.base.inUse p (hgood.cached p rfl)) nofun nofun
  have hframe : s.Frame (s.vm_page_set_state p PAGE_STATE_ACTIVE) t none :=
    frame_set_state nofun nofun
  exact ⟨h.setThread hbase hframe nofun rfl nofun nofun fun _ _ => hgood.dropped p err rfl,
    fun hone _ => hone⟩

/-- Every step of a call keeps the invariant. -/
theorem go_sound (h : s.Sound) (ht : s.thread t = .running f place)
    (hstep : s.go t f place = some s') : s.Keeps t s' := by
  cases place with
  | search c => exact search_sound h ht hstep
  | read c => exact read_sound h ht hstep
  | insertRead c p => exact insertRead_sound h ht hstep
  | zero c => exact zero_sound h ht hstep
  | insertZero c p => exact insertZero_sound h ht hstep
  | dropZero p =>
    cases hstep
    refine h.dropTemp ht trivial ⟨rfl, rfl⟩ rfl rfl ?_
    exact fun hkeeps => (h.good t f _ ht).reads p rfl hkeeps.1
  | found p => exact found_sound h ht hstep
  | insertCopy p => exact insertCopy_sound h ht hstep
  | dropCopy p =>
    cases hstep
    exact h.dropTemp ht trivial ⟨rfl, rfl⟩ rfl rfl nofun
  | map p => exact map_sound h ht hstep
  | dropMapped p err =>
    cases hstep
    exact h.dropTemp ht trivial ⟨rfl, rfl⟩ rfl rfl nofun
  | activate p err => exact activate_sound h ht hstep

/-! ## Every run -/

theorem Sound.startSearch (h : s.Sound) (hout : .dummy t ∉ s.caches.page_cache_table)
    (hquiet : s.Quiet s') : ((s'.setDummy t PAGE_STATE_INACTIVE).setThread t
      (.running f (.search f.top_cache_ref))).Sound := by
  have hout' : .dummy t ∉ s'.caches.page_cache_table := by
    rw [hquiet.caches]
    exact hout
  have hbase := hquiet.base h.base
  have hbase' : (s'.setDummy t PAGE_STATE_INACTIVE).Base :=
    ⟨hbase.table, hbase.coherent, hbase.inUse⟩
  have hframe : s'.Frame (s'.setDummy t PAGE_STATE_INACTIVE) t none :=
    { Frame.refl s' t with dummy_state := fun t' ht' => update_of_ne ht' .. }
  refine h.setThread hbase' ((hquiet.frame t).trans hframe) nofun hquiet.thread ?_ nofun nofun
  rintro f' place ⟨⟩
  refine good_without ?_ hout' (fun hne => hne rfl) rfl nofun rfl
  show update s'.dummy_state t PAGE_STATE_INACTIVE t ≠ _
  rw [update_self]
  exact nofun

/-- A call begins. -/
theorem begin_sound (h : s.Sound) {err : Option FaultError} (ht : s.thread t = .returned err)
    {address : addr} {is_write is_user : Bool}
    (hstep : s.vm_soft_fault t address is_write is_user = some s') :
    s'.Sound ∧ s'.caches = s.caches := by
  have hout : .dummy t ∉ s.caches.page_cache_table := by
    intro hin
    obtain ⟨f, place, hrunning⟩ := h.running t hin
    rw [ht] at hrunning
    cases hrunning
  have hreturn : ∀ (s₁ : VmSystem) (err : Option FaultError), s.Quiet s₁ →
      (s₁.setThread t (.returned err)).Sound ∧ (s₁.setThread t (.returned err)).caches = s.caches := by
    intro s₁ err hquiet
    refine ⟨h.setThread (hquiet.base h.base) (hquiet.frame t) nofun hquiet.thread nofun nofun ?_,
      hquiet.caches⟩
    rw [hquiet.caches]
    exact fun _ _ => hout
  obtain ⟨choice, -, rfl⟩ := Option.map_eq_some_iff.mp hstep
  cases choice with
  | error err => exact hreturn s (some err) ⟨rfl, rfl, rfl, rfl⟩
  | ok a =>
    simp only [beginFault]
    split
    · exact hreturn _ _ ⟨rfl, rfl, rfl, rfl⟩
    · split
      · exact hreturn _ _ ⟨rfl, rfl, rfl, rfl⟩
      · split
        · exact hreturn _ _ ⟨rfl, rfl, rfl, rfl⟩
        · split
          · rename_i hfault
            unfold fault at hfault
            split at hfault
            · cases hfault
              exact hreturn _ _ ⟨rfl, rfl, rfl, rfl⟩
            · cases hfault
              exact hreturn _ _ ⟨rfl, rfl, rfl, rfl⟩
            · cases hfault
          · exact ⟨h.startSearch hout ⟨rfl, rfl, rfl, rfl⟩, rfl⟩

theorem Idle.sound (h : s.Idle) : s.Sound := by
  have hphysical : ∀ t, .dummy t ∉ s.caches.page_cache_table := by
    intro t hin
    obtain ⟨p, hp, -⟩ := h.physical _ hin
    cases hp
  refine ⟨⟨h.table, h.coherent, fun p hp => ?_⟩, fun t hin => absurd hin (hphysical t), ?_, ?_⟩
  · obtain ⟨p', ⟨⟩, hinUse⟩ := h.physical _ hp
    exact hinUse
  · intro t f place ht
    obtain ⟨err, hreturned⟩ := h.returned t
    rw [hreturned] at ht
    cases ht
  · intro t t' _ p hp
    obtain ⟨err, hreturned⟩ := h.returned t
    rw [hreturned] at hp
    cases hp

theorem step_sound (h : s.Sound) {a : FaultAction} (hstep : s.step a = some s') :
    s'.Sound ∧ (s.caches.OnePerOffset → s.Safe a → s'.caches.OnePerOffset) := by
  unfold step at hstep
  split at hstep
  · split at hstep
    · rename_i t address is_write is_user err ht
      obtain ⟨hsound, hcaches⟩ := begin_sound h ht hstep
      refine ⟨hsound, fun hone _ => ?_⟩
      rw [hcaches]
      exact hone
    · cases hstep
  · split at hstep
    · cases hstep
    · rename_i t f place ht
      exact go_sound h ht hstep

theorem run_sound {ok : VmSystem → FaultAction → Prop} (h : By Idle ok Step s) : s.Sound :=
  h.invariant Sound (fun _ hidle => hidle.sound) fun _ _ _ hsound _ hstep =>
    (step_sound hsound hstep).1

theorem run_onePerOffset (h : By Idle Safe Step s) : s.caches.OnePerOffset := by
  refine (h.invariant (fun s => s.Sound ∧ s.caches.OnePerOffset) ?_ ?_).2
  · exact fun s hidle => ⟨hidle.sound, hidle.onePerOffset⟩
  · rintro s a s' ⟨hsound, hone⟩ hsafe hstep
    obtain ⟨hsound', hone'⟩ := step_sound hsound hstep
    exact ⟨hsound', hone' hone hsafe⟩

theorem no_dummy_left {ok : VmSystem → FaultAction → Prop} (h : By Idle ok Step s)
    (hreturned : ∀ t, ∃ err, s.thread t = .returned err) (t : Nat) :
    .dummy t ∉ s.caches.page_cache_table ∧ ∀ c, .dummy t ∉ s.caches.page_list c := by
  have hsound := run_sound h
  have hout : .dummy t ∉ s.caches.page_cache_table := by
    intro hin
    obtain ⟨f, place, ht⟩ := hsound.running t hin
    obtain ⟨err, ht'⟩ := hreturned t
    rw [ht] at ht'
    cases ht'
  exact ⟨hout, fun c hin => hout ((hsound.base.coherent.mem_page_list c _).mp hin).1⟩

end VmSystem

open VmSystem in
/-- In every run of safe steps, no cache has two pages at one offset, and when all calls have
returned, no dummy page is left. -/
theorem one_page_per_offset {s : VmSystem} (h : By Idle Safe Step s) :
    s.caches.OnePerOffset ∧ ((∀ t, ∃ err, s.thread t = .returned err) →
      ∀ t, .dummy t ∉ s.caches.page_cache_table ∧ ∀ c, .dummy t ∉ s.caches.page_list c) :=
  ⟨run_onePerOffset h, no_dummy_left h⟩

/-- A page of cache 0, or of a cache above it. -/
def topRegion (cache_ref : Nat) : mapped_region where
  base := USER_BASE
  size := 4096
  lock := LOCK_RW
  cache_ref := cache_ref
  cache_offset := 0

/-- All caches have cache 0 as their source, and each thread is in an address space of its own with
the region on the cache of its number. -/
def sharedCache : VmSystem where
  table := twoPages.vm_page_init
  contents := fun _ => PageContents.clear
  caches := ⟨fun _ => [], fun _ => none, fun _ => 0, []⟩
  cache := fun c => ⟨if c = 0 then none else some 0, .anonymous, []⟩
  aspace := fun a => ⟨[topRegion a], none, 0, fun _ => none⟩
  kernel_aspace := 0
  user_aspace := some
  dummy_state := fun _ => PAGE_STATE_INACTIVE
  thread := fun _ => .returned none

theorem sharedCache_idle : sharedCache.Idle := by
  refine ⟨fun _ => ⟨none, rfl⟩, ⟨[], twoPages.init_sound (by decide)⟩, ?_, nofun, nofun⟩
  exact ⟨fun c page => iff_of_false nofun fun h => absurd h.1 nofun, nofun, nodup_nil,
    fun _ => nodup_nil⟩

/-- A read fault on a cache above cache 0, from its beginning to its end. -/
def readFault : List VmSystem.FaultAction :=
  [.vm_soft_fault 1 USER_BASE false true, .go 1, .go 1, .go 1, .go 1, .go 1, .go 1, .go 1, .go 1]

open VmSystem in
theorem one_page_per_offset_read :
    ∃ s, By Idle Safe Step s ∧ s.caches.page_list 0 = [.physical 0] ∧ s.caches.OnePerOffset := by
  have hrun : (exec (guarded Safe step) readFault sharedCache).map (fun s => s.caches.page_list 0) =
      some [.physical 0] := by rfl
  obtain ⟨s, hexec, hpages⟩ := Option.map_eq_some_iff.mp hrun
  have hs : By Idle Safe Step s :=
    By.exec (fun _ _ _ => guarded_some) readFault (.init sharedCache_idle) hexec
  exact ⟨s, hs, hpages, (one_page_per_offset hs).1⟩

/-- Two read faults that both miss in cache 0 before either inserts a page. -/
def twoReadFaults : List VmSystem.FaultAction :=
  [.vm_soft_fault 1 USER_BASE false true, .vm_soft_fault 2 USER_BASE false true,
    .go 1, .go 1, .go 2, .go 2, .go 1, .go 2, .go 1, .go 2]

open VmSystem in
/-- Both insert a page at the same offset of cache 0. -/
theorem two_pages_per_offset : ¬ ∀ s, By Idle (fun _ _ => True) Step s → s.caches.OnePerOffset := by
  intro hone
  have hrun : (exec step twoReadFaults sharedCache).map (fun s =>
      (s.caches.page_list 0, s.caches.offset (.physical 0), s.caches.offset (.physical 1))) =
        some ([.physical 1, .physical 0], 0, 0) := by rfl
  obtain ⟨s, hexec, hs⟩ := Option.map_eq_some_iff.mp hrun
  obtain ⟨hpages, hoffsets⟩ := Prod.mk.inj hs
  obtain ⟨h₀, h₁⟩ := Prod.mk.inj hoffsets
  have hreached : By Idle (fun _ _ => True) Step s :=
    By.exec (fun _ _ _ h => ⟨trivial, h⟩) twoReadFaults (.init sharedCache_idle) hexec
  have hsame := hone s hreached 0 (.physical 0) (by rw [hpages]; simp) (.physical 1)
    (by rw [hpages]; simp) (h₀.trans h₁.symm)
  cases hsame

end Kernel
