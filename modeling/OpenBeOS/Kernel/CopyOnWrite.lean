import OpenBeOS.Kernel.SoftFaultRun

/-! # Copy on write gives the right contents

What a page fault maps if no other thread runs. `nearest` is what the caches of a chain have at an
offset, and `Along` what holds at each place of the call.
-/

namespace Kernel

open PageState Reachable Chain Function

namespace VmSystem

/-! ## The contents of a chain -/

/-- What a cache has at an offset, of its own or from its store. The inner `none` is a page that the
store fails to read. -/
def ownContents (s : VmSystem) (offset : off_t) (c : Nat) : Option (Option PageContents) :=
  match s.caches.vm_cache_lookup_page c offset with
  | some (.physical page) => some (some (s.contents page))
  | some (.dummy _) => none
  | none => if (s.cache c).store.has_page then some ((s.cache c).store.read offset) else none

/-- What the first cache of the chain that has a page has there, or zeros. -/
def nearest (s : VmSystem) (offset : off_t) (chain : List Nat) : Option PageContents :=
  (chain.findSome? (s.ownContents offset)).getD (some PageContents.clear)

def source (s : VmSystem) (c : Nat) : Option Nat := (s.cache c).source

/-- The pages of the clear queue hold zeros. -/
def ClearPages (s : VmSystem) : Prop :=
  ∀ page, s.table.state page = PAGE_STATE_CLEAR → s.contents page = PageContents.clear

/-- The states a call gets to on its own. -/
def Alone (s₀ : VmSystem) (t : Nat) (address : addr) (is_write is_user : Bool) : VmSystem → Prop :=
  By (fun s => s₀.vm_soft_fault t address is_write is_user = some s) (fun _ (_ : Unit) => True)
    fun s _ s' => s.Step (.go t) s'

/-- The page is mapped at the address, with what the chain had; on a write it is a page of the top
cache, and on a read of a page below it, the mapping is not writable. No other page has changed. -/
structure Maps (s₀ s : VmSystem) (f : Fault) (chain : List Nat) (page : Nat) (lock : BitVec 32) :
    Prop where
  mapped : (s.aspace f.aspace).translation_map f.address = some (s.table.paddr page, lock)
  cached : .physical page ∈ s.caches.page_cache_table
  contents : ∀ x, s₀.nearest f.cache_offset chain = some x → s.contents page = x
  kept : ∀ p, .physical p ∈ s₀.caches.page_cache_table → s.contents p = s₀.contents p
  write : f.is_write → s.caches.cache_ref (.physical page) = some f.top_cache_ref
  read : ¬ f.is_write → s.caches.cache_ref (.physical page) ≠ some f.top_cache_ref →
    lock &&& LOCK_RW = 0

/-- The variables of a call in a region. -/
def newFault (s : VmSystem) (a : Nat) (address : addr) (is_write : Bool) (region : mapped_region) :
    Fault where
  aspace := a
  address := address
  is_write := is_write
  region := region
  cache_offset := (address - region.base).setWidth 64 + region.cache_offset
  change_count := (s.aspace a).change_count

/-! ## The places of the call -/

variable {s₀ s s' : VmSystem} {t : Nat} {f : Fault} {chain : List Nat} {c page : Nat}

/-- The page has what the chain had, and no page that was in a cache has changed. -/
structure Carries (s₀ s : VmSystem) (f : Fault) (chain : List Nat) (page : Nat) : Prop where
  contents : ∀ x, s₀.nearest f.cache_offset chain = some x → s.contents page = x
  kept : ∀ p, .physical p ∈ s₀.caches.page_cache_table → s.contents p = s₀.contents p

/-- The search has come to a cache, and finds from there on what was there at first. -/
def Searching (s₀ s : VmSystem) (f : Fault) (chain : List Nat) (c : Nat) : Prop :=
  ∃ rest, Leads s₀.source (some c) (c :: rest) none ∧
    s₀.nearest f.cache_offset chain = s₀.nearest f.cache_offset (c :: rest) ∧
    ∀ c' ∈ c :: rest, s.caches.vm_cache_lookup_page c' f.cache_offset =
      s₀.caches.vm_cache_lookup_page c' f.cache_offset

/-- What holds at a place, about the contents. -/
def At (s₀ s : VmSystem) (f : Fault) (chain : List Nat) : Place → Prop
  | .search c => s.table = s₀.table ∧ s.contents = s₀.contents ∧ s₀.Searching s f chain c
  | .read c => s.table = s₀.table ∧ s.contents = s₀.contents ∧
      s₀.nearest f.cache_offset chain = (s₀.cache c).store.read f.cache_offset
  | .zero _ => s.table = s₀.table ∧ s.contents = s₀.contents ∧
      s₀.nearest f.cache_offset chain = some PageContents.clear
  | .insertRead _ page => s₀.Carries s f chain page
  | .insertZero _ page => s₀.Carries s f chain page
  | .dropZero page => s₀.Carries s f chain page
  | .found page => s₀.Carries s f chain page
  | .insertCopy page => s₀.Carries s f chain page
  | .dropCopy page => s₀.Carries s f chain page ∧
      (f.is_write → s.caches.cache_ref (.physical page) = some f.top_cache_ref)
  | .map page => s₀.Carries s f chain page ∧
      (f.is_write → s.caches.cache_ref (.physical page) = some f.top_cache_ref)
  | .dropMapped page err => err = none → ∃ lock, s₀.Maps s f chain page lock
  | .activate page err => err = none → ∃ lock, s₀.Maps s f chain page lock

/-- What holds along the call. -/
structure Along (s₀ s : VmSystem) (f : Fault) (chain : List Nat) (place : Place) : Prop where
  cache : s.cache = s₀.cache
  change_count : (s.aspace f.aspace).change_count = f.change_count
  stays : ∀ p, .physical p ∈ s₀.caches.page_cache_table → .physical p ∈ s.caches.page_cache_table
  place : s₀.At s f chain place

/-! ### Going on -/

theorem nearest_cons_some {offset : off_t} {x : Option PageContents} {rest : List Nat}
    (h : s.ownContents offset c = some x) : s.nearest offset (c :: rest) = x := by
  rw [nearest, List.findSome?_cons, h]
  rfl

theorem nearest_cons_none {offset : off_t} {rest : List Nat}
    (h : s.ownContents offset c = none) : s.nearest offset (c :: rest) = s.nearest offset rest := by
  rw [nearest, List.findSome?_cons, h]
  rfl

/-- What a thread has got to along the call. -/
def Course (s₀ s : VmSystem) (f : Fault) (chain : List Nat) : FaultThread → Prop
  | .running f' place => f' = f ∧ s₀.Along s f chain place
  | .returned err => err = none → ∃ page lock, s₀.Maps s f chain page lock

theorem Maps.congr {lock : BitVec 32} (h : s₀.Maps s f chain page lock)
    (hmapped : (s'.aspace f.aspace).translation_map f.address = some (s'.table.paddr page, lock))
    (hcached : .physical page ∈ s'.caches.page_cache_table) (hcontents : s'.contents = s.contents)
    (hcache_ref : s'.caches.cache_ref (.physical page) = s.caches.cache_ref (.physical page)) :
    s₀.Maps s' f chain page lock := by
  refine ⟨hmapped, hcached, ?_, ?_, ?_, ?_⟩
  · rw [hcontents]
    exact h.contents
  · rw [hcontents]
    exact h.kept
  · rw [hcache_ref]
    exact h.write
  · rw [hcache_ref]
    exact h.read

theorem Carries.congr (h : s₀.Carries s f chain page) (hcontents : s'.contents = s.contents) :
    s₀.Carries s' f chain page := by
  constructor
  · rw [hcontents]
    exact h.contents
  · rw [hcontents]
    exact h.kept

variable {place : Place}

theorem Along.setThread (h : s₀.Along s f chain place) (t : Nat) (x : FaultThread) :
    s₀.Along (s.setThread t x) f chain place := by
  refine ⟨h.cache, h.change_count, h.stays, ?_⟩
  have hplace := h.place
  cases place with
  | search c | read c | zero c => exact hplace
  | insertRead c page | insertZero c page | dropZero page | found page | insertCopy page =>
    exact hplace.congr rfl
  | dropCopy page | map page => exact ⟨hplace.1.congr rfl, hplace.2⟩
  | dropMapped page err | activate page err =>
    intro herr
    obtain ⟨lock, hmaps⟩ := hplace herr
    exact ⟨lock, hmaps.congr hmaps.mapped hmaps.cached rfl rfl⟩

theorem Along.go (h : s₀.Along s f chain place) :
    s₀.Course (s.setThread t (.running f place)) f chain
      ((s.setThread t (.running f place)).thread t) := by
  rw [show (s.setThread t (.running f place)).thread t = .running f place from
    update_self ..]
  exact ⟨rfl, h.setThread t _⟩

theorem Along.old_ne (h : s₀.Along s f chain place) (hs : s.Sound)
    {page_state : PageState} (hal : s.Allocated page_state page s') {p : Nat}
    (hp : .physical p ∈ s₀.caches.page_cache_table) : p ≠ page := by
  rintro rfl
  exact hal.unused (hs.base.inUse p (h.stays p hp))

/-! ### The search -/

theorem along_search (hidle : s₀.Idle) (hs : s.Sound) (ht : s.thread t = .running f (.search c))
    (h : s₀.Along s f chain (.search c)) (hstep : s.searchCache t f c = some s') :
    s₀.Course s' f chain (s'.thread t) := by
  obtain ⟨htable, hcontents, rest, hleads, hnearest, hlookup⟩ := h.place
  have hc := hlookup c (List.mem_cons_self ..)
  unfold searchCache at hstep
  rw [hc] at hstep
  cases hfound : s₀.caches.vm_cache_lookup_page c f.cache_offset with
  | some x =>
    obtain ⟨hx, -⟩ := hidle.coherent.lookup_some hfound
    obtain ⟨p, rfl, -⟩ := hidle.physical x ((hidle.coherent.mem_page_list c x).mp hx).1
    simp only [hfound] at hstep
    split at hstep
    · cases hstep
      rw [ht]
      exact ⟨rfl, h⟩
    · cases hstep
      have hown : s₀.ownContents f.cache_offset c = some (some (s₀.contents p)) := by
        rw [ownContents, hfound]
      have hcarries : s₀.Carries s f chain p := by
        rw [nearest_cons_some hown] at hnearest
        refine ⟨fun x hx => ?_, fun p _ => congrFun hcontents p⟩
        rw [hnearest] at hx
        rw [hcontents]
        exact Option.some.inj hx
      have hnext : s₀.Along (s.vm_page_set_state p PAGE_STATE_BUSY) f chain (.found p) :=
        ⟨h.cache, h.change_count, h.stays, hcarries.congr rfl⟩
      exact hnext.go
  | none =>
    simp only [hfound] at hstep
    cases hstep
    have hnext : ∀ s₁ : VmSystem, s₁.table = s.table → s₁.contents = s.contents →
        s₁.cache = s.cache → s₁.aspace = s.aspace →
        (∀ p, .physical p ∈ s.caches.page_cache_table → .physical p ∈ s₁.caches.page_cache_table) →
        (∀ c' ∈ rest, s₁.caches.vm_cache_lookup_page c' f.cache_offset =
          s.caches.vm_cache_lookup_page c' f.cache_offset) →
        s₀.Along s₁ f chain (s₁.nextPlace f c) := by
      intro s₁ htable₁ hcontents₁ hcache₁ haspace₁ hstays₁ hlookup₁
      have hcache : s₁.cache = s₀.cache := hcache₁.trans h.cache
      refine ⟨hcache, ?_, fun p hp => hstays₁ p (h.stays p hp), ?_⟩
      · rw [haspace₁]
        exact h.change_count
      · unfold nextPlace
        rw [hcache]
        split
        · rename_i hhas
          have hown : s₀.ownContents f.cache_offset c =
              some ((s₀.cache c).store.read f.cache_offset) := by
            rw [ownContents, hfound]
            exact if_pos hhas
          exact ⟨htable₁.trans htable, hcontents₁.trans hcontents,
            hnearest.trans (nearest_cons_some hown)⟩
        · rename_i hhas
          have hown : s₀.ownContents f.cache_offset c = none := by
            rw [ownContents, hfound]
            exact if_neg hhas
          have hleads' := hleads.2
          split
          · -- the next cache is the source
            rename_i c' hsource
            obtain rfl | ⟨c₁, rest', rfl⟩ : rest = [] ∨ ∃ c₁ rest', rest = c₁ :: rest' := by
              cases rest with
              | nil => exact Or.inl rfl
              | cons c₁ rest' => exact Or.inr ⟨c₁, rest', rfl⟩
            · rw [source, hsource] at hleads'
              cases hleads'
            · obtain rfl : c' = c₁ := Option.some.inj (hsource.symm.trans hleads'.1)
              refine ⟨htable₁.trans htable, hcontents₁.trans hcontents, rest', ?_, ?_, ?_⟩
              · exact ⟨rfl, hleads'.2⟩
              · exact hnearest.trans (nearest_cons_none hown)
              · intro c₂ hc₂
                exact (hlookup₁ c₂ hc₂).trans (hlookup c₂ (List.mem_cons_of_mem _ hc₂))
          · -- the end of the chain
            rename_i hsource
            rw [source, hsource] at hleads'
            obtain rfl : rest = [] := by
              cases rest with
              | nil => rfl
              | cons c₁ rest' => exact absurd hleads'.1 nofun
            exact ⟨htable₁.trans htable, hcontents₁.trans hcontents,
              hnearest.trans (nearest_cons_none hown)⟩
    by_cases htop : c = f.top_cache_ref
    · rw [if_pos htop]
      have hout : .dummy t ∉ s.caches.page_cache_table := by
        intro hin
        have hmem := hs.dummy_mem ht hin
        rw [← htop] at hmem
        exact hs.base.coherent.lookup_none.mp (hc.trans hfound) _ hmem ((hs.good t f _ ht).top hin).2
      refine (hnext ((s.setDummy t PAGE_STATE_BUSY).insertPage c (.dummy t) f.cache_offset) rfl rfl
        rfl rfl (fun p hp => List.mem_cons_of_mem _ hp) fun c' hc' => ?_).go
      have hne : c' ≠ c := by
        rintro rfl
        exact hleads.head_notMem hc'
      exact VmCaches.lookup_insert_of_ne hne hout _ _
    · rw [if_neg htop]
      exact (hnext s rfl rfl rfl rfl (fun _ hp => hp) fun _ _ => rfl).go

/-! ### The page -/

theorem along_read (hs : s.Sound) (h : s₀.Along s f chain (.read c))
    (hstep : s.go t f (.read c) = some s') : s₀.Course s' f chain (s'.thread t) := by
  obtain ⟨-, hcontents, hnearest⟩ := h.place
  obtain ⟨⟨p, s₁⟩, ha, rfl⟩ := Option.map_eq_some_iff.mp hstep
  have hal := hs.base.allocate (Or.inl rfl) ha
  have hstays : ∀ q, .physical q ∈ s₀.caches.page_cache_table →
      .physical q ∈ s₁.caches.page_cache_table := by
    rw [hal.caches]
    exact h.stays
  have hchange : (s₁.aspace f.aspace).change_count = f.change_count := by
    rw [hal.aspace]
    exact h.change_count
  have hcache : s₁.cache = s₀.cache := hal.cache.trans h.cache
  have hkept : ∀ q, .physical q ∈ s₀.caches.page_cache_table → s₁.contents q = s₀.contents q := by
    intro q hq
    rw [hal.contents q (h.old_ne hs hal hq), hcontents]
  simp only
  split
  · rename_i x hread
    have hnext : s₀.Along (s₁.setContents p x) f chain (.insertRead c p) := by
      refine ⟨hcache, hchange, hstays, fun y hy => ?_, fun q hq => ?_⟩
      · rw [hcache] at hread
        rw [hnearest, hread] at hy
        exact (update_self ..).trans (Option.some.inj hy)
      · exact (update_of_ne (h.old_ne hs hal hq) ..).trans (hkept q hq)
    exact hnext.go
  · rename_i hread
    have hnext : s₀.Along s₁ f chain (.insertRead c p) := by
      refine ⟨hcache, hchange, hstays, fun y hy => ?_, hkept⟩
      rw [hcache] at hread
      rw [hnearest, hread] at hy
      cases hy
    exact hnext.go

theorem along_zero (hclear : s₀.ClearPages) (hs : s.Sound) (h : s₀.Along s f chain (.zero c))
    (hstep : s.go t f (.zero c) = some s') : s₀.Course s' f chain (s'.thread t) := by
  obtain ⟨htable, hcontents, hnearest⟩ := h.place
  obtain ⟨⟨p, s₁⟩, ha, rfl⟩ := Option.map_eq_some_iff.mp hstep
  have hal := hs.base.allocate (Or.inr rfl) ha
  have hnext : s₀.Along s₁ f chain (.insertZero c p) := by
    refine ⟨hal.cache.trans h.cache, ?_, ?_, fun y hy => ?_, fun q hq => ?_⟩
    · rw [hal.aspace]
      exact h.change_count
    · rw [hal.caches]
      exact h.stays
    · rw [hnearest] at hy
      cases hy
      rcases hal.clear rfl with hzero | ⟨hstate, hsame⟩
      · exact hzero
      · -- the page was clear already
        rw [htable] at hstate
        rw [hsame, hcontents]
        exact hclear p hstate
    · rw [hal.contents q (h.old_ne hs hal hq), hcontents]
  exact hnext.go

theorem mem_dropDummy {p : Nat} (hp : .physical p ∈ s.caches.page_cache_table) (c t : Nat) :
    .physical p ∈ (s.dropDummy c t).caches.page_cache_table := by
  have hne : vm_page.physical p ≠ .dummy t := nofun
  exact (List.mem_erase_of_ne hne).mpr hp

/-- The caches have got a page, and may have lost the dummy page. -/
structure Inserted (s : VmSystem) (c page : Nat) (s' : VmSystem) : Prop where
  cache : s'.cache = s.cache
  aspace : s'.aspace = s.aspace
  contents : s'.contents = s.contents
  stays : ∀ p, .physical p ∈ s.caches.page_cache_table → .physical p ∈ s'.caches.page_cache_table
  cache_ref : s'.caches.cache_ref (.physical page) = some c

theorem inserted_below (s : VmSystem) (c page : Nat) (offset : off_t) :
    s.Inserted c page (s.insertPage c (.physical page) offset) :=
  ⟨rfl, rfl, rfl, fun _ hp => List.mem_cons_of_mem _ hp, update_self ..⟩

theorem inserted_swap (s : VmSystem) (c t page : Nat) (offset : off_t) :
    s.Inserted c page ((s.dropDummy c t).insertPage c (.physical page) offset) :=
  ⟨rfl, rfl, rfl, fun _ hp => List.mem_cons_of_mem _ (mem_dropDummy hp c t), update_self ..⟩

theorem inserted_replaceDummy (s : VmSystem) (t : Nat) (f : Fault) (c page : Nat) :
    s.Inserted c page (s.replaceDummy t f c page) := by
  unfold replaceDummy
  split
  · exact s.inserted_swap c t page f.cache_offset
  · exact s.inserted_below c page f.cache_offset

theorem Along.insert {place place' : Place} (h : s₀.Along s f chain place)
    (hinserted : s.Inserted c page s') (hplace : s₀.At s' f chain place') :
    s₀.Along s' f chain place' := by
  refine ⟨hinserted.cache.trans h.cache, ?_, fun p hp => hinserted.stays p (h.stays p hp), hplace⟩
  rw [hinserted.aspace]
  exact h.change_count

theorem along_insertRead (h : s₀.Along s f chain (.insertRead c page))
    (hstep : s.go t f (.insertRead c page) = some s') : s₀.Course s' f chain (s'.thread t) := by
  have hcarries : s₀.Carries s f chain page := h.place
  cases hstep
  split
  · have hinserted := s.inserted_swap c t page f.cache_offset
    refine (h.insert hinserted ?_).go
    exact hcarries.congr hinserted.contents
  · have hinserted := s.inserted_below c page f.cache_offset
    refine (h.insert hinserted ?_).go
    exact hcarries.congr hinserted.contents

theorem along_insertZero (h : s₀.Along s f chain (.insertZero c page))
    (hstep : s.go t f (.insertZero c page) = some s') : s₀.Course s' f chain (s'.thread t) := by
  have hcarries : s₀.Carries s f chain page := h.place
  cases hstep
  have hinserted := s.inserted_replaceDummy t f c page
  have hcarries' := hcarries.congr hinserted.contents
  unfold afterDrop
  split
  · refine (h.insert hinserted ?_).go
    exact hcarries'
  · refine (h.insert hinserted ?_).go
    exact hcarries'

theorem along_insertCopy (h : s₀.Along s f chain (.insertCopy page))
    (hstep : s.go t f (.insertCopy page) = some s') : s₀.Course s' f chain (s'.thread t) := by
  have hcarries : s₀.Carries s f chain page := h.place
  cases hstep
  have hinserted := s.inserted_replaceDummy t f f.top_cache_ref page
  have hcarries' := hcarries.congr hinserted.contents
  have htop : f.is_write → (s.replaceDummy t f f.top_cache_ref page).caches.cache_ref
      (.physical page) = some f.top_cache_ref := fun _ => hinserted.cache_ref
  unfold afterDrop
  split
  · refine (h.insert hinserted ?_).go
    exact ⟨hcarries', htop⟩
  · refine (h.insert hinserted ?_).go
    exact ⟨hcarries', htop⟩

theorem along_found (hs : s.Sound) (ht : s.thread t = .running f (.found page))
    (h : s₀.Along s f chain (.found page)) (hstep : s.go t f (.found page) = some s') :
    s₀.Course s' f chain (s'.thread t) := by
  have hcarries : s₀.Carries s f chain page := h.place
  have hpage := hs.base.inUse page ((hs.good t f _ ht).cached page rfl)
  unfold VmSystem.go at hstep
  by_cases hcopy : s.caches.cache_ref (.physical page) ≠ some f.top_cache_ref ∧ f.is_write
  · simp only [if_pos hcopy] at hstep
    obtain ⟨⟨q, s₁⟩, ha, rfl⟩ := Option.map_eq_some_iff.mp hstep
    have hal := hs.base.allocate (Or.inl rfl) ha
    have hne : page ≠ q := by
      rintro rfl
      exact hal.unused hpage
    have hnext : s₀.Along ((s₁.setContents q (s₁.contents page)).vm_page_set_state page
        PAGE_STATE_ACTIVE) f chain (.insertCopy q) := by
      refine ⟨hal.cache.trans h.cache, ?_, ?_, fun x hx => ?_, fun p hp => ?_⟩
      · show (s₁.aspace f.aspace).change_count = _
        rw [hal.aspace]
        exact h.change_count
      · show ∀ p, _ → .physical p ∈ s₁.caches.page_cache_table
        rw [hal.caches]
        exact h.stays
      · show update s₁.contents q (s₁.contents page) q = x
        rw [update_self, hal.contents page hne]
        exact hcarries.contents x hx
      · have hp' := h.old_ne hs hal hp
        show update s₁.contents q (s₁.contents page) p = _
        rw [update_of_ne hp', hal.contents p hp']
        exact hcarries.kept p hp
    exact hnext.go
  · simp only [if_neg hcopy] at hstep
    cases hstep
    have hnext : s₀.Along s f chain (.map page) := by
      refine ⟨h.cache, h.change_count, h.stays, hcarries, fun hwrite => ?_⟩
      by_contra hne
      exact hcopy ⟨hne, hwrite⟩
    exact hnext.go

/-- The dummy page leaves the cache it is in, and all else stays. -/
structure Dropped (s s' : VmSystem) : Prop where
  cache : s'.cache = s.cache
  aspace : s'.aspace = s.aspace
  contents : s'.contents = s.contents
  table : s'.table = s.table
  stays : ∀ p, .physical p ∈ s.caches.page_cache_table → .physical p ∈ s'.caches.page_cache_table
  cache_ref : ∀ p, s'.caches.cache_ref (.physical p) = s.caches.cache_ref (.physical p)

theorem dropped_dropTemp (s : VmSystem) (t : Nat) : s.Dropped (s.dropTemp t) := by
  unfold dropTemp
  split
  · rename_i c _
    refine ⟨rfl, rfl, rfl, rfl, fun p hp => mem_dropDummy hp c t, fun p => ?_⟩
    have hne : vm_page.physical p ≠ .dummy t := nofun
    exact update_of_ne hne none _
  · exact ⟨rfl, rfl, rfl, rfl, fun _ hp => hp, fun _ => rfl⟩

theorem Along.drop {place place' : Place} (h : s₀.Along s f chain place) (hdropped : s.Dropped s')
    (hplace : s₀.At s' f chain place') : s₀.Along s' f chain place' := by
  refine ⟨hdropped.cache.trans h.cache, ?_, fun p hp => hdropped.stays p (h.stays p hp), hplace⟩
  rw [hdropped.aspace]
  exact h.change_count

theorem Maps.drop {lock : BitVec 32} (h : s₀.Maps s f chain page lock) (hdropped : s.Dropped s') :
    s₀.Maps s' f chain page lock := by
  refine h.congr ?_ (hdropped.stays page h.cached) hdropped.contents (hdropped.cache_ref page)
  rw [hdropped.aspace, hdropped.table]
  exact h.mapped

/-! ### The mapping -/

theorem read_only (lock : BitVec 32) : lock &&& ~~~LOCK_RW &&& LOCK_RW = 0 := by
  rw [BitVec.and_assoc, BitVec.and_comm (~~~LOCK_RW), BitVec.and_not_self]
  exact BitVec.and_zero

theorem along_map (hs : s.Sound) (ht : s.thread t = .running f (.map page))
    (h : s₀.Along s f chain (.map page)) (hstep : s.go t f (.map page) = some s') :
    s₀.Course s' f chain (s'.thread t) := by
  obtain ⟨hcarries, hwrite⟩ := h.place
  have hcheck : s.checkRegion f = (none, some f.region, s.aspace f.aspace) := by
    unfold checkRegion
    rw [if_neg (not_not.mpr h.change_count.symm)]
  have hmap : s.mapPage f page = (none, s.setAspace f.aspace ((s.aspace f.aspace).map f.address
      (s.table.paddr page) (s.new_lock f f.region page))) := by
    unfold mapPage
    rw [hcheck]
  have haspace : ((s.mapPage f page).2.aspace f.aspace) = (s.aspace f.aspace).map f.address
      (s.table.paddr page) (s.new_lock f f.region page) := by
    rw [hmap]
    exact update_self ..
  have hmaps : s₀.Maps (s.mapPage f page).2 f chain page (s.new_lock f f.region page) := by
    refine ⟨?_, ?_, ?_, ?_, ?_, ?_⟩
    · rw [haspace, hmap]
      exact update_self ..
    · rw [hmap]
      exact (hs.good t f _ ht).cached page rfl
    · rw [hmap]
      exact hcarries.contents
    · rw [hmap]
      exact hcarries.kept
    · rw [hmap]
      exact hwrite
    · rw [hmap]
      intro hread hne
      rw [new_lock, if_pos ⟨hne, hread⟩]
      exact read_only _
  have hnext : ∀ place', (∀ lock, s₀.Maps (s.mapPage f page).2 f chain page lock →
      s₀.At (s.mapPage f page).2 f chain place') → s₀.Along (s.mapPage f page).2 f chain place' := by
    intro place' hplace
    refine ⟨?_, ?_, ?_, hplace _ hmaps⟩
    · rw [hmap]
      exact h.cache
    · rw [haspace]
      exact h.change_count
    · rw [hmap]
      exact h.stays
  have hs' : s' = (s.mapPage f page).2.setThread t (.running f ((s.mapPage f page).2.afterDrop t
      (.dropMapped page (s.mapPage f page).1) (.activate page (s.mapPage f page).1))) :=
    (Option.some.inj hstep).symm
  rw [hs']
  unfold afterDrop
  split
  · refine (hnext _ ?_).go
    exact fun lock hlock _ => ⟨lock, hlock⟩
  · refine (hnext _ ?_).go
    exact fun lock hlock _ => ⟨lock, hlock⟩

theorem paddr_set_state (s : VmSystem) (p q : Nat) (page_state : PageState) :
    (s.vm_page_set_state p page_state).table.paddr q = s.table.paddr q := by
  unfold PageTable.paddr vm_page_set_state PageTable.vm_page_set_state_nolock
    PageTable.move_page_to_queue
  split
  · rfl
  · rfl

/-- Each step of a call on its own keeps it on its course. -/
theorem along_step (hidle : s₀.Idle) (hclear : s₀.ClearPages) (hs : s.Sound)
    (h : s₀.Course s f chain (s.thread t)) (hstep : s.Step (.go t) s') :
    s₀.Course s' f chain (s'.thread t) := by
  simp only [Step, step] at hstep
  cases ht : s.thread t with
  | returned err =>
    rw [ht] at hstep
    cases hstep
  | running f' place =>
    rw [ht] at hstep h
    obtain ⟨rfl, halong⟩ := h
    cases place with
    | search c => exact along_search hidle hs ht halong hstep
    | read c => exact along_read hs halong hstep
    | insertRead c p => exact along_insertRead halong hstep
    | zero c => exact along_zero hclear hs halong hstep
    | insertZero c p => exact along_insertZero halong hstep
    | dropZero p =>
      have hcarries : s₀.Carries s f' chain p := halong.place
      cases hstep
      have hdropped := s.dropped_dropTemp t
      refine (halong.drop hdropped ?_).go
      exact hcarries.congr hdropped.contents
    | found p => exact along_found hs ht halong hstep
    | insertCopy p => exact along_insertCopy halong hstep
    | dropCopy p =>
      obtain ⟨hcarries, hwrite⟩ := halong.place
      cases hstep
      have hdropped := s.dropped_dropTemp t
      refine (halong.drop hdropped ?_).go
      refine ⟨hcarries.congr hdropped.contents, ?_⟩
      rw [hdropped.cache_ref]
      exact hwrite
    | map p => exact along_map hs ht halong hstep
    | dropMapped p err =>
      have hmaps := halong.place
      cases hstep
      have hdropped := s.dropped_dropTemp t
      refine (halong.drop hdropped ?_).go
      intro herr
      obtain ⟨lock, hlock⟩ := hmaps herr
      exact ⟨lock, hlock.drop hdropped⟩
    | activate p err =>
      have hmaps := halong.place
      cases hstep
      rw [show ((s.vm_page_set_state p PAGE_STATE_ACTIVE).setThread t (.returned err)).thread t =
        .returned err from update_self ..]
      intro herr
      obtain ⟨lock, hlock⟩ := hmaps herr
      refine ⟨p, lock, hlock.congr ?_ hlock.cached rfl rfl⟩
      rw [show ((s.vm_page_set_state p PAGE_STATE_ACTIVE).setThread t (.returned err)).table.paddr p
        = s.table.paddr p from s.paddr_set_state p p _]
      exact hlock.mapped

/-! ## The whole call -/

theorem course_begin {a : Nat} {address : addr} {is_write is_user : Bool} {region : mapped_region}
    (haspace : s₀.fault_aspace t (ROUNDOWN address) is_user = some (.ok a))
    (hregion : ((s₀.aspace a).vm_virtual_map_lookup (ROUNDOWN address)).1 = some region)
    (hchain : Leads s₀.source (some region.cache_ref) chain none)
    (hstore : (s₀.cache region.cache_ref).store.has_fault = false)
    (hbegin : s₀.vm_soft_fault t address is_write is_user = some s) :
    s₀.Course s (s₀.newFault a (ROUNDOWN address) is_write region) chain (s.thread t) := by
  have hreturned : ∀ (s₁ : VmSystem) (err : FaultError), s₀.Course (s₁.setThread t
      (.returned (some err))) (s₀.newFault a (ROUNDOWN address) is_write region) chain
      ((s₁.setThread t (.returned (some err))).thread t) := by
    intro s₁ err
    rw [show (s₁.setThread t (.returned (some err))).thread t = .returned (some err) from
      update_self ..]
    simp [Course]
  have hchange : ((s₀.aspace a).vm_virtual_map_lookup (ROUNDOWN address)).2.change_count =
      (s₀.aspace a).change_count := by
    unfold vm_address_space.vm_virtual_map_lookup
    split
    · rfl
    · split
      · rfl
      · rfl
  rw [vm_soft_fault, haspace] at hbegin
  cases hbegin
  simp only [beginFault, hregion]
  split
  · exact hreturned _ _
  · split
    · exact hreturned _ _
    · have hfault : ∀ offset, (s₀.setAspace a ((s₀.aspace a).vm_virtual_map_lookup
          (ROUNDOWN address)).2).fault region.cache_ref a offset = none := by
        intro offset
        unfold fault
        rw [show (s₀.setAspace a ((s₀.aspace a).vm_virtual_map_lookup
          (ROUNDOWN address)).2).cache = s₀.cache from rfl]
        cases hkind : (s₀.cache region.cache_ref).store with
        | device base_addr | null =>
          rw [hkind] at hstore
          cases hstore
        | anonymous | vnode readpage => rfl
      rw [hfault, hchange]
      have halong : s₀.Along ((s₀.setAspace a ((s₀.aspace a).vm_virtual_map_lookup
          (ROUNDOWN address)).2).setDummy t PAGE_STATE_INACTIVE)
          (s₀.newFault a (ROUNDOWN address) is_write region) chain (.search region.cache_ref) := by
        refine ⟨rfl, ?_, fun _ hp => hp, rfl, rfl, ?_⟩
        · show (update s₀.aspace a _ a).change_count = _
          rw [update_self]
          exact hchange
        · obtain ⟨rest, rfl⟩ : ∃ rest, chain = region.cache_ref :: rest := by
            cases chain with
            | nil => cases hchain
            | cons c rest => exact ⟨rest, by rw [Option.some.inj hchain.1]⟩
          exact ⟨rest, hchain, rfl, fun _ _ => rfl⟩
      exact halong.go

/-- Each cache has the one below it as its source, and the stores given. -/
def stacked (store : Nat → vm_store) : VmSystem :=
  { sharedCache with cache := fun c => ⟨if c = 0 then none else some (c - 1), store c, [topRegion c]⟩ }

theorem stacked_idle (store : Nat → vm_store) : (stacked store).Idle :=
  ⟨sharedCache_idle.returned, sharedCache_idle.table, sharedCache_idle.coherent,
    sharedCache_idle.physical, sharedCache_idle.onePerOffset⟩

/-- Cache 0 is on a file whose bytes are all 7. -/
def fileAtBottom (c : Nat) : vm_store :=
  if c = 0 then .vnode fun _ => some fun _ => 7 else .anonymous

end VmSystem

end Kernel
