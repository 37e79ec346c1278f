import OpenBeOS.Kernel.Heap
import OpenBeOS.Kernel.PageRun

/-! # Pages asked for as clear

The bytes of the pages under the calls of `vm_page.c`, with what each call does behind its section of
`page_lock`. In every history in which no call takes a page from the scrubber, and in which the run
that `vm_page_allocate_page_run` finds is zero-filled when it is asked for clear pages, all pages
asked for as clear are zero-filled (`clear_pages_returned`).
-/

namespace Kernel

open PageState QueueName Reachable Function

/-- The bytes of a page. -/
abbrev PageBytes := Fin PAGE_SIZE → UInt8

def zeroFilled : PageBytes := fun _ => 0

/-! ## The system -/

/-- A call behind its section: the pages it returns, the one it clears before, and the state it was
asked for. -/
structure AllocateCall where
  pages : List Nat
  clears : Option Nat
  page_state : PageState

/-- `unscrubbed` are the pages that the scrubber has still to clear. -/
structure PageMemory where
  system : PageSystem
  bytes : Nat → PageBytes
  unscrubbed : List Nat
  calls : Nat → Option AllocateCall

inductive MemoryEvent where
  | vm_page_allocate_page (i : Nat) (page_state : PageState)
  | vm_page_allocate_specific_page (i : Nat) (page_num : addr) (page_state : PageState)
  | vm_page_allocate_page_run (i : Nat) (page_state : PageState) (len : addr)
  /-- A call goes on behind its section, and returns. -/
  | go (i : Nat)
  | vm_page_set_state (page : Nat) (page_state : PageState)
  | vm_mark_page_range_inuse (start_page len : addr)
  | scrubTake
  | scrubClear
  | scrubPut
  | write (page : Nat) (bytes : PageBytes)

namespace PageMemory

section

variable (s : PageMemory)

def clear_page (page : Nat) : PageMemory :=
  { s with bytes := update s.bytes page zeroFilled }

/-- A section with nothing behind it. -/
def only (call : PageCall) : Option PageMemory :=
  (s.system.step call).map fun r => { s with system := r.2 }

/-- The section of a call that hands out a page. -/
def leave (i : Nat) (page_state : PageState) (a : PageTable.Allocation) :
    PageMemory :=
  { s with
    system := { s.system with table := a.table }
    calls := update s.calls i
      (some ⟨a.page.toList, if a.cleared then a.page else none, page_state⟩) }

def step : MemoryEvent → Option PageMemory
  | .vm_page_allocate_page i page_state =>
    if (s.calls i).isNone then
      (s.system.table.vm_page_allocate_page page_state).map (s.leave i page_state)
    else none
  | .vm_page_allocate_specific_page i page_num page_state =>
    if (s.calls i).isNone then
      some (s.leave i page_state
        (s.system.table.vm_page_allocate_specific_page page_num page_state))
    else none
  | .vm_page_allocate_page_run i page_state len =>
    if (s.calls i).isNone then
      let (first_page, table) := s.system.table.vm_page_allocate_page_run len
      some { s with
        system := { s.system with table := table }
        calls := update s.calls i
          (some ⟨first_page.elim [] fun start => List.range' start len.toNat, none, page_state⟩) }
    else none
  | .go i =>
    (s.calls i).map fun call =>
    { (call.clears.elim s s.clear_page) with calls := update s.calls i none }
  | .vm_page_set_state page page_state => s.only (.set_state page page_state)
  | .vm_mark_page_range_inuse start_page len => s.only (.mark_page_range_inuse start_page len)
  | .scrubTake =>
    (s.system.step .scrubTake).map fun r => { s with system := r.2, unscrubbed := r.2.held }
  | .scrubClear =>
    match s.unscrubbed with
    | [] => none
    | page :: rest => some { s.clear_page page with unscrubbed := rest }
  | .scrubPut => if s.unscrubbed = [] then s.only .scrubPut else none
  | .write page bytes => some { s with bytes := update s.bytes page bytes }

/-- Who writes to a page has got it: it is not available, and no call is about to return it. No one
says of a page that it is clear when it is not. -/
def Owned : MemoryEvent → Prop
  | .write page _ => ¬ s.system.table.available page ∧
      ∀ i call, s.calls i = some call → page ∉ call.pages
  | .vm_page_set_state page page_state => page_state = PAGE_STATE_CLEAR → s.bytes page = zeroFilled
  | _ => True

def Step (e : MemoryEvent) (s' : PageMemory) : Prop :=
  s.Owned e ∧ s.step e = some s'

/-- The state behind `vm_page_init`, with any bytes in the pages. -/
def Init : Prop := s.system.Init ∧ s.unscrubbed = [] ∧ ∀ i, s.calls i = none

/-- No call takes a page from the scrubber, and the pages of the run are zero-filled already if they
are asked for as clear. -/
def Safe : MemoryEvent → Prop
  | .vm_page_allocate_specific_page _ page_num page_state =>
    s.system.Safe (.allocate_specific_page page_num page_state)
  | .vm_page_allocate_page_run _ page_state len =>
    s.system.Safe (.allocate_page_run len) ∧ (page_state = PAGE_STATE_CLEAR →
      ∀ start, s.system.table.FirstRun len.toNat start →
        ∀ i < len.toNat, s.bytes (start + i) = zeroFilled)
  | .vm_page_set_state page page_state => s.system.Safe (.set_state page page_state)
  | .vm_mark_page_range_inuse start_page len =>
    s.system.Safe (.mark_page_range_inuse start_page len)
  | _ => True

/-- A call that was asked for clear pages returns pages that are zero-filled. -/
def ReturnsClear : Prop :=
  ∀ i call s', s.calls i = some call → call.page_state = PAGE_STATE_CLEAR →
    s.step (.go i) = some s' → ∀ p ∈ call.pages, s'.bytes p = zeroFilled

end

variable {s s' : PageMemory}

/-! ## Which pages become clear -/

end PageMemory

namespace PageTable

variable {t t' : PageTable} {held : List Nat}

/-- The pages that are clear afterwards were clear, or are those of `pages`. -/
structure Becomes (t t' : PageTable) (pages : List Nat) : Prop where
  num_pages : t'.num_pages = t.num_pages
  clear : ∀ p, t'.state p = PAGE_STATE_CLEAR → t.state p = PAGE_STATE_CLEAR ∨ p ∈ pages

variable {pages : List Nat}

theorem Becomes.trans {t'' : PageTable} (h : t.Becomes t' pages)
    (h' : t'.Becomes t'' pages) : t.Becomes t'' pages := by
  refine ⟨h'.num_pages.trans h.num_pages, fun p hp => ?_⟩
  rcases h'.clear p hp with hclear | hin
  · exact h.clear p hclear
  · exact .inr hin

theorem becomes_update (page : Nat) (page_state : PageState)
    (hnum : t'.num_pages = t.num_pages)
    (hstate : t'.state = update t.state page page_state) (hpage : page_state = PAGE_STATE_CLEAR → page ∈ pages) : t.Becomes t' pages := by
  refine ⟨hnum, fun p hp => ?_⟩
  rw [hstate] at hp
  by_cases heq : p = page
  · subst heq
    rw [update_self] at hp
    exact .inr (hpage hp)
  · rw [update_of_ne heq] at hp
    exact .inl hp

theorem becomes_self (t : PageTable) (pages : List Nat) : t.Becomes t pages :=
  ⟨rfl, fun _ hp => .inl hp⟩

theorem becomes_set_state (t : PageTable) (page : Nat) (page_state : PageState)
    (hpage : page_state = PAGE_STATE_CLEAR → page ∈ pages) :
    t.Becomes (t.vm_page_set_state_nolock page page_state) pages :=
  becomes_update page page_state (vm_page_set_state_nolock_num_pages ..)
    (by simp [vm_page_set_state_nolock]) hpage

theorem becomes_loop {f : PageTable → Nat → PageTable}
    (hf : ∀ (t : PageTable) (page : Nat), t.Becomes (f t page) pages) :
    ∀ (n : Nat) (t : PageTable) (page : Nat), t.Becomes (forPages f t page n) pages
  | 0, t, _ => becomes_self t pages
  | n + 1, t, page => (hf t page).trans (becomes_loop hf n (f t page) (page + 1))

theorem becomes_markPage (t : PageTable) (page : Nat) : t.Becomes (t.markPage page) [] := by
  unfold markPage
  split
  · exact becomes_set_state t page _ nofun
  · exact becomes_set_state t page _ nofun
  · exact becomes_self t []

theorem becomes_specific (t : PageTable) (page : Nat) (page_state : PageState) :
    t.Becomes (t.takeSpecific page page_state).table [] := by
  unfold takeSpecific
  split
  · exact becomes_update page PAGE_STATE_BUSY rfl rfl nofun
  · exact becomes_update page PAGE_STATE_BUSY rfl rfl nofun
  · exact becomes_update page PAGE_STATE_BUSY rfl rfl nofun
  · exact becomes_self t []

theorem dequeue_page_same (t : PageTable) (q : QueueName) :
    (t.dequeue_page q).2.num_pages = t.num_pages ∧ (t.dequeue_page q).2.state = t.state := by
  unfold dequeue_page
  split
  · exact ⟨rfl, rfl⟩
  · exact ⟨rfl, rfl⟩

theorem becomes_scrubTake : ∀ (n : Nat) (t : PageTable), t.Becomes (t.scrubTake n).2 []
  | 0, t => becomes_self t []
  | n + 1, t => by
    obtain ⟨hnum, hstate⟩ := dequeue_page_same t page_free_queue
    unfold scrubTake
    generalize t.dequeue_page page_free_queue = r at hnum hstate
    obtain ⟨page, t'⟩ := r
    have hsame : t.Becomes t' [] := ⟨hnum, fun p hp => .inl (hstate ▸ hp)⟩
    cases page with
    | none => exact hsame
    | some page => exact hsame.trans (becomes_scrubTake n t')

theorem becomes_scrubPut : ∀ (cleared : List Nat) (t : PageTable), (∀ p ∈ cleared, p ∈ pages) →
      t.Becomes (t.scrubPut cleared) pages
  | [], t, _ => becomes_self t pages
  | page :: cleared, t, hin => by
    have hfirst : t.Becomes
        ((t.setState page PAGE_STATE_CLEAR).enqueue_page page_clear_queue page) pages :=
      becomes_update page PAGE_STATE_CLEAR rfl rfl fun _ => hin page List.mem_cons_self
    exact hfirst.trans (becomes_scrubPut cleared _ fun p hp => hin p (List.mem_cons_of_mem _ hp))

/-- What the first allocator hands out is clear, or it clears it. -/
theorem Sound.allocateFrom_clear (h : t.Sound held) {page_state : PageState} {q q_other : QueueName}
    (hq : q = page_free_queue ∨ q = page_clear_queue)
    (hother : q_other = page_free_queue ∨ q_other = page_clear_queue) {a : Allocation}
    (ha : t.allocateFrom page_state q q_other = some a) :
    t.Becomes a.table [] ∧ (page_state = PAGE_STATE_CLEAR → ∀ p ∈ a.page,
      a.cleared = true ∨ t.SetUp p ∧ t.state p = PAGE_STATE_CLEAR) := by
  obtain ⟨queue, page, htaken, hplace, rfl⟩ := h.allocateFrom_taken ha
  refine ⟨becomes_update page PAGE_STATE_BUSY rfl rfl nofun, ?_⟩
  rintro hclear p ⟨⟩
  obtain ⟨hsetUp, -, hqueue⟩ := setUp_of_place hplace
  cases hstate : t.state page with
  | PAGE_STATE_FREE => exact .inl (decide_eq_true ⟨hclear, rfl⟩)
  | PAGE_STATE_CLEAR => exact .inr ⟨hsetUp, rfl⟩
  | _ =>
    rw [hstate] at hqueue
    rcases htaken with rfl | rfl
    · rcases hq with rfl | rfl <;> cases hqueue
    · rcases hother with rfl | rfl <;> cases hqueue

theorem Sound.allocate_page_clear (h : t.Sound held) {page_state : PageState} {a : Allocation}
    (ha : t.vm_page_allocate_page page_state = some a) :
    t.Becomes a.table [] ∧ (page_state = PAGE_STATE_CLEAR → ∀ p ∈ a.page,
      a.cleared = true ∨ t.SetUp p ∧ t.state p = PAGE_STATE_CLEAR) := by
  cases page_state with
  | PAGE_STATE_FREE => exact h.allocateFrom_clear (.inl rfl) (.inr rfl) ha
  | PAGE_STATE_CLEAR => exact h.allocateFrom_clear (.inr rfl) (.inl rfl) ha
  | _ =>
    cases ha
    exact ⟨becomes_self t [], nofun⟩

/-- What the second allocator hands out is clear, or it clears it. -/
theorem specific_clear (t : PageTable) (page_num : addr) (page_state : PageState)
    (hsafe : ∀ p, t.vm_lookup_page page_num = some p → t.available p → t.SetUp p) :
    t.Becomes (t.vm_page_allocate_specific_page page_num page_state).table [] ∧
      (page_state = PAGE_STATE_CLEAR →
        ∀ p ∈ (t.vm_page_allocate_specific_page page_num page_state).page,
          (t.vm_page_allocate_specific_page page_num page_state).cleared = true ∨
            t.SetUp p ∧ t.state p = PAGE_STATE_CLEAR) := by
  unfold vm_page_allocate_specific_page
  cases hlookup : t.vm_lookup_page page_num with
  | none => exact ⟨becomes_self t [], nofun⟩
  | some page =>
    refine ⟨becomes_specific t page page_state, fun hclear p hp => ?_⟩
    obtain rfl := takeSpecific_page hp
    dsimp only at hp ⊢
    unfold takeSpecific at hp ⊢
    cases hstate : t.state p with
    | PAGE_STATE_FREE => exact .inl (decide_eq_true hclear)
    | PAGE_STATE_CLEAR => exact .inr ⟨hsafe p hlookup (by simp [available, hstate]), rfl⟩
    | PAGE_STATE_UNUSED => exact .inl (decide_eq_true hclear)
    | _ =>
      rw [hstate] at hp
      cases hp

theorem becomes_mark (t : PageTable) (start_page len : addr) :
    t.Becomes (t.vm_mark_page_range_inuse start_page len).2 [] := by
  unfold vm_mark_page_range_inuse
  split
  · exact becomes_self t []
  · split
    · exact becomes_self t []
    · exact becomes_loop (fun t page => becomes_markPage t _) _ _ _

theorem becomes_run (t : PageTable) (len : addr) :
    t.Becomes (t.vm_page_allocate_page_run len).2 [] := by
  unfold vm_page_allocate_page_run
  split
  · exact becomes_self t []
  · exact becomes_loop (fun t page => becomes_set_state t page PAGE_STATE_BUSY (by simp)) _ _ _

theorem run_first {t : PageTable} {len : addr} {first : Nat}
    (h : (t.vm_page_allocate_page_run len).1 = some first) : t.FirstRun len.toNat first := by
  unfold vm_page_allocate_page_run at h
  cases hfind : t.findRun len.toNat 0 with
  | none =>
    rw [hfind] at h
    cases h
  | some start =>
    rw [hfind] at h
    cases h
    exact findRun_spec t len.toNat 0 hfind nofun

end PageTable

namespace PageMemory

variable {s s' : PageMemory}

/-! ## What holds in every run -/

structure Clean (s : PageMemory) : Prop where
  sound : s.system.table.Sound s.system.held
  clear : ∀ p, s.system.table.SetUp p → s.system.table.state p = PAGE_STATE_CLEAR →
    s.bytes p = zeroFilled
  scrubbed : ∀ p ∈ s.system.held, p ∈ s.unscrubbed ∨ s.bytes p = zeroFilled
  calls : ∀ i call, s.calls i = some call → call.page_state = PAGE_STATE_CLEAR →
    ∀ p ∈ call.pages, call.clears = some p ∨ s.bytes p = zeroFilled

theorem Clean.locked (h : s.Clean) (pages : List Nat)
    (hsound : s'.system.table.Sound s'.system.held) (hbecomes : s.system.table.Becomes s'.system.table pages)
    (hpages : ∀ p ∈ pages, s.bytes p = zeroFilled) (hbytes : s'.bytes = s.bytes)
    (hscrub : ∀ p ∈ s'.system.held, p ∈ s'.unscrubbed ∨ s.bytes p = zeroFilled)
    (hcalls : ∀ i call, s'.calls i = some call → s.calls i = some call ∨
      (call.page_state = PAGE_STATE_CLEAR →
        ∀ p ∈ call.pages, call.clears = some p ∨ s.bytes p = zeroFilled)) : s'.Clean := by
  refine ⟨hsound, fun p hsetUp hstate => ?_, fun p hp => ?_, fun i call hcall hclear p hp => ?_⟩
  · rw [hbytes]
    unfold PageTable.SetUp at hsetUp
    rw [hbecomes.num_pages] at hsetUp
    rcases hbecomes.clear p hstate with hold | hin
    · exact h.clear p hsetUp hold
    · exact hpages p hin
  · rw [hbytes]
    exact hscrub p hp
  · rw [hbytes]
    rcases hcalls i call hcall with hold | hnew
    · exact h.calls i call hold hclear p hp
    · exact hnew hclear p hp

theorem Clean.only (h : s.Clean) {call : PageCall} (pages : List Nat) (hsafe : s.system.Safe call)
    (hs' : s.only call = some s')
    (hbecomes : ∀ handed system, s.system.step call = some (handed, system) →
      s.system.table.Becomes system.table pages ∧
        ∀ p ∈ system.held, p ∈ s.unscrubbed ∨ s.bytes p = zeroFilled)
    (hpages : ∀ p ∈ pages, s.bytes p = zeroFilled) : s'.Clean := by
  obtain ⟨⟨handed, system⟩, hstep, rfl⟩ := Option.map_eq_some_iff.mp hs'
  obtain ⟨hbecomes, hheld⟩ := hbecomes handed system hstep
  have hsound := (PageSystem.step_sound h.sound hsafe hstep).1
  exact h.locked pages hsound hbecomes hpages rfl hheld fun i call hcall => .inl hcall

variable {page_state : PageState} {i : Nat}

theorem Clean.leave (h : s.Clean) {a : PageTable.Allocation}
    (hsound : a.table.Sound s.system.held)
    (ha : s.system.table.Becomes a.table [] ∧ (page_state = PAGE_STATE_CLEAR → ∀ p ∈ a.page,
      a.cleared = true ∨ s.system.table.SetUp p ∧ s.system.table.state p = PAGE_STATE_CLEAR)) :
    (s.leave i page_state a).Clean := by
  refine @Clean.locked s (s.leave i page_state a) h [] hsound ha.1 nofun rfl h.scrubbed
    fun j call hcall => ?_
  change update s.calls i _ j = some call at hcall
  by_cases hj : j = i
  · subst hj
    rw [update_self] at hcall
    cases hcall
    refine .inr fun hclear p hp => ?_
    have hpage : a.page = some p := Option.mem_toList.mp hp
    rcases ha.2 hclear p hpage with hcleared | ⟨hsetUp, hstate⟩
    · exact .inl ((if_pos hcleared).trans hpage)
    · exact .inr (h.clear p hsetUp hstate)
  · rw [update_of_ne hj] at hcall
    exact .inl hcall

/-- The run is handed out as it is. -/
theorem Clean.run (h : s.Clean) {len : addr}
    (hsafe : s.Safe (.vm_page_allocate_page_run i page_state len))
    (hs' : s.step (.vm_page_allocate_page_run i page_state len) = some s') : s'.Clean := by
  obtain ⟨hsystem, hclean⟩ := hsafe
  simp only [step] at hs'
  split at hs'
  · cases hs'
    have hsound := (h.sound.run hsystem).1
    refine h.locked [] hsound (PageTable.becomes_run ..) nofun rfl h.scrubbed
      fun j call hcall => ?_
    change update s.calls i _ j = some call at hcall
    by_cases hj : j = i
    · subst hj
      rw [update_self] at hcall
      cases hcall
      refine .inr fun hclear p hp => .inr ?_
      dsimp only at hp
      cases hfirst : (s.system.table.vm_page_allocate_page_run len).1 with
      | none =>
        rw [hfirst] at hp
        exact absurd hp List.not_mem_nil
      | some first =>
        rw [hfirst] at hp
        have hrun := PageTable.run_first hfirst
        obtain ⟨hle, hlt⟩ := List.mem_range'_1.mp hp
        have hzero := hclean hclear first hrun (p - first) (by omega)
        rwa [show first + (p - first) = p by omega] at hzero
    · rw [update_of_ne hj] at hcall
      exact .inl hcall
  · cases hs'

theorem clear_page_bytes (s : PageMemory) (page p : Nat) :
    (s.clear_page page).bytes p = zeroFilled ∨ (s.clear_page page).bytes p = s.bytes p := by
  by_cases hp : p = page
  · exact .inl (by rw [hp]; exact update_self ..)
  · exact .inr (update_of_ne hp ..)

theorem clear_page_zero {page p : Nat} (h : s.bytes p = zeroFilled) :
    (s.clear_page page).bytes p = zeroFilled := by
  rcases clear_page_bytes s page p with hzero | hsame
  · exact hzero
  · exact hsame.trans h

theorem Clean.clear_page (h : s.Clean) (page : Nat) : (s.clear_page page).Clean := by
  refine ⟨h.sound, fun p hsetUp hstate => clear_page_zero (h.clear p hsetUp hstate),
    fun p hp => ?_, fun i call hcall hclear p hp => ?_⟩
  · exact (h.scrubbed p hp).imp_right clear_page_zero
  · exact (h.calls i call hcall hclear p hp).imp_right clear_page_zero

theorem Clean.go (h : s.Clean) (hs' : s.step (.go i) = some s') : s'.Clean := by
  obtain ⟨call, hcall, rfl⟩ := Option.map_eq_some_iff.mp hs'
  have hcleared : (call.clears.elim s s.clear_page).Clean ∧
      (call.clears.elim s s.clear_page).calls = s.calls := by
    cases call.clears with
    | none => exact ⟨h, rfl⟩
    | some page => exact ⟨h.clear_page page, rfl⟩
  generalize call.clears.elim s s.clear_page = t at hcleared
  obtain ⟨ht, hcalls⟩ := hcleared
  refine ⟨ht.sound, ht.clear, ht.scrubbed, fun j call' hcall' => ?_⟩
  change update s.calls i none j = some call' at hcall'
  by_cases hj : j = i
  · subst hj
    rw [update_self] at hcall'
    cases hcall'
  · rw [update_of_ne hj, ← hcalls] at hcall'
    exact ht.calls j call' hcall'

theorem Clean.write (h : s.Clean) {page : Nat} {bytes : PageBytes}
    (howned : s.Owned (.write page bytes)) :
    Clean { s with bytes := update s.bytes page bytes } := by
  obtain ⟨havailable, hcalls⟩ := howned
  have hsame : ∀ p, p ≠ page → update s.bytes page bytes p = s.bytes p :=
    fun p hp => update_of_ne hp ..
  refine ⟨h.sound, fun p hsetUp hstate => ?_, fun p hp => ?_, fun i call hcall hclear p hp => ?_⟩
  · have hne : p ≠ page := by
      rintro rfl
      exact havailable (by simp [PageTable.available, show s.system.table.state p = _ from hstate])
    exact (hsame p hne).trans (h.clear p hsetUp hstate)
  · have hne : p ≠ page := by
      rintro rfl
      exact havailable (by simp [PageTable.available, (h.sound.held_free p hp).2])
    exact (h.scrubbed p hp).imp_right (hsame p hne).trans
  · have hne : p ≠ page := by
      rintro rfl
      exact hcalls i call hcall hp
    exact (h.calls i call hcall hclear p hp).imp_right (hsame p hne).trans

theorem Clean.set_state (h : s.Clean) {page : Nat}
    (howned : s.Owned (.vm_page_set_state page page_state))
    (hsafe : s.system.Safe (.set_state page page_state))
    (hs' : s.only (.set_state page page_state) = some s') : s'.Clean := by
  have hheld : ∀ {handed system}, s.system.step (.set_state page page_state) = some (handed, system) →
      system = { s.system with table := s.system.table.vm_page_set_state_nolock page page_state } :=
    fun hstep => (Prod.mk.inj (Option.some.inj hstep)).2.symm
  by_cases hclear : page_state = PAGE_STATE_CLEAR
  · refine h.only [page] hsafe hs' (fun handed system hstep => ?_) fun p hp => ?_
    · obtain rfl := hheld hstep
      exact ⟨PageTable.becomes_set_state _ page page_state fun _ => List.mem_singleton_self page,
        h.scrubbed⟩
    · rw [List.mem_singleton.mp hp]
      exact howned hclear
  · refine h.only [] hsafe hs' (fun handed system hstep => ?_) nofun
    obtain rfl := hheld hstep
    exact ⟨PageTable.becomes_set_state _ page page_state fun heq => absurd heq hclear, h.scrubbed⟩

theorem Clean.scrubPut (h : s.Clean) (hall : s.unscrubbed = []) (hs' : s.only .scrubPut = some s') :
    s'.Clean := by
  have hsafe : s.system.Safe .scrubPut := trivial
  refine h.only s.system.held hsafe hs' (fun handed system hstep => ?_) fun p hp => ?_
  · unfold PageSystem.step at hstep
    cases hscrub : s.system.scrubbing with
    | none =>
      rw [hscrub] at hstep
      cases hstep
    | some pages =>
      rw [hscrub] at hstep
      cases hstep
      refine ⟨?_, nofun⟩
      rw [show s.system.held = pages by rw [PageSystem.held, hscrub]; rfl]
      exact PageTable.becomes_scrubPut pages _ fun p hp => hp
  · rcases h.scrubbed p hp with hin | hzero
    · rw [hall] at hin
      exact absurd hin List.not_mem_nil
    · exact hzero

theorem Clean.scrubTake (h : s.Clean) (hs' : s.step .scrubTake = some s') : s'.Clean := by
  obtain ⟨⟨handed, system⟩, hstep, rfl⟩ := Option.map_eq_some_iff.mp hs'
  have hsafe : s.system.Safe .scrubTake := trivial
  have hsound := (PageSystem.step_sound h.sound hsafe hstep).1
  refine h.locked [] hsound ?_ nofun rfl (fun p hp => .inl hp) fun i call hcall => .inl hcall
  unfold PageSystem.step at hstep
  cases hscrub : s.system.scrubbing with
  | none =>
    rw [hscrub] at hstep
    cases hstep
    exact PageTable.becomes_scrubTake SCRUB_SIZE _
  | some pages =>
    rw [hscrub] at hstep
    cases hstep

theorem Clean.step {e : MemoryEvent} (h : s.Clean) (hsafe : s.Safe e) (hs' : Step s e s') :
    s'.Clean := by
  obtain ⟨howned, hs'⟩ := hs'
  cases e with
  | vm_page_allocate_page i page_state =>
    simp only [PageMemory.step] at hs'
    split at hs'
    · obtain ⟨a, ha, rfl⟩ := Option.map_eq_some_iff.mp hs'
      have hstep : s.system.step (.allocate_page page_state) =
          some (a.page.toList, { s.system with table := a.table }) := by
        simp only [PageSystem.step, ha, Option.map_some]
      have hsafe' : s.system.Safe (.allocate_page page_state) := trivial
      have hsound := (PageSystem.step_sound h.sound hsafe' hstep).1
      exact h.leave hsound (h.sound.allocate_page_clear ha)
    · cases hs'
  | vm_page_allocate_specific_page i page_num page_state =>
    simp only [PageMemory.step] at hs'
    split at hs'
    · cases hs'
      have hsafe' : s.system.Safe (.allocate_specific_page page_num page_state) := hsafe
      have hsound := (PageSystem.step_sound h.sound hsafe' rfl).1
      exact h.leave hsound (PageTable.specific_clear _ page_num page_state
        fun p hlookup havailable => (hsafe' p hlookup havailable).1)
    · cases hs'
  | vm_page_allocate_page_run i page_state len => exact h.run hsafe hs'
  | go i => exact h.go hs'
  | vm_page_set_state page page_state => exact h.set_state howned hsafe hs'
  | vm_mark_page_range_inuse start_page len =>
    have hsafe' : s.system.Safe (.mark_page_range_inuse start_page len) := hsafe
    refine h.only [] hsafe' hs' (fun handed system hstep => ?_) nofun
    cases hstep
    exact ⟨PageTable.becomes_mark _ start_page len, h.scrubbed⟩
  | scrubTake => exact h.scrubTake hs'
  | scrubClear =>
    simp only [PageMemory.step] at hs'
    split at hs'
    · cases hs'
    · rename_i page rest hrest
      cases hs'
      have hcleared := h.clear_page page
      refine ⟨hcleared.sound, hcleared.clear, fun p hp => ?_, hcleared.calls⟩
      by_cases heq : p = page
      · refine .inr ?_
        rw [heq]
        exact update_self ..
      · refine (hcleared.scrubbed p hp).imp_left fun hin => ?_
        change p ∈ s.unscrubbed at hin
        rw [hrest] at hin
        exact (List.mem_cons.mp hin).resolve_left heq
  | scrubPut =>
    simp only [PageMemory.step] at hs'
    split at hs'
    · rename_i hall
      exact h.scrubPut hall hs'
    · cases hs'
  | write page bytes =>
    cases hs'
    exact h.write howned

theorem init_clean (h : s.Init) : s.Clean := by
  obtain ⟨⟨t, hpages, hsystem⟩, -, hcalls⟩ := h
  have hheld : s.system.held = [] := by rw [hsystem]; rfl
  refine ⟨?_, fun p hsetUp hstate => ?_, fun p hp => ?_, fun i call hcall => ?_⟩
  · rw [hheld, hsystem]
    exact t.init_sound hpages
  · obtain ⟨-, hfree, hnum⟩ := t.init_filed
    rw [hsystem] at hsetUp hstate
    unfold PageTable.SetUp at hsetUp
    rw [hnum] at hsetUp
    cases (hfree p (by omega)).symm.trans hstate
  · rw [hheld] at hp
    exact absurd hp List.not_mem_nil
  · rw [hcalls i] at hcall
    cases hcall

/-- In every run of safe calls, a page asked for as clear is zero-filled when the call returns. -/
theorem clear_pages_returned (h : By Init Safe Step s) : s.ReturnsClear := by
  have hclean : s.Clean := by
    apply h.invariant (fun s => s.Clean)
    · exact fun s hinit => init_clean hinit
    · exact fun s e s' hs hsafe hstep => hs.step hsafe hstep
  intro i call s' hcall hclear hs' p hp
  obtain ⟨call', hcall', rfl⟩ := Option.map_eq_some_iff.mp hs'
  cases hcall.symm.trans hcall'
  rcases hclean.calls i call hcall hclear p hp with hclears | hzero
  · rw [hclears]
    exact update_self ..
  · cases call.clears with
    | none => exact hzero
    | some page => exact clear_page_zero hzero

/-- Two free pages, with ones in them. -/
def dirtyPages : PageMemory where
  system := ⟨twoPages.vm_page_init, none⟩
  bytes _ _ := 1
  unscrubbed := []
  calls _ := none

theorem init_dirtyPages : Init dirtyPages := ⟨⟨twoPages, by decide, rfl⟩, rfl, fun _ => rfl⟩

/-- The clear queue is empty, and a page is taken from the free queue. -/
theorem clear_pages_returned_free : ∃ s, By Init Safe Step s ∧ s.ReturnsClear ∧
    s.calls 0 = some ⟨[0], some 0, PAGE_STATE_CLEAR⟩ := by
  obtain ⟨s, hs, hcalls⟩ : ∃ s, dirtyPages.step (.vm_page_allocate_page 0 PAGE_STATE_CLEAR) = some s ∧
      s.calls 0 = some ⟨[0], some 0, PAGE_STATE_CLEAR⟩ := ⟨_, rfl, rfl⟩
  have hreach : By Init Safe Step s :=
    .step (a := .vm_page_allocate_page 0 PAGE_STATE_CLEAR) (.init init_dirtyPages) trivial ⟨trivial, hs⟩
  exact ⟨s, hreach, clear_pages_returned hreach, hcalls⟩

/-- A run of one page is asked for, and returned as it was. -/
theorem run_not_cleared : ¬ ∀ s, By Init (fun _ _ => True) Step s → s.ReturnsClear := by
  intro hall
  have hfind : twoPages.vm_page_init.findRun 1 0 = some 0 := by
    rw [PageTable.findRun, if_neg (by decide),
      show (List.range 1).find? _ = none from by decide]
  have hrun : twoPages.vm_page_init.vm_page_allocate_page_run 1 =
      (some 0, twoPages.vm_page_init.vm_page_set_state_nolock 0 PAGE_STATE_BUSY) := by
    unfold PageTable.vm_page_allocate_page_run
    rw [show (1 : addr).toNat = 1 from rfl, hfind]
    rfl
  obtain ⟨s, hs, hcalls, hbytes⟩ : ∃ s,
      dirtyPages.step (.vm_page_allocate_page_run 0 PAGE_STATE_CLEAR 1) = some s ∧
      s.calls 0 = some ⟨[0], none, PAGE_STATE_CLEAR⟩ ∧ s.bytes = fun _ _ => 1 := by
    refine ⟨{ dirtyPages with
      system := ⟨twoPages.vm_page_init.vm_page_set_state_nolock 0 PAGE_STATE_BUSY, none⟩
      calls := update (fun _ => none) 0 (some ⟨[0], none, PAGE_STATE_CLEAR⟩) }, ?_, rfl, rfl⟩
    simp only [step]
    rw [show dirtyPages.system.table.vm_page_allocate_page_run 1 = _ from hrun]
    rfl
  have hreach : By Init (fun _ _ => True) Step s :=
    .step (a := .vm_page_allocate_page_run 0 PAGE_STATE_CLEAR 1) (.init init_dirtyPages) trivial
      ⟨trivial, hs⟩
  have hgo : s.step (.go 0) = some { s with calls := update s.calls 0 none } := by
    simp only [step, hcalls]
    rfl
  have hzero := hall s hreach 0 _ _ hcalls rfl hgo 0 List.mem_cons_self
  change s.bytes 0 = zeroFilled at hzero
  rw [hbytes] at hzero
  exact absurd (congrFun hzero ⟨0, by decide⟩) (by decide)

end PageMemory

end Kernel
