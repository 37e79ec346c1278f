import OpenBeOS.Kernel.PageQueue
import OpenBeOS.Lib.Reachable

/-! # Handing out physical pages

The entry points of `vm_page.c` and the page scrubber, each step being a section under `page_lock`.
The scrubber keeps pages off the queues while it clears them, and their state is still
`PAGE_STATE_FREE`; as long as no other call takes one of these for a free page, each page is in the
queue of its state (`pages_in_queues`).
-/

namespace Kernel

open PageState QueueName

/-! ## The entry points -/

namespace PageTable

/-- A loop over the pages from one on. -/
def forPages (f : PageTable → Nat → PageTable) (t : PageTable) (page : Nat) : Nat → PageTable
  | 0 => t
  | n + 1 => forPages f (f t page) (page + 1) n

/-- The queues are emptied, and all pages but the last one become free. -/
def vm_page_init (t : PageTable) : PageTable :=
  forPages (fun t i => (t.setState i PAGE_STATE_FREE).enqueue_page page_free_queue i)
    { t with queues := fun _ => ⟨none, none, 0⟩ } 0 (t.num_pages.toNat - 1)

def vm_lookup_page (t : PageTable) (page_num : addr) : Option Nat :=
  if page_num < t.physical_page_offset then none
  else if page_num - t.physical_page_offset > t.num_pages then none
  else some (page_num - t.physical_page_offset).toNat

/-- One page of the range: `none` of the other states is touched. -/
def markPage (t : PageTable) (page : Nat) : PageTable :=
  match t.state page with
  | PAGE_STATE_FREE => t.vm_page_set_state_nolock page PAGE_STATE_UNUSED
  | PAGE_STATE_CLEAR => t.vm_page_set_state_nolock page PAGE_STATE_UNUSED
  | _ => t

/-- The number of pages, or `none` for `ERR_INVALID_ARGS`, and the page table. -/
def vm_mark_page_range_inuse (t : PageTable) (start_page len : addr) : Option Nat × PageTable :=
  if t.physical_page_offset > start_page then (none, t)
  else if start_page - t.physical_page_offset + len ≥ t.num_pages then (none, t)
  else
    (some len.toNat, forPages (fun t page => t.markPage (page % 2 ^ 32)) t
        (start_page - t.physical_page_offset).toNat len.toNat)

/-- A page handed out, whether it is cleared, and the page table. -/
structure Allocation where
  page : Option Nat
  cleared : Bool
  table : PageTable

/-- The part of `vm_page_allocate_specific_page` for the page looked up. -/
def takeSpecific (t : PageTable) (p : Nat) (page_state : PageState) : Allocation :=
  match t.state p with
  | PAGE_STATE_FREE =>
    ⟨some p, page_state = PAGE_STATE_CLEAR,
      ((t.remove_page_from_queue page_free_queue p).setState p PAGE_STATE_BUSY).enqueue_page
        page_active_queue p⟩
  | PAGE_STATE_CLEAR =>
    ⟨some p, false,
      ((t.remove_page_from_queue page_clear_queue p).setState p PAGE_STATE_BUSY).enqueue_page
        page_active_queue p⟩
  | PAGE_STATE_UNUSED => ⟨some p, page_state = PAGE_STATE_CLEAR, t.setState p PAGE_STATE_BUSY⟩
  | _ => ⟨none, false, t⟩

def vm_page_allocate_specific_page (t : PageTable) (page_num : addr) (page_state : PageState) :
    Allocation :=
  match t.vm_lookup_page page_num with
  | none => ⟨none, false, t⟩
  | some p => t.takeSpecific p page_state

/-- The part of `vm_page_allocate_page` under the lock; `none` if it panics. -/
def allocateFrom (t : PageTable) (page_state : PageState) (q q_other : QueueName) :
    Option Allocation :=
  match t.dequeue_page q with
  | (some p, t') =>
    some ⟨some p, page_state = PAGE_STATE_CLEAR ∧ t'.state p = PAGE_STATE_FREE,
      (t'.setState p PAGE_STATE_BUSY).enqueue_page page_active_queue p⟩
  | (none, t') =>
    match t'.dequeue_page q_other with
    | (some p, t'') =>
      some ⟨some p, page_state = PAGE_STATE_CLEAR ∧ t''.state p = PAGE_STATE_FREE,
        (t''.setState p PAGE_STATE_BUSY).enqueue_page page_active_queue p⟩
    | (none, _) => none

def vm_page_allocate_page (t : PageTable) (page_state : PageState) : Option Allocation :=
  match page_state with
  | PAGE_STATE_FREE => t.allocateFrom page_state page_free_queue page_clear_queue
  | PAGE_STATE_CLEAR => t.allocateFrom page_state page_clear_queue page_free_queue
  | _ => some ⟨none, false, t⟩

/-- A page that the run allocator takes. -/
def available (t : PageTable) (page : Nat) : Bool :=
  t.state page = PAGE_STATE_FREE || t.state page = PAGE_STATE_CLEAR

/-- The search for the run. It goes on behind the first page that is not available, so `start` and
`start + len` stay below twice the number of pages, and no sum wraps. -/
def findRun (t : PageTable) (len start : Nat) : Option Nat :=
  if t.num_pages.toNat ≤ start + len then none
  else
    match (List.range len).find? (fun i => !t.available (start + i)) with
    | none => some start
    | some i =>
      if t.num_pages.toNat ≤ start + (i + 1) then none else findRun t len (start + (i + 1))
  termination_by t.num_pages.toNat - start

/-- The first page of the run, and the page table. -/
def vm_page_allocate_page_run (t : PageTable) (len : addr) : Option Nat × PageTable :=
  match t.findRun len.toNat 0 with
  | none => (none, t)
  | some start =>
    (some start,
      forPages (fun t page => t.vm_page_set_state_nolock page PAGE_STATE_BUSY) t start len.toNat)

/-- The scrubber takes up to `n` free pages. -/
def scrubTake : Nat → PageTable → List Nat × PageTable
  | 0, t => ([], t)
  | n + 1, t =>
    match t.dequeue_page page_free_queue with
    | (none, t') => ([], t')
    | (some page, t') => (page :: (scrubTake n t').1, (scrubTake n t').2)

/-- The scrubber puts the pages it has cleared into the clear queue. -/
def scrubPut (pages : List Nat) (t : PageTable) : PageTable :=
  pages.foldl
    (fun t page => (t.setState page PAGE_STATE_CLEAR).enqueue_page page_clear_queue page) t

end PageTable

def SCRUB_SIZE : Nat := 16

/-! ## The system -/

/-- The page table, and the pages the scrubber has taken, from its first section to its second. -/
structure PageSystem where
  table : PageTable
  scrubbing : Option (List Nat)

inductive PageCall where
  | allocate_page (page_state : PageState)
  | allocate_specific_page (page_num : addr) (page_state : PageState)
  | allocate_page_run (len : addr)
  | set_state (page : Nat) (page_state : PageState)
  | mark_page_range_inuse (start_page len : addr)
  | scrubTake
  | scrubPut

/-- The pages handed out and the state behind a section, `none` if the call panics, or if the
scrubber is not there. -/
def PageSystem.step (s : PageSystem) : PageCall → Option (List Nat × PageSystem)
  | .allocate_page page_state =>
    (s.table.vm_page_allocate_page page_state).map fun a =>
    (a.page.toList, { s with table := a.table })
  | .allocate_specific_page page_num page_state =>
    let a := s.table.vm_page_allocate_specific_page page_num page_state
    some (a.page.toList, { s with table := a.table })
  | .allocate_page_run len =>
    let (first_page, table) := s.table.vm_page_allocate_page_run len
    some (first_page.elim [] fun start => List.range' start len.toNat, { s with table })
  | .set_state page page_state =>
    some ([], { s with table := s.table.vm_page_set_state_nolock page page_state })
  | .mark_page_range_inuse start_page len =>
    some ([], { s with table := (s.table.vm_mark_page_range_inuse start_page len).2 })
  | .scrubTake =>
    match s.scrubbing with
    | none =>
      let (pages, table) := s.table.scrubTake SCRUB_SIZE
      some ([], ⟨table, some pages⟩)
    | some _ => none
  | .scrubPut =>
    match s.scrubbing with
    | none => none
    | some pages => some ([], ⟨s.table.scrubPut pages, none⟩)

def PageSystem.Step (s : PageSystem) (call : PageCall) (s' : PageSystem) : Prop :=
  ∃ handed, s.step call = some (handed, s')

/-- The state behind `vm_page_init`, from any contents of the memory of the page table. -/
def PageSystem.Init (s : PageSystem) : Prop :=
  ∃ t : PageTable, 0 < t.num_pages.toNat ∧ s = ⟨t.vm_page_init, none⟩

/-- The pages the scrubber holds. -/
def PageSystem.held (s : PageSystem) : List Nat := s.scrubbing.getD []

/-- `vm_page_init` has set the page up. -/
def PageTable.SetUp (t : PageTable) (page : Nat) : Prop := page + 1 < t.num_pages.toNat

instance (t : PageTable) : DecidablePred t.SetUp := fun _ => Nat.decLt _ _

/-- Each page that is set up is in the queue of its state and in no other one, or the scrubber holds
it and its state is `PAGE_STATE_FREE`. -/
def PageSystem.InQueues (s : PageSystem) : Prop :=
  ∃ pages, s.table.Linked pages ∧
    (∀ q p, p ∈ pages q ↔ s.table.SetUp p ∧ p ∉ s.held ∧ (s.table.state p).queue = q) ∧
    ∀ p ∈ s.held, s.table.SetUp p ∧ s.table.state p = PAGE_STATE_FREE

/-- The first `len` pages in a row that are available. -/
def PageTable.FirstRun (t : PageTable) (len start : Nat) : Prop :=
  start + len < t.num_pages.toNat ∧ (∀ i < len, t.available (start + i)) ∧
    ∀ start' < start, ¬ ∀ i < len, t.available (start' + i)

/-- The call takes no page from the scrubber, and none that is not set up. -/
def PageSystem.Safe (s : PageSystem) : PageCall → Prop
  | .allocate_specific_page page_num _ =>
    ∀ p, s.table.vm_lookup_page page_num = some p → s.table.available p →
      s.table.SetUp p ∧ p ∉ s.held
  | .allocate_page_run len =>
    ∀ start, s.table.FirstRun len.toNat start → ∀ i < len.toNat, start + i ∉ s.held
  | .set_state page page_state =>
    s.table.SetUp page ∧ (page ∈ s.held → page_state = PAGE_STATE_FREE)
  | .mark_page_range_inuse start_page len =>
    s.table.physical_page_offset ≤ start_page →
      start_page - s.table.physical_page_offset + len < s.table.num_pages →
      (start_page - s.table.physical_page_offset).toNat + len.toNat < 2 ^ 32 ∧
        ∀ i < len.toNat, (start_page - s.table.physical_page_offset).toNat + i ∉ s.held
  | _ => True

end Kernel
