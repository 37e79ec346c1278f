import OpenBeOS.Kernel.PageRun
import OpenBeOS.Kernel.Region
import OpenBeOS.Kernel.VmCache

/-! # Page faults

`vm_soft_fault` of `vm.c`, by any number of threads. Each step of a thread is at most one section
between `mutex_lock` and `mutex_unlock` of a cache. The regions hold references to their caches, so
no cache goes away.
-/

namespace Kernel

open PageState Function

/-! ## Caches and address spaces -/

abbrev PageContents := Fin 4096 → BitVec 8

/-- What `clear_page` leaves. -/
def PageContents.clear : PageContents := fun _ => 0

/-- A store and its data. `readpage` is `vfs_readpage` of the vnode, `none` if it fails. -/
inductive vm_store where
  | anonymous
  | device (base_addr : addr)
  | vnode (readpage : off_t → Option PageContents)
  | null

def vm_store.has_page : vm_store → Bool
  | .anonymous => false
  | .device _ => false
  | .vnode _ => true
  | .null => true

/-- What the store reads into a page, `none` if it writes nothing and returns an error. -/
def vm_store.read : vm_store → off_t → Option PageContents
  | .vnode readpage, offset => readpage offset
  | _, _ => none

/-- The store has a fault handler of its own. -/
def vm_store.has_fault : vm_store → Bool
  | .device _ => true
  | .null => true
  | _ => false

/-- A `vm_region`, with what a fault reads of it. -/
structure mapped_region extends vm_region where
  lock : BitVec 32
  cache_ref : Nat
  cache_offset : off_t

def LOCK_RW : BitVec 32 := 0x1
def LOCK_KERNEL : BitVec 32 := 0x2

structure vm_cache where
  source : Option Nat
  store : vm_store
  region_list : List mapped_region

/-- `translation_map` gives the physical address and the lock an address is mapped with. -/
structure vm_address_space where
  region_list : List mapped_region
  region_hint : Option mapped_region
  change_count : Int
  translation_map : addr → Option (addr × BitVec 32)

def mapped_region.covers (region : mapped_region) (address : addr) : Bool :=
  region.base ≤ address && region.base + region.size > address

/-- The region found, which becomes the hint. -/
def vm_address_space.vm_virtual_map_lookup (aspace : vm_address_space) (address : addr) :
    Option mapped_region × vm_address_space :=
  match aspace.region_hint.filter (·.covers address) with
  | some region => (some region, aspace)
  | none =>
    match aspace.region_list.find? (·.covers address) with
    | some region => (some region, { aspace with region_hint := some region })
    | none => (none, aspace)

def vm_address_space.map (aspace : vm_address_space) (va pa : addr) (lock : BitVec 32) :
    vm_address_space :=
  { aspace with translation_map := update aspace.translation_map va (some (pa, lock)) }

/-- The address of a page, `ppn * PAGE_SIZE`. -/
def PageTable.paddr (t : PageTable) (page : Nat) : addr :=
  (t.physical_page_offset + BitVec.ofNat 32 page) * 4096

def USER_BASE : addr := 0x100000
def USER_TOP : addr := USER_BASE + (0x80000000 - (0x10000 + 0x100000))

/-! ## The threads -/

inductive FaultError where
  | ERR_VM_PF_FATAL
  | ERR_VM_PF_BAD_ADDRESS
  | ERR_VM_PF_BAD_PERM
  deriving DecidableEq

open FaultError

/-- The variables of a call that do not change once the search begins. -/
structure Fault where
  aspace : Nat
  address : addr
  is_write : Bool
  region : mapped_region
  cache_offset : off_t
  change_count : Int

def Fault.top_cache_ref (f : Fault) : Nat := f.region.cache_ref

/-- Where a call is, and its pages and caches there. -/
inductive Place where
  /-- At the lock of the next cache of the chain. -/
  | search (cache_ref : Nat)
  /-- The store of the cache has the page. -/
  | read (cache_ref : Nat)
  | insertRead (cache_ref page : Nat)
  /-- No cache has the page, and this one gets it. -/
  | zero (cache_ref : Nat)
  | insertZero (cache_ref page : Nat)
  | dropZero (page : Nat)
  /-- The page with the data is found. -/
  | found (page : Nat)
  | insertCopy (page : Nat)
  | dropCopy (page : Nat)
  | map (page : Nat)
  | dropMapped (page : Nat) (err : Option FaultError)
  | activate (page : Nat) (err : Option FaultError)
  deriving DecidableEq

/-- The cache that a page read or zeroed is inserted into. -/
def Place.inserted : Place → Option Nat
  | insertRead cache_ref _ => some cache_ref
  | insertZero cache_ref _ => some cache_ref
  | _ => none

/-- A thread in a call, or the value its last call has returned, `none` being `0`. -/
inductive FaultThread where
  | running (f : Fault) (place : Place)
  | returned (err : Option FaultError)

structure VmSystem where
  table : PageTable
  contents : Nat → PageContents
  caches : VmCaches
  cache : Nat → vm_cache
  aspace : Nat → vm_address_space
  kernel_aspace : Nat
  user_aspace : Nat → Option Nat
  dummy_state : Nat → PageState
  thread : Nat → FaultThread

namespace VmSystem

section

variable (s : VmSystem)

def setThread (t : Nat) (x : FaultThread) : VmSystem :=
  { s with thread := update s.thread t x }

def setAspace (a : Nat) (aspace : vm_address_space) : VmSystem :=
  { s with aspace := update s.aspace a aspace }

def setDummy (t : Nat) (page_state : PageState) : VmSystem :=
  { s with dummy_state := update s.dummy_state t page_state }

def setContents (page : Nat) (contents : PageContents) : VmSystem :=
  { s with contents := update s.contents page contents }

def insertPage (cache_ref : Nat) (page : vm_page) (offset : off_t) : VmSystem :=
  { s with caches := s.caches.vm_cache_insert_page cache_ref page offset }

/-- The dummy page of a thread leaves a cache, and becomes inactive. -/
def dropDummy (cache_ref t : Nat) : VmSystem :=
  { s with caches := s.caches.vm_cache_remove_page cache_ref (.dummy t) }.setDummy t
    PAGE_STATE_INACTIVE

def vm_page_set_state (page : Nat) (page_state : PageState) : VmSystem :=
  { s with table := s.table.vm_page_set_state_nolock page page_state }

/-- A page, `none` if there is no page left. -/
def vm_page_allocate_page (page_state : PageState) : Option (Nat × VmSystem) :=
  match s.table.vm_page_allocate_page page_state with
  | some ⟨some page, cleared, table⟩ =>
    some (page, { s with
      table
      contents := if cleared then update s.contents page PageContents.clear
        else s.contents })
  | _ => none

def state : vm_page → PageState
  | .physical page => s.table.state page
  | .dummy t => s.dummy_state t

end

/-! ## The beginning of a call -/

/-- The region of the list is mapped, if it covers the offset. -/
def device_map (base_addr : addr) (offset : off_t) (aspace : vm_address_space)
    (region : mapped_region) : vm_address_space :=
  if region.cache_offset.sle offset ∧
      (offset - region.cache_offset).slt (region.size.setWidth 64) then
    aspace.map (region.base + (offset - region.cache_offset).setWidth 32)
      (base_addr + offset.setWidth 32) region.lock
  else aspace

/-- The fault handler of the store of a cache, if it has one. -/
def fault (s : VmSystem) (cache_ref a : Nat) (offset : off_t) :
    Option (Option FaultError × VmSystem) :=
  match (s.cache cache_ref).store with
  | .device base_addr =>
    some (none, s.setAspace a
      ((s.cache cache_ref).region_list.foldl (device_map base_addr offset) (s.aspace a)))
  | .null => some (some ERR_VM_PF_FATAL, s)
  | _ => none

/-- The address space of an address: `none` if the call panics, and an error if there is none. -/
def fault_aspace (s : VmSystem) (t : Nat) (address : addr) (is_user : Bool) :
    Option (Except FaultError Nat) :=
  if KERNEL_BASE ≤ address ∧ address ≤ KERNEL_TOP then some (.ok s.kernel_aspace)
  else if USER_BASE ≤ address ∧ address ≤ USER_TOP then
    match s.user_aspace t with
    | some a => some (.ok a)
    | none => if is_user then none else some (.error ERR_VM_PF_FATAL)
  else some (.error ERR_VM_PF_FATAL)

/-- The call up to the search, in an address space. -/
def beginFault (s : VmSystem) (t a : Nat) (address : addr) (is_write is_user : Bool) : VmSystem :=
  let (found, aspace) := (s.aspace a).vm_virtual_map_lookup address
  let s := s.setAspace a aspace
  match found with
  | none => s.setThread t (.returned (some ERR_VM_PF_BAD_ADDRESS))
  | some region =>
    if is_user ∧ region.lock &&& LOCK_KERNEL = LOCK_KERNEL then
      s.setThread t (.returned (some ERR_VM_PF_BAD_PERM))
    else if is_write ∧ region.lock &&& LOCK_RW = 0 then
      s.setThread t (.returned (some ERR_VM_PF_BAD_PERM))
    else
      let cache_offset := (address - region.base).setWidth 64 + region.cache_offset
      match s.fault region.cache_ref a cache_offset with
      | some (err, s) => s.setThread t (.returned err)
      | none =>
        (s.setDummy t PAGE_STATE_INACTIVE).setThread t
          (.running ⟨a, address, is_write, region, cache_offset, aspace.change_count⟩
            (.search region.cache_ref))

def ROUNDOWN (address : addr) : addr := address / 4096 * 4096

section

variable (s : VmSystem)

/-- A thread calls `vm_soft_fault`; `none` if that panics. -/
def vm_soft_fault (t : Nat) (address : addr) (is_write is_user : Bool) :
    Option VmSystem :=
  (s.fault_aspace t (ROUNDOWN address) is_user).map fun
    | .error err => s.setThread t (.returned (some err))
    | .ok a => s.beginFault t a (ROUNDOWN address) is_write is_user

/-! ## The steps of a call -/

/-- Where the call goes on behind a cache that does not have the page. -/
def nextPlace (f : Fault) (cache_ref : Nat) : Place :=
  if (s.cache cache_ref).store.has_page then .read cache_ref
  else
    match (s.cache cache_ref).source with
    | some source => .search source
    | none => .zero (if f.is_write then f.top_cache_ref else cache_ref)

/-- The section under the lock of a cache of the chain. A thread that finds the page busy comes
back to the same place. -/
def searchCache (t : Nat) (f : Fault) (cache_ref : Nat) : Option VmSystem :=
  match s.caches.vm_cache_lookup_page cache_ref f.cache_offset with
  | some page =>
    if s.state page = PAGE_STATE_BUSY then some s
    else
      match page with
      | .physical p =>
        some ((s.vm_page_set_state p PAGE_STATE_BUSY).setThread t (.running f (.found p)))
      -- a dummy page in a cache is busy
      | .dummy _ => none
  | none =>
    let s :=
      if cache_ref = f.top_cache_ref then
        (s.setDummy t PAGE_STATE_BUSY).insertPage cache_ref (.dummy t) f.cache_offset
      else s
    some (s.setThread t (.running f (s.nextPlace f cache_ref)))

/-- The dummy page, if it is in the cache, makes room for the page. -/
def replaceDummy (t : Nat) (f : Fault) (cache_ref page : Nat) : VmSystem :=
  (if s.dummy_state t = PAGE_STATE_BUSY ∧ s.caches.cache_ref (.dummy t) = some cache_ref then
    s.dropDummy cache_ref t
  else s).insertPage cache_ref (.physical page) f.cache_offset

/-- The dummy page leaves the cache it is in. -/
def dropTemp (t : Nat) : VmSystem :=
  match s.caches.cache_ref (.dummy t) with
  | some temp_cache => s.dropDummy temp_cache t
  | none => s

/-- The address is still in the region of the fault; if the address space has changed, it is looked
up again. -/
def checkRegion (f : Fault) :
    Option FaultError × Option mapped_region × vm_address_space :=
  if f.change_count ≠ (s.aspace f.aspace).change_count then
    match (s.aspace f.aspace).vm_virtual_map_lookup f.address with
    | (some region, aspace) =>
      if region.cache_ref ≠ f.top_cache_ref ∨
          (f.address - region.base).setWidth 64 + region.cache_offset ≠ f.cache_offset then
        (some ERR_VM_PF_BAD_ADDRESS, some region, aspace)
      else (none, some region, aspace)
    | (none, aspace) => (some ERR_VM_PF_BAD_ADDRESS, none, aspace)
  else (none, some f.region, s.aspace f.aspace)

/-- The lock a page is mapped with. -/
def new_lock (f : Fault) (region : mapped_region) (page : Nat) : BitVec 32 :=
  if s.caches.cache_ref (.physical page) ≠ some f.top_cache_ref ∧ ¬ f.is_write then
    region.lock &&& ~~~LOCK_RW
  else region.lock

/-- The page is mapped, if the address is still in the region. -/
def mapPage (f : Fault) (page : Nat) : Option FaultError × VmSystem :=
  match s.checkRegion f with
  | (none, some region, aspace) =>
    (none, s.setAspace f.aspace
      (aspace.map f.address (s.table.paddr page) (s.new_lock f region page)))
  | (err, _, aspace) => (err, s.setAspace f.aspace aspace)

/-- The dummy page is dropped at one of its last places, if it is still there. -/
def afterDrop (t : Nat) (drop go : Place) : Place :=
  if s.dummy_state t = PAGE_STATE_BUSY then drop else go

/-- The next step of a thread in a call. -/
def go (t : Nat) (f : Fault) : Place → Option VmSystem
  | .search cache_ref => s.searchCache t f cache_ref
  | .read cache_ref =>
    (s.vm_page_allocate_page PAGE_STATE_FREE).map fun (page, s) =>
    -- the error of the store is not looked at
    (match (s.cache cache_ref).store.read f.cache_offset with
      | some contents => s.setContents page contents
      | none => s).setThread t (.running f (.insertRead cache_ref page))
  | .insertRead cache_ref page =>
    some (((if cache_ref = f.top_cache_ref then s.dropDummy cache_ref t else s).insertPage cache_ref
      (.physical page) f.cache_offset).setThread t (.running f (.found page)))
  | .zero cache_ref =>
    (s.vm_page_allocate_page PAGE_STATE_CLEAR).map fun (page, s) =>
    s.setThread t (.running f (.insertZero cache_ref page))
  | .insertZero cache_ref page =>
    let s := s.replaceDummy t f cache_ref page
    some (s.setThread t (.running f (s.afterDrop t (.dropZero page) (.found page))))
  | .dropZero page => some ((s.dropTemp t).setThread t (.running f (.found page)))
  | .found src_page =>
    if s.caches.cache_ref (.physical src_page) ≠ some f.top_cache_ref ∧ f.is_write then
      (s.vm_page_allocate_page PAGE_STATE_FREE).map fun (page, s) =>
        ((s.setContents page (s.contents src_page)).vm_page_set_state src_page
          PAGE_STATE_ACTIVE).setThread t (.running f (.insertCopy page))
    else some (s.setThread t (.running f (.map src_page)))
  | .insertCopy page =>
    let s := s.replaceDummy t f f.top_cache_ref page
    some (s.setThread t (.running f (s.afterDrop t (.dropCopy page) (.map page))))
  | .dropCopy page => some ((s.dropTemp t).setThread t (.running f (.map page)))
  | .map page =>
    let (err, s) := s.mapPage f page
    some (s.setThread t (.running f (s.afterDrop t (.dropMapped page err) (.activate page err))))
  | .dropMapped page err => some ((s.dropTemp t).setThread t (.running f (.activate page err)))
  | .activate page err =>
    some ((s.vm_page_set_state page PAGE_STATE_ACTIVE).setThread t (.returned err))

end

/-! ## The system -/

inductive FaultAction where
  | vm_soft_fault (thread : Nat) (address : addr) (is_write is_user : Bool)
  | go (thread : Nat)

/-- The state behind a step, `none` if the thread panics or cannot do the step. -/
def step (s : VmSystem) : FaultAction → Option VmSystem
  | .vm_soft_fault t address is_write is_user =>
    match s.thread t with
    | .returned _ => s.vm_soft_fault t address is_write is_user
    | .running _ _ => none
  | .go t =>
    match s.thread t with
    | .returned _ => none
    | .running f place => s.go t f place

def Step (s : VmSystem) (a : FaultAction) (s' : VmSystem) : Prop := s.step a = some s'

/-- A page that is set up and not available. -/
def InUse (s : VmSystem) (page : Nat) : Prop := s.table.SetUp page ∧ ¬ s.table.available page

/-- No call is under way, the page table is sound, and the caches hold physical pages in use, one
per offset. -/
structure Idle (s : VmSystem) : Prop where
  returned : ∀ t, ∃ err, s.thread t = .returned err
  table : ∃ held, s.table.Sound held
  coherent : s.caches.Coherent
  physical : ∀ page ∈ s.caches.page_cache_table, ∃ p, page = .physical p ∧ s.InUse p
  onePerOffset : s.caches.OnePerOffset

/-- A page read or zeroed for a cache below the top one finds no page at its offset there. -/
def SafeIn (s : VmSystem) : FaultThread → Prop
  | .running f place => ∀ c ∈ place.inserted, c ≠ f.top_cache_ref →
      s.caches.vm_cache_lookup_page c f.cache_offset = none
  | .returned _ => True

instance (s : VmSystem) : DecidablePred s.SafeIn
  | .running _ _ => inferInstanceAs (Decidable (∀ _ ∈ _, _))
  | .returned _ => instDecidableTrue

def Safe (s : VmSystem) : FaultAction → Prop
  | .vm_soft_fault _ _ _ _ => True
  | .go t => s.SafeIn (s.thread t)

instance (s : VmSystem) : DecidablePred s.Safe
  | .vm_soft_fault _ _ _ _ => instDecidableTrue
  | .go _ => inferInstanceAs (Decidable (s.SafeIn _))

end VmSystem

end Kernel
