import OpenBeOS.Kernel.SoftFault

/-! # Committing memory

What `map_backing_store`, `vm_cache_release_ref` and `vm_resize_region` do to `max_commit` and to the
sizes of the caches. A cache is given by its number, and so are its `vm_cache_ref` and its store.
-/

namespace Kernel

/-! ## The caches -/

/-- A cache, the `committed_size` of its store and the `ref_count` of its `vm_cache_ref`. -/
structure CommitCache where
  store : vm_store
  committed_size : Int
  virtual_size : Int
  temporary : Bool
  source : Option Nat
  ref_count : Int

/-- The commitment that the store reports, and its `committed_size` behind that. -/
def vm_store.commit : vm_store → (committed_size size : Int) → Int × Int
  | .anonymous, committed_size, _ => (0, committed_size)
  | _, _, size => (size, size)

/-- Whether the cache created for the store is temporary. -/
def vm_store.temporary : vm_store → Bool
  | .anonymous => true
  | _ => false

/-- `live` are the caches that exist, and `boot_commit` is what `max_commit` was at boot. -/
structure CommitState where
  max_commit : Int
  boot_commit : Int
  live : List Nat
  cache : Nat → CommitCache

inductive InsertError where
  | ERR_VM_INVALID_ASPACE
  | ERR_VM_BAD_ADDRESS
  | ERR_VM_NO_REGION_SLOT
  | EINVAL
  deriving DecidableEq

inductive MapError where
  | ENOMEM
  | ERR_VM_WOULD_OVERCOMMIT
  /-- The region cannot be inserted into the address space. -/
  | insert (err : InsertError)
  deriving DecidableEq

namespace CommitState

section

variable (s : CommitState)

def setCache (c : Nat) (x : CommitCache) : CommitState :=
  { s with cache := Function.update s.cache c x }

/-- A store and a cache for it. -/
def createCache (c : Nat) (store : vm_store) (source : Option Nat) :
    CommitState :=
  { s with live := c :: s.live }.setCache c
    ⟨store, 0, 0, store.temporary, source, 0⟩

def vm_cache_acquire_ref (c : Nat) : CommitState :=
  s.setCache c { s.cache c with ref_count := (s.cache c).ref_count + 1 }

def dropRef (c : Nat) : CommitState :=
  s.setCache c { s.cache c with ref_count := (s.cache c).ref_count - 1 }

def vm_increase_max_commit (delta : Int) : CommitState :=
  { s with max_commit := toInt (s.max_commit + delta % 2 ^ 32) }

/-- The cache is freed. -/
def destroy (c : Nat) : CommitState :=
  { s.vm_increase_max_commit ((s.cache c).virtual_size - (s.cache c).committed_size) with
    live := s.live.erase c }

end

/-- The recursion through the sources; each round but the last frees a cache. -/
def releaseLoop : Nat → CommitState → Nat → Option CommitState
  | 0, _, _ => none
  | fuel + 1, s, c =>
    if (s.cache c).ref_count = 1 then
      match (s.cache c).source with
      | some source => releaseLoop fuel ((s.dropRef c).destroy c) source
      | none => some ((s.dropRef c).destroy c)
    else some (s.dropRef c)

def vm_cache_release_ref (s : CommitState) (c : Nat) : Option CommitState :=
  releaseLoop (s.live.length + 1) s c

/-! ## Mapping a store -/

/-- The commitment for a mapping that ends at `stop`. -/
def charge (s : CommitState) (c : Nat) (stop : Int) : Option MapError × CommitState :=
  let x := s.cache c
  if x.committed_size < stop then
    let (commitment, committed_size) := x.store.commit x.committed_size stop
    let s := s.setCache c { x with committed_size }
    if commitment < stop then
      if x.temporary then
        if s.max_commit - x.committed_size + commitment < stop then
          (some .ERR_VM_WOULD_OVERCOMMIT, s)
        else
          (none, { s with
            max_commit := toInt (s.max_commit +
              ((commitment - x.committed_size) - (stop - x.virtual_size)))
          }.setCache c { x with committed_size, virtual_size := stop })
      else (some .ENOMEM, s)
    else (none, s)
  else (none, s)

/-- The part of `map_backing_store` behind the choice of the cache. -/
def mapCache (s : CommitState) (c : Nat) (stop : Int) (isPrivate : Bool)
    (inserted : Option InsertError) : Option (Option MapError × CommitState) :=
  match s.charge c stop with
  | (some err, s) =>
    if isPrivate then
      ((s.vm_cache_acquire_ref c).vm_cache_release_ref c).map fun s => (some err, s)
    else some (some err, s)
  | (none, s) =>
    match inserted with
    | some err =>
      ((s.vm_cache_acquire_ref c).vm_cache_release_ref c).map fun s => (some (.insert err), s)
    | none => some (none, s.vm_cache_acquire_ref c)

/-- A mapping of a cache: `structs` says if there is memory for the region, `nu_cache` is the new
cache of a private mapping, and `inserted` is the error at inserting the region, if any. -/
structure MapCall where
  cache : Nat
  offset : Int
  size : addr
  structs : Bool
  nu_cache : Option Nat
  inserted : Option InsertError

def MapCall.stop (call : MapCall) : Int := call.offset + call.size.toNat

def map_backing_store (s : CommitState) (call : MapCall) : Option (Option MapError × CommitState) :=
  if call.structs = false then some (some .ENOMEM, s)
  else
    match call.nu_cache with
    | some nu_cache =>
      ((s.createCache nu_cache .anonymous (some call.cache)).vm_cache_acquire_ref
        call.cache).mapCache nu_cache call.stop true call.inserted
    | none => s.mapCache call.cache call.stop false call.inserted

/-- A region of the cache can be resized if the next region does not begin in its new extent.
`regions` are the bases of the regions of the cache, each behind that of the next region. -/
def canResize (regions : List (addr × addr)) (newSize : addr) : Bool :=
  regions.all fun (next_base, base) => ¬ next_base ≤ base + newSize

def vm_resize_region (s : CommitState) (c : Nat) (newSize : addr) (regions : List (addr × addr)) :
    CommitState :=
  if canResize regions newSize then
    s.setCache c { s.cache c with virtual_size := newSize.toNat }
  else s

/-! ## The system -/

inductive CommitCall where
  | create (c : Nat) (store : vm_store)
  | acquire_ref (c : Nat)
  | release_ref (c : Nat)
  | map_backing_store (call : MapCall)
  | resize_region (c : Nat) (newSize : addr) (regions : List (addr × addr))

/-- A caller holds a reference to the cache it maps, and a new cache is none that exists. -/
def MapCall.Legal (call : MapCall) (s : CommitState) : Prop :=
  1 ≤ (s.cache call.cache).ref_count ∧ ∀ c ∈ call.nu_cache, c ∉ s.live

instance (call : MapCall) (s : CommitState) : Decidable (call.Legal s) :=
  inferInstanceAs (Decidable (_ ∧ _))

/-- The state behind a call. A new cache is none that exists, and a caller holds a reference to the
cache it releases or resizes. -/
def step (s : CommitState) : CommitCall → Option CommitState
  | .create c store => if c ∈ s.live then none else some (s.createCache c store none)
  | .acquire_ref c => if c ∈ s.live then some (s.vm_cache_acquire_ref c) else none
  | .release_ref c => if 1 ≤ (s.cache c).ref_count then s.vm_cache_release_ref c else none
  | .map_backing_store call =>
    if call.Legal s then
      (s.map_backing_store call).map Prod.snd
    else none
  | .resize_region c newSize regions =>
    if 1 ≤ (s.cache c).ref_count then some (s.vm_resize_region c newSize regions) else none

def Step (s : CommitState) (call : CommitCall) (s' : CommitState) : Prop := s.step call = some s'

def Init (s : CommitState) : Prop :=
  s.live = [] ∧ (∀ c, (s.cache c).ref_count = 0) ∧ s.max_commit = s.boot_commit ∧
    -2 ^ 31 ≤ s.boot_commit ∧ s.boot_commit < 2 ^ 31

/-- What the cache has promised, if it is temporary. -/
def promise (x : CommitCache) : Int := if x.temporary then x.virtual_size else 0

def promised (s : CommitState) : Int := (s.live.map fun c => promise (s.cache c)).sum

/-- The size that the cache has promised before the mapping. -/
def MapCall.promised (call : MapCall) (s : CommitState) : Int :=
  match call.nu_cache with
  | some _ => 0
  | none => (s.cache call.cache).virtual_size

/-- The caches that releasing a reference frees: those down the chain with one reference. -/
def doomed : Nat → CommitState → Nat → List Nat
  | 0, _, _ => []
  | fuel + 1, s, c =>
    if (s.cache c).ref_count = 1 then
      c :: match (s.cache c).source with
        | some source => doomed fuel s source
        | none => []
    else []

/-- No cache is freed that is not temporary, unless it gives back what its store has committed; no
temporary cache is resized to another size; and a mapping of a temporary cache is not refused for the
size that the cache has promised already. -/
def Safe (s : CommitState) : CommitCall → Prop
  | .release_ref c =>
    ∀ x ∈ s.doomed (s.live.length + 1) c, (s.cache x).temporary = false →
      (s.cache x).virtual_size = (s.cache x).committed_size
  | .resize_region c newSize regions =>
    (s.cache c).temporary → canResize regions newSize → newSize.toNat = (s.cache c).virtual_size
  | .map_backing_store call =>
    call.nu_cache = none → (s.cache call.cache).temporary → s.max_commit < call.stop →
      s.max_commit + (s.cache call.cache).virtual_size < call.stop
  | .create _ _ => True
  | .acquire_ref _ => True

instance (s : CommitState) : DecidablePred s.Safe
  | .create _ _ => instDecidableTrue
  | .acquire_ref _ => instDecidableTrue
  | .release_ref _ => inferInstanceAs (Decidable (∀ _ ∈ _, _ → _))
  | .map_backing_store _ => inferInstanceAs (Decidable (_ → _ → _ → _))
  | .resize_region _ _ _ => inferInstanceAs (Decidable (_ → _ → _))

end CommitState

end Kernel
