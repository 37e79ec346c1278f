import OpenBeOS.Lib.Bytes
import OpenBeOS.Lib.Chain
import OpenBeOS.Lib.Reachable

/-! # The memory pools of the network stack (`pools.c`)

A pool hands out blocks of one size, which it cuts from areas. The steps are the locked sections
of `pool_get()` and `pool_put()`, and what a thread does between them; the lock of the pool is a
read/write lock. Headers (`struct pool_mem`) are numbered in the order they are made.
-/

namespace Pools

open Bytes Function

def B_PAGE_SIZE : Nat := 4096

/-- `sizeof(struct free_blk)`: a pointer. -/
def sizeofFreeBlk : Nat := 4

/-- `ROUND_TO_PAGE_SIZE()`, with a `size_t` of 32 bits. -/
def roundToPageSize (x : Nat) : Nat := (x + B_PAGE_SIZE - 1) % 2 ^ 32 / B_PAGE_SIZE * B_PAGE_SIZE

/-- `struct pool_mem`; its `next` is its successor in the list of the pool. -/
structure PoolMem where
  aid : Nat
  base_addr : Nat
  mem_size : Nat
  ptr : Nat
  avail : Nat

/-- `struct pool_ctl`. -/
structure PoolCtl where
  list : List Nat
  freelist : Option Nat
  alloc_size : Nat
  block_size : Nat

/-- Where a thread is in `pool_get()`; `mp` is a header with those behind it in the list. -/
inductive Place where
  | outside
  /-- `mp = p->list` was read, without the lock. -/
  | entered (mp : List Nat)
  /-- The free list was empty; the write lock is given up. -/
  | missed (mp : List Nat)
  /-- In the loop, with the read lock, before the lock of `mp`. -/
  | scanning (mp : List Nat)
  /-- Behind the loop, still with the read lock. -/
  | scanned (rv : Option Nat)
  /-- A block is found, and will be cleared. -/
  | found (rv : Nat)
  /-- No block is left: before `get_mem_block()`. -/
  | growing
  /-- In `get_mem_block()`: the new area is not in the list yet. -/
  | made (mp : Nat)
  /-- `get_mem_block()` has returned. -/
  | published (mp : Nat)
  /-- Before the last `memset(rv, 0, p->alloc_size)`. -/
  | carved (rv : Option Nat)
  /-- That `memset()` was called with `NULL`. -/
  | crashed
  deriving DecidableEq

/-- What the calls in `get_mem_block()` come to: `malloc()`, `create_area()`, `create_sem()`. -/
inductive Creation where
  | noHeader
  | noArea
  /-- Without its semaphore the area is deleted again. -/
  | noLock
  | area (aid base_addr : Nat)
  deriving DecidableEq

structure State where
  pool : PoolCtl
  /-- The headers, and how many were made. -/
  blocks : Nat → PoolMem
  made : Nat
  mem : Buffer
  /-- How many threads hold the read lock. -/
  readers : Nat
  threads : Nat → Place
  /-- The blocks that are handed out. -/
  out : List Nat

/-- The sections; `poke` is a write of whoever has a block. -/
inductive Act where
  | enter (t : Nat)
  | tryFreelist (t : Nat)
  | lockRead (t : Nat)
  | carve (t : Nat)
  | unlockRead (t : Nat)
  | createArea (t : Nat) (c : Creation)
  | publish (t : Nat)
  | carveNew (t : Nat)
  | clear (t : Nat)
  | put (ptr : Nat)
  | poke (ptr i : Nat) (v : UInt8)
  deriving DecidableEq

/-! ## The free list -/

/-- A pointer as the number that is stored for it. -/
def pointer : Option Nat → Nat
  | none => 0
  | some p => p

/-- `((struct free_blk *)p)->next`. -/
def nextFree (mem : Buffer) (p : Nat) : Option Nat :=
  if loadLE mem p 4 = 0 then none else some (loadLE mem p 4)

/-! ## The sections -/

/-- `create_area()` finds a place that is free. -/
def Fits (s : State) (aid base : Nat) : Prop :=
  0 < base ∧ base + s.pool.block_size ≤ 2 ^ 32 ∧ ∀ b, b < s.made → (s.blocks b).aid ≠ aid ∧
      ((s.blocks b).base_addr + (s.blocks b).mem_size ≤ base ∨
        base + s.pool.block_size ≤ (s.blocks b).base_addr)

instance (s : State) (aid base : Nat) : Decidable (Fits s aid base) := by
  unfold Fits
  infer_instance

/-- The thread goes on. -/
def State.goTo (s : State) (t : Nat) (place : Place) : State :=
  { s with threads := update s.threads t place }

/-- A block off the top of an area: `rv = mp->ptr; mp->ptr += size; mp->avail -= size`. -/
def State.take (s : State) (b : Nat) : State :=
  { s with
    blocks := update s.blocks b
      { s.blocks b with
        ptr := (s.blocks b).ptr + s.pool.alloc_size
        avail := (s.blocks b).avail - s.pool.alloc_size } }

/-- The header of a new area. -/
def State.addArea (s : State) (aid base : Nat) : State :=
  { s with
    blocks := update s.blocks s.made
      ⟨aid, base, s.pool.block_size, base, s.pool.block_size⟩
    made := s.made + 1 }

/-- `memset(rv, 0, p->alloc_size)`, and the block is handed out. -/
def State.handOut (s : State) (t rv : Nat) : State :=
  { s with
    mem := memset s.mem rv 0 s.pool.alloc_size
    out := rv :: s.out
    threads := update s.threads t .outside }

/-- `pool_put()`. -/
def State.put (s : State) (ptr : Nat) : State :=
  { s with
    pool := { s.pool with freelist := some ptr }
    mem := storeLE (memset s.mem ptr 0 s.pool.alloc_size) ptr 4 (pointer s.pool.freelist)
    out := s.out.erase ptr }

/-- One section; `none` when it cannot be taken now. -/
def step (s : State) : Act → Option State
  | .enter t =>
    match s.threads t with
    | .outside => some (s.goTo t (.entered s.pool.list))
    | _ => none
  | .tryFreelist t =>
    match s.threads t, s.pool.freelist with
    | .entered _, some rv =>
      if s.readers = 0 then
        some ({ s with pool := { s.pool with freelist := nextFree s.mem rv } }.goTo t (.found rv))
      else none
    | .entered mp, none => if s.readers = 0 then some (s.goTo t (.missed mp)) else none
    | _, _ => none
  | .lockRead t =>
    match s.threads t with
    | .missed mp => some ({ s with readers := s.readers + 1 }.goTo t (.scanning mp))
    | _ => none
  | .carve t =>
    match s.threads t with
    | .scanning (b :: rest) =>
      if (s.blocks b).avail ≥ s.pool.alloc_size then
        some ((s.take b).goTo t (.scanned (some (s.blocks b).ptr)))
      else if rest = [] then some (s.goTo t (.scanned none))
      else some (s.goTo t (.scanning rest))
    | _ => none
  | .unlockRead t =>
    match s.threads t with
    | .scanned (some rv) => some ({ s with readers := s.readers - 1 }.goTo t (.found rv))
    | .scanned none => some ({ s with readers := s.readers - 1 }.goTo t .growing)
    | _ => none
  | .createArea t c =>
    match s.threads t, c with
    | .growing, .area aid base =>
      if Fits s aid base then some ((s.addArea aid base).goTo t (.made s.made)) else none
    | .growing, _ => some (s.goTo t .outside)
    | _, _ => none
  | .publish t =>
    match s.threads t with
    | .made b =>
      if s.readers = 0 then
        some ({ s with pool := { s.pool with list := b :: s.pool.list } }.goTo t (.published b))
      else none
    | _ => none
  | .carveNew t =>
    match s.threads t with
    | .published b =>
      if (s.blocks b).avail ≥ s.pool.alloc_size then
        some ((s.take b).goTo t (.carved (some (s.blocks b).ptr)))
      else some (s.goTo t (.carved none))
    | _ => none
  | .clear t =>
    match s.threads t with
    | .found rv => some (s.handOut t rv)
    | .carved (some rv) => some (s.handOut t rv)
    | .carved none => some (s.goTo t .crashed)
    | _ => none
  | .put ptr => if s.readers = 0 ∧ ptr ∈ s.out then some (s.put ptr) else none
  | .poke ptr i v =>
    if ptr ∈ s.out ∧ i < s.pool.alloc_size then
      some { s with mem := update s.mem (ptr + i) v }
    else none

/-! ## Making and deleting a pool -/

/-- `pool_init()`, with what its `get_mem_block()` comes to; the semaphores of the lock are there. -/
def pool_init (size : Nat) (c : Creation) (mem : Buffer) : Option State :=
  if size < sizeofFreeBlk then none
  else
    let empty : State :=
      ⟨⟨[], none, size, roundToPageSize (size * 8 % 2 ^ 32)⟩, fun _ => ⟨0, 0, 0, 0, 0⟩, 0, mem, 0,
        fun _ => .outside, []⟩
    match c with
    | .area aid base =>
      if Fits empty aid base then
        some { empty.addArea aid base with pool := { empty.pool with list := [0] } }
      else none
    | _ => none

/-- What `pool_destroy()` does; the argument of `delete_sem` is the header the lock is in, if that
is not `NULL`. -/
inductive Deletion where
  | delete_area (aid : Nat)
  | delete_sem (header : Option Nat)
  | free (header : Nat)
  deriving DecidableEq

/-- The loop of `pool_destroy()`: the lock it deletes is that of the next header. -/
def destroyLoop (blocks : Nat → PoolMem) : List Nat → List Deletion
  | [] => []
  | temp :: mp =>
    .delete_area (blocks temp).aid :: .delete_sem mp.head? :: .free temp :: destroyLoop blocks mp

/-- `pool_destroy()`, without the lock and the header of the pool itself. -/
def pool_destroy (s : State) : List Deletion := destroyLoop s.blocks s.pool.list

end Pools
