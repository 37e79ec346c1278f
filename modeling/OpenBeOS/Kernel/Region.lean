import OpenBeOS.Kernel.Types
import OpenBeOS.Lib.Intervals

/-! # The regions of an address space

`find_and_insert_region_slot` of `vm.c`, as `map_backing_store` calls it. A region list is sorted by
base, and its regions are disjoint. The search keeps that and finds a gap if there is one, as long
as its sums do not wrap; `map_backing_store_slot_iff` says for which requests it does.
-/

namespace Kernel

open Intervals

/-! ## The search -/

inductive RegionAddr where
  | REGION_ADDR_ANY_ADDRESS
  | REGION_ADDR_EXACT_ADDRESS
  /-- Any other value of the `int`. -/
  | other
  deriving DecidableEq

inductive VmError where
  | ERR_VM_BAD_ADDRESS
  | ERR_VM_NO_REGION_SLOT
  | EINVAL
  deriving DecidableEq

open RegionAddr VmError

structure vm_region where
  base : addr
  size : addr
  deriving DecidableEq

/-- `region_list` are the regions in the order of their `aspace_next` pointers. -/
structure vm_virtual_map where
  region_list : List vm_region
  change_count : Int
  base : addr
  size : addr
  deriving DecidableEq

/-- Where the new region goes: its base, if a spot was found, the regions walked past, the last of
them (`last_r`) in front, and the rest (`next_r` in front). -/
structure Spot where
  base : Option addr
  passed : List vm_region
  rest : List vm_region
  deriving DecidableEq

/-- The walk up to the spot where the search starts. -/
def searchStart (stop : addr) : List vm_region → List vm_region → List vm_region × List vm_region
  | passed, [] => (passed, [])
  | passed, next_r :: rest =>
    if next_r.base ≥ stop then (passed, next_r :: rest)
    else searchStart stop (next_r :: passed) rest

/-- The walk on to a hole that is big enough. Behind the last region, the test is against the end
of the map; where the walk stopped at a hole, that test finds the same base once more. -/
def findHole (map : vm_virtual_map) (size : addr) :
    List vm_region → vm_region → List vm_region → Spot
  | passed, last_r, [] =>
    if map.base + (map.size - 1) ≥ last_r.base + last_r.size + (size - 1) then
      ⟨some (last_r.base + last_r.size), last_r :: passed, []⟩
    else ⟨none, last_r :: passed, []⟩
  | passed, last_r, next_r :: rest =>
    if next_r.base ≥ last_r.base + last_r.size + size then
      ⟨some (last_r.base + last_r.size), last_r :: passed, next_r :: rest⟩
    else findHole map size (last_r :: passed) next_r rest

section

variable (map : vm_virtual_map)

/-- The `switch` on the type of the address. -/
def findSpot (start size : addr) :
    RegionAddr → List vm_region → List vm_region → Except VmError Spot
  | REGION_ADDR_ANY_ADDRESS, [], [] => .ok ⟨some map.base, [], []⟩
  | REGION_ADDR_ANY_ADDRESS, [], next_r :: rest =>
    if next_r.base ≥ map.base + size then .ok ⟨some map.base, [], next_r :: rest⟩
    else .ok (findHole map size [] next_r rest)
  | REGION_ADDR_ANY_ADDRESS, last_r :: passed, rest => .ok (findHole map size passed last_r rest)
  | REGION_ADDR_EXACT_ADDRESS, [], [] => .ok ⟨some start, [], []⟩
  | REGION_ADDR_EXACT_ADDRESS, [], next_r :: rest =>
    if next_r.base ≥ start + size then .ok ⟨some start, [], next_r :: rest⟩
    else .ok ⟨none, [], next_r :: rest⟩
  | REGION_ADDR_EXACT_ADDRESS, last_r :: passed, [] =>
    if last_r.base + (last_r.size - 1) ≤ start - 1 then .ok ⟨some start, last_r :: passed, []⟩
    else .ok ⟨none, last_r :: passed, []⟩
  | REGION_ADDR_EXACT_ADDRESS, last_r :: passed, next_r :: rest =>
    if last_r.base + last_r.size ≤ start ∧ next_r.base ≥ start + size then
      .ok ⟨some start, last_r :: passed, next_r :: rest⟩
    else .ok ⟨none, last_r :: passed, next_r :: rest⟩
  | other, _, _ => .error EINVAL

/-- The new region, and the map with it, if a spot was found. -/
def insertRegion (size : addr) :
    Spot → Except VmError (vm_region × vm_virtual_map)
  | ⟨none, _, _⟩ => .error ERR_VM_NO_REGION_SLOT
  | ⟨some base, passed, rest⟩ =>
    .ok (⟨base, size⟩, { map with
        region_list := passed.reverse ++ ⟨base, size⟩ :: rest
        change_count := map.change_count + 1 })

def find_and_insert_region_slot (start size stop : addr)
    (addr_type : RegionAddr) : Except VmError (vm_region × vm_virtual_map) :=
  if start < map.base ∨ size = 0 ∨ stop - 1 > map.base + (map.size - 1) ∨ start + size > stop then
    .error ERR_VM_BAD_ADDRESS
  else do
    let walked := searchStart (start + size) [] map.region_list
    let spot ← findSpot map start size addr_type walked.1 walked.2
    insertRegion map size spot

/-- The part of `map_backing_store` that finds the slot. For any address, `search_end` is the last
address of the map, and not the one behind it. -/
def map_backing_store_slot (vaddr size : addr) (addr_type : RegionAddr) :
    Except VmError (vm_region × vm_virtual_map) :=
  match addr_type with
  | REGION_ADDR_EXACT_ADDRESS =>
    find_and_insert_region_slot map vaddr size (vaddr + size) REGION_ADDR_EXACT_ADDRESS
  | REGION_ADDR_ANY_ADDRESS =>
    find_and_insert_region_slot map map.base size (map.base + (map.size - 1))
      REGION_ADDR_ANY_ADDRESS
  | other => .error EINVAL

/-- The part of `_vm_put_region` that takes a region out of the list. -/
def removeRegion (region : vm_region) : vm_virtual_map :=
  if region ∈ map.region_list then
    { map with
      region_list := map.region_list.erase region
      change_count := map.change_count + 1 }
  else map

end

/-! ## What it promises -/

/-- The first address of a region. -/
def vm_region.lo (r : vm_region) : Nat := r.base.toNat

/-- The address behind a region. -/
def vm_region.hi (r : vm_region) : Nat := r.base.toNat + r.size.toNat

/-- The address behind a map. -/
def vm_virtual_map.top (map : vm_virtual_map) : Nat := map.base.toNat + map.size.toNat

/-- The regions are inside the map, sorted and disjoint. -/
structure vm_virtual_map.WellFormed (map : vm_virtual_map) : Prop where
  nonempty : 0 < map.size.toNat
  fits : map.top ≤ 2 ^ 32
  inside : ∀ r ∈ map.region_list, map.base.toNat ≤ r.lo ∧ r.hi ≤ map.top
  sorted : Sorted vm_region.lo vm_region.hi map.region_list

section

variable (map : vm_virtual_map)

/-- The map has a gap of a size. -/
def vm_virtual_map.HasGap (size : addr) : Prop :=
  ∃ g, map.base.toNat ≤ g ∧ g + size.toNat ≤ map.top ∧
    Clear vm_region.lo vm_region.hi map.region_list g size.toNat

/-- The region found is inside the map, where it was asked for, meets no region and stands in its
place in the list; for any address, there is none only if there is no gap. -/
def SlotOk (vaddr size : addr) (addr_type : RegionAddr) :
    Except VmError (vm_region × vm_virtual_map) → Prop
  | .ok (region, map') =>
    region.size = size ∧ map.base.toNat ≤ region.lo ∧ region.hi ≤ map.top ∧
      (addr_type = REGION_ADDR_EXACT_ADDRESS → region.base = vaddr) ∧
      Clear vm_region.lo vm_region.hi map.region_list region.lo size.toNat ∧
      map'.region_list.Perm (region :: map.region_list) ∧
      map'.region_list.Pairwise (fun r r' => r.base ≤ r'.base) ∧ map'.WellFormed
  | .error err =>
    err = ERR_VM_NO_REGION_SLOT → addr_type = REGION_ADDR_ANY_ADDRESS → ¬ map.HasGap size

/-- For any address: there is a gap, or no sum of the search wraps. -/
def AnyAddressSafe (size : addr) : Prop :=
  size = 0 ∨ map.HasGap size ∨ map.base.toNat + size.toNat < 2 ^ 32 ∧
      (map.top ≤ map.base.toNat + size.toNat ∨ ∀ r ∈ map.region_list, r.hi + size.toNat ≤ 2 ^ 32)

/-- For an exact address: the request starts before the map, or ends below `2 ^ 32` (from address 0
on, it must not have all regions start inside it), or right at it in an empty map, or it wraps and
the wrapped end is outside the map or a region before that end keeps the request out. -/
def ExactAddressSafe (vaddr size : addr) : Prop :=
  size = 0 ∨ vaddr < map.base ∨ vaddr.toNat + size.toNat < 2 ^ 32 ∧
      (vaddr = 0 → map.region_list = [] ∨ map.top < size.toNat ∨
        ∃ r ∈ map.region_list, size.toNat ≤ r.lo) ∨
    vaddr.toNat + size.toNat = 2 ^ 32 ∧ (map.top < 2 ^ 32 ∨ map.region_list = []) ∨
    2 ^ 32 < vaddr.toNat + size.toNat ∧ (map.top + 2 ^ 32 < vaddr.toNat + size.toNat ∨
        ∃ r ∈ map.region_list, r.lo + 2 ^ 32 < vaddr.toNat + size.toNat ∧ vaddr.toNat < r.hi)

def SlotSafe (vaddr size : addr) : RegionAddr → Prop
  | REGION_ADDR_ANY_ADDRESS => AnyAddressSafe map size
  | REGION_ADDR_EXACT_ADDRESS => ExactAddressSafe map vaddr size
  | other => True

end

end Kernel
