import Mathlib

/-! # The kernel heap

The functions of `heap.c`. Addresses and sizes are `unsigned int`, and sums of them wrap. A block
that is free holds the address of the next one in its first word; zero is the null pointer.
-/

namespace Kernel

open Function

def PAGE_SIZE : Nat := 4096

def PAGE_ALIGN (n : Nat) : Nat := (n + (PAGE_SIZE - 1)) % 2 ^ 32 / PAGE_SIZE * PAGE_SIZE

structure heap_page where
  bin_index : Nat
  free_count : Nat
  cleaning : Bool
  in_use : Bool

/-- `sizeof(struct heap_page)` -/
def sizeof_heap_page : Nat := 2

structure heap_bin where
  alloc_count : Nat
  free_list : Nat
  free_count : Nat
  raw_list : Nat
  raw_count : Nat

/-- Of each bin, `element_size` and `grow_size`. -/
def binSizes : List (Nat × Nat) :=
  [(16, PAGE_SIZE), (32, PAGE_SIZE), (64, PAGE_SIZE), (128, PAGE_SIZE), (256, PAGE_SIZE),
    (512, PAGE_SIZE), (1024, PAGE_SIZE), (2048, PAGE_SIZE), (0x1000, 0x1000), (0x2000, 0x2000),
    (0x3000, 0x3000), (0x4000, 0x4000), (0x5000, 0x5000), (0x6000, 0x6000), (0x7000, 0x7000),
    (0x8000, 0x8000), (0x9000, 0x9000), (0xa000, 0xa000), (0xb000, 0xb000), (0xc000, 0xc000),
    (0xd000, 0xd000), (0xe000, 0xe000), (0xf000, 0xf000), (0x10000, 0x10000)]

def bin_count : Nat := binSizes.length

def element_size (bin_index : Nat) : Nat := (binSizes.getD bin_index (0, 0)).1

def grow_size (bin_index : Nat) : Nat := (binSizes.getD bin_index (0, 0)).2

/-- The first bin with elements of at least this size. -/
def binFor (size : Nat) : Option Nat :=
  (List.range bin_count).find? fun bin_index => size ≤ element_size bin_index

/-- The table of the pages, the bins, and the word at each address. -/
structure Heap where
  heap_alloc_table : Nat
  heap_base_ptr : Nat
  heap_base : Nat
  heap_size : Nat
  page : Nat → heap_page
  bins : Nat → heap_bin
  memory : Nat → Nat

/-- The memory of the table may hold anything before. -/
def heap_init (new_heap_base new_heap_size : Nat) (page : Nat → heap_page) (memory : Nat → Nat) :
    Heap :=
  let heap_base := PAGE_ALIGN
    ((new_heap_base + new_heap_size / PAGE_SIZE * sizeof_heap_page) % 2 ^ 32)
  { heap_alloc_table := new_heap_base
    heap_base_ptr := heap_base
    heap_base
    heap_size := new_heap_size
    page := fun i => if i < new_heap_size / PAGE_SIZE then ⟨0, 0, false, false⟩ else page i
    bins := fun _ => ⟨0, 0, 0, 0, 0⟩
    memory }

namespace Heap

/-- The entry of the table for the page of an address. -/
def pageIndex (h : Heap) (address : Nat) : Nat :=
  (address + 2 ^ 32 - h.heap_base) % 2 ^ 32 / PAGE_SIZE

def setBin (h : Heap) (bin_index : Nat) (bin : heap_bin) : Heap :=
  { h with bins := update h.bins bin_index bin }

@[simp]
theorem setBin_self (h : Heap) (i : Nat) (bin : heap_bin) : (h.setBin i bin).bins i = bin :=
  update_self ..

theorem setBin_of_ne (h : Heap) {i j : Nat} (bin : heap_bin) (hj : j ≠ i) :
    (h.setBin i bin).bins j = h.bins j := update_of_ne hj ..

/-- The entry that `raw_alloc` writes. -/
def rawPage (bin_index : Nat) : heap_page :=
  { bin_index := bin_index % 32
    free_count :=
      if bin_index < bin_count ∧ element_size bin_index < PAGE_SIZE then
        PAGE_SIZE / element_size bin_index
      else 1
    cleaning := false
    in_use := true }

/-- The loop of `raw_alloc` over `n` pages from an address on. -/
def markPages (h : Heap) (bin_index : Nat) : Nat → Nat → Heap
  | 0, _ => h
  | n + 1, address =>
    markPages { h with page := update h.page (h.pageIndex address) (rawPage bin_index) }
      bin_index n ((address + PAGE_SIZE) % 2 ^ 32)

/-- `none` if it panics. Both ends of the loop are page aligned. -/
def raw_alloc (h : Heap) (size bin_index : Nat) : Option (Nat × Heap) :=
  let new_heap_ptr := (h.heap_base_ptr + PAGE_ALIGN size) % 2 ^ 32
  if new_heap_ptr > (h.heap_base + h.heap_size) % 2 ^ 32 then none
  else
    some (h.heap_base_ptr,
      { h.markPages bin_index ((new_heap_ptr - h.heap_base_ptr) / PAGE_SIZE) h.heap_base_ptr with
        heap_base_ptr := new_heap_ptr })

/-- The bin gets fresh pages. -/
def refill (h : Heap) (bin_index : Nat) : Option Heap :=
  (h.raw_alloc (grow_size bin_index) bin_index).map fun (raw_list, h) =>
    h.setBin bin_index { h.bins bin_index with
      raw_list
      raw_count := grow_size bin_index / element_size bin_index }

/-- The next block of the raw run. -/
def takeRaw (h : Heap) (bin_index : Nat) : Nat × Heap :=
  let bin := h.bins bin_index
  (bin.raw_list, h.setBin bin_index { bin with
      raw_count := (bin.raw_count + 2 ^ 32 - 1) % 2 ^ 32
      raw_list := (bin.raw_list + element_size bin_index) % 2 ^ 32 })

/-- A block of the bin: from its free list, else from its raw run, else from fresh pages. -/
def takeBlock (h : Heap) (bin_index : Nat) : Option (Nat × Heap) :=
  let bin := h.bins bin_index
  if bin.free_list ≠ 0 then
    some (bin.free_list, h.setBin bin_index { bin with
        free_list := h.memory bin.free_list
        free_count := (bin.free_count + 2 ^ 32 - 1) % 2 ^ 32 })
  else if bin.raw_count = 0 then (h.refill bin_index).map fun h => h.takeRaw bin_index
  else some (h.takeRaw bin_index)

/-- `free_count` grows by `delta` in `n` entries of the table. -/
def countPages (h : Heap) (index n delta : Nat) : Heap :=
  { h with
    page := fun i =>
      if index ≤ i ∧ i < index + n then
        { h.page i with free_count := ((h.page i).free_count + delta) % 2 ^ 9 }
      else h.page i }

/-- `none` if it panics. -/
def kmalloc (h : Heap) (size : Nat) : Option (Nat × Heap) :=
  match binFor size with
  | none => none
  | some bin_index =>
    (h.takeBlock bin_index).map fun (address, h) =>
    (address, (h.setBin bin_index { h.bins bin_index with
        alloc_count := ((h.bins bin_index).alloc_count + 1) % 2 ^ 32 }).countPages
          (h.pageIndex address) (max 1 (element_size bin_index / PAGE_SIZE)) (2 ^ 9 - 1))

/-- `none` if it panics. -/
def kfree (h : Heap) (address : Nat) : Option Heap :=
  if address = 0 then some h
  else if address < h.heap_base ∨ (h.heap_base + h.heap_size) % 2 ^ 32 ≤ address then none
  else
    let index := h.pageIndex address
    let bin_index := (h.page index).bin_index
    let bin := h.bins bin_index
    if bin_count ≤ bin_index then none
    else if ∃ i < element_size bin_index / PAGE_SIZE,
        (h.page (index + i)).bin_index ≠ bin_index then none
    else
      some ({ h.setBin bin_index { bin with
          free_list := address
          alloc_count := (bin.alloc_count + 2 ^ 32 - 1) % 2 ^ 32
          free_count := (bin.free_count + 1) % 2 ^ 32 } with
        memory := update h.memory address bin.free_list }.countPages index
          (element_size bin_index / PAGE_SIZE) 1)

end Heap

end Kernel
