import OpenBeOS.Kernel.Heap
import OpenBeOS.Lib.Chain
import OpenBeOS.Lib.Reachable

/-! # The kernel heap: what holds of every run

`raw_alloc` compares the end of fresh pages with the size of the memory counted from behind the
table, not from its start. As long as fresh pages end inside the memory, the blocks handed out are
disjoint and the table leads each one back to its bin (`heap_blocks_disjoint`).
-/

namespace Kernel

open Chain Function List

/-! ## The system -/

/-- The address a pointer leads to. -/
def pointer (address : Nat) : Option Nat := if address = 0 then none else some address

/-- The block behind a free one in its list. -/
def Heap.next (h : Heap) (address : Nat) : Option Nat := pointer (h.memory address)

def Heap.free_list (h : Heap) (bin_index : Nat) : Option Nat := pointer (h.bins bin_index).free_list

/-- A block, the size it was asked for, and the bin it comes from. -/
structure Block where
  address : Nat
  size : Nat
  bin_index : Nat
  deriving DecidableEq

def Block.top (b : Block) : Nat := b.address + element_size b.bin_index

/-- The heap, the blocks handed out, and the blocks freed and not handed out again. -/
structure HeapSystem where
  heap : Heap
  live : List Block
  freed : List Block

inductive HeapAction where
  | kmalloc (size : Nat)
  | kfree (b : Block)
  /-- The owner of a block writes to it. -/
  | write (b : Block) (memory : Nat → Nat)

namespace HeapSystem

section

variable (s : HeapSystem)

/-- `none` if the heap panics. -/
def exec : HeapAction → Option HeapSystem
  | .kmalloc size =>
    match binFor size with
    | none => none
    | some bin_index =>
      (s.heap.kmalloc size).map fun (address, heap) =>
      { heap
        live := ⟨address, size, bin_index⟩ :: s.live
        freed := s.freed.filter fun b => b.address ≠ address }
  | .kfree b =>
    (s.heap.kfree b.address).map fun heap =>
    { heap, live := s.live.erase b, freed := b :: s.freed }
  | .write _ memory => some { s with heap := { s.heap with memory } }

def Step (a : HeapAction) (s' : HeapSystem) : Prop := s.exec a = some s'

def Init : Prop :=
  ∃ new_heap_base new_heap_size page memory, new_heap_base < 2 ^ 32 ∧ new_heap_size < 2 ^ 32 ∧
    s = ⟨heap_init new_heap_base new_heap_size page memory, [], []⟩

/-- The end of the memory given to `heap_init`. -/
def memoryTop : Nat := s.heap.heap_alloc_table + s.heap.heap_size

/-- The end of the table. -/
def tableTop : Nat :=
  s.heap.heap_alloc_table + s.heap.heap_size / PAGE_SIZE * sizeof_heap_page

/-- Sizes up to 64K are asked for, and the blocks freed and written to are live. -/
def Allowed : HeapAction → Prop
  | .kmalloc size => size ≤ 0x10000
  | .kfree b => b ∈ s.live
  | .write b memory => b ∈ s.live ∧ ∀ p, p + 4 ≤ b.address ∨ b.top ≤ p → memory p = s.heap.memory p

/-- Where the bin has neither a free block nor a raw one, the fresh pages are behind the table and
end inside the memory, and their end does not wrap. -/
def Fits : HeapAction → Prop
  | .kmalloc size =>
    ∀ bin_index, binFor size = some bin_index → (s.heap.bins bin_index).free_list = 0 →
      (s.heap.bins bin_index).raw_count = 0 →
      s.tableTop ≤ s.heap.heap_base_ptr ∧
        s.heap.heap_base_ptr + PAGE_ALIGN (grow_size bin_index) ≤ s.memoryTop ∧
        s.heap.heap_base_ptr + PAGE_ALIGN (grow_size bin_index) < 2 ^ 32
  | _ => True

end

/-- What `heap.c` promises of the blocks handed out, and of those freed. -/
structure Consistent (s : HeapSystem) : Prop where
  inside : ∀ b ∈ s.live, s.tableTop ≤ b.address ∧ b.top ≤ s.memoryTop
  size : ∀ b ∈ s.live, b.address + b.size ≤ b.top
  disjoint : s.live.Pairwise fun b b' => b.top ≤ b'.address ∨ b'.top ≤ b.address
  index : ∀ b ∈ s.live, ∀ p, b.address ≤ p → p < b.top →
    s.heap.pageIndex p < s.heap.heap_size / PAGE_SIZE
  bin : ∀ b ∈ s.live, ∀ p, b.address ≤ p → p < b.top →
    (s.heap.page (s.heap.pageIndex p)).bin_index = b.bin_index
  free : ∀ bin_index, ∃ addresses, Leads s.heap.next (s.heap.free_list bin_index) addresses none ∧
    addresses.Nodup ∧
    ∀ a, a ∈ addresses ↔ ∃ b ∈ s.freed, b.address = a ∧ b.bin_index = bin_index

/-! ## The sizes -/

theorem size_spec {i : Nat} (hi : i < bin_count) :
    4 ≤ element_size i ∧ grow_size i / element_size i * element_size i = grow_size i ∧
      0 < grow_size i / element_size i ∧ grow_size i ≤ 0x10000 ∧
      PAGE_ALIGN (grow_size i) = grow_size i ∧ grow_size i % PAGE_SIZE = 0 := by
  have hall : ∀ i < 24, 4 ≤ element_size i ∧
      grow_size i / element_size i * element_size i = grow_size i ∧
      0 < grow_size i / element_size i ∧ grow_size i ≤ 0x10000 ∧
      PAGE_ALIGN (grow_size i) = grow_size i ∧ grow_size i % PAGE_SIZE = 0 := by decide
  exact hall i hi

theorem binFor_spec {size i : Nat} (h : binFor size = some i) :
    i < bin_count ∧ size ≤ element_size i := by
  have hmem := mem_of_find?_eq_some h
  have hsize := List.find?_some h
  exact ⟨mem_range.mp hmem, by simpa using hsize⟩

end HeapSystem

/-! ## Where the blocks are -/

/-- The blocks that are live, free or raw, each given by its bin and its address, lie in the pages of
their bin, and do not overlap. -/
structure Heap.Layout (h : Heap) (unit : Nat → Nat → Prop) : Prop where
  aligned : h.heap_base % PAGE_SIZE = 0 ∧ h.heap_base_ptr % PAGE_SIZE = 0
  order : h.heap_base ≤ h.heap_base_ptr ∧ h.heap_base_ptr < 2 ^ 32
  carved : h.heap_base_ptr = h.heap_base ∨
    h.heap_alloc_table + h.heap_size / PAGE_SIZE * sizeof_heap_page ≤ h.heap_base ∧
      h.heap_base_ptr ≤ h.heap_alloc_table + h.heap_size
  inside : ∀ i a, unit i a → i < bin_count ∧ h.heap_base ≤ a ∧ a + element_size i ≤ h.heap_base_ptr
  bin : ∀ i a, unit i a → ∀ p, a ≤ p → p < a + element_size i →
    (h.page (h.pageIndex p)).bin_index = i
  apart : ∀ i a j b, unit i a → unit j b →
    i = j ∧ a = b ∨ a + element_size i ≤ b ∨ b + element_size j ≤ a

namespace Heap

/-- What the layout depends on. -/
structure SameLayout (h h' : Heap) : Prop where
  heap_alloc_table : h'.heap_alloc_table = h.heap_alloc_table
  heap_base_ptr : h'.heap_base_ptr = h.heap_base_ptr
  heap_base : h'.heap_base = h.heap_base
  heap_size : h'.heap_size = h.heap_size
  bin_index : ∀ i, (h'.page i).bin_index = (h.page i).bin_index

variable {h h' : Heap} {unit unit' : Nat → Nat → Prop} {i j a b : Nat}

theorem SameLayout.trans {h'' : Heap} (hsame : SameLayout h h') (hsame' : SameLayout h' h'') :
    SameLayout h h'' :=
  ⟨hsame'.1.trans hsame.1, hsame'.2.trans hsame.2, hsame'.3.trans hsame.3, hsame'.4.trans hsame.4,
    fun i => (hsame'.5 i).trans (hsame.5 i)⟩

theorem sameLayout_setBin (h : Heap) (i : Nat) (bin : heap_bin) : SameLayout h (h.setBin i bin) :=
  ⟨rfl, rfl, rfl, rfl, fun _ => rfl⟩

theorem sameLayout_countPages (h : Heap) (index n delta : Nat) :
    SameLayout h (h.countPages index n delta) := by
  refine ⟨rfl, rfl, rfl, rfl, fun i => ?_⟩
  simp only [countPages]
  split <;> rfl

section

variable (hlayout : h.Layout unit)
include hlayout

theorem Layout.mono (hsame : SameLayout h h')
    (hunit : ∀ i a, unit' i a → unit i a) : h'.Layout unit' := by
  obtain ⟨haligned, horder, hcarved, hinside, hbin, hapart⟩ := hlayout
  obtain ⟨htable, hptr, hbase, hsize, hindex⟩ := hsame
  refine ⟨?_, ?_, ?_, fun i a hu => ?_, fun i a hu p hp hp' => ?_,
    fun i a j b hu hu' => hapart i a j b (hunit i a hu) (hunit j b hu')⟩
  · rwa [hbase, hptr]
  · rwa [hbase, hptr]
  · rwa [hbase, hptr, htable, hsize]
  · rw [hbase, hptr]
    exact hinside i a (hunit i a hu)
  · rw [hindex, pageIndex, hbase]
    exact hbin i a (hunit i a hu) p hp hp'

theorem Layout.pos (hu : unit i a) : 4 ≤ element_size i :=
  (HeapSystem.size_spec (hlayout.inside i a hu).1).1

theorem Layout.bin_unique (hu : unit i a) (hu' : unit j a) : i = j := by
  have hi := hlayout.pos hu
  have hj := hlayout.pos hu'
  rcases hlayout.apart i a j a hu hu' with ⟨heq, -⟩ | hle | hle
  · exact heq
  · omega
  · omega

theorem Layout.bounds (hu : unit i a) :
    h.heap_alloc_table + h.heap_size / PAGE_SIZE * sizeof_heap_page ≤ h.heap_base ∧
      h.heap_base_ptr ≤ h.heap_alloc_table + h.heap_size := by
  have hpos := hlayout.pos hu
  obtain ⟨-, hlo, hhi⟩ := hlayout.inside i a hu
  rcases hlayout.carved with hnone | hcarved
  · omega
  · exact hcarved

theorem Layout.pageIndex_eq {p : Nat} (hp : h.heap_base ≤ p)
    (hp' : p < h.heap_base_ptr) : h.pageIndex p = (p - h.heap_base) / PAGE_SIZE := by
  have horder := hlayout.order
  rw [pageIndex, show p + 2 ^ 32 - h.heap_base = (p - h.heap_base) + 2 ^ 32 by omega,
    Nat.add_mod_right, Nat.mod_eq_of_lt (by omega)]

theorem Layout.pageIndex_lt (hu : unit i a) {p : Nat}
    (hp : h.heap_base ≤ p) (hp' : p < h.heap_base_ptr) :
    h.pageIndex p < h.heap_size / PAGE_SIZE := by
  obtain ⟨htable, htop⟩ := hlayout.bounds hu
  obtain ⟨hbase, hptr⟩ := hlayout.aligned
  rw [hlayout.pageIndex_eq hp hp']
  simp only [PAGE_SIZE] at *
  omega

theorem Layout.address_ne_zero (hu : unit i a) : a ≠ 0 := by
  obtain ⟨htable, htop⟩ := hlayout.bounds hu
  obtain ⟨hbase, hptr⟩ := hlayout.aligned
  obtain ⟨-, hlo, hhi⟩ := hlayout.inside i a hu
  have hpos := hlayout.pos hu
  simp only [PAGE_SIZE, sizeof_heap_page] at *
  omega

end

/-! ### Fresh pages -/

/-- The loop of `raw_alloc` writes the entries of its pages. -/
theorem markPages_spec (i : Nat) : ∀ (n : Nat) (h : Heap) (address : Nat),
    h.heap_base % PAGE_SIZE = 0 → address % PAGE_SIZE = 0 → h.heap_base ≤ address →
    address + n * PAGE_SIZE < 2 ^ 32 →
    ∃ page, h.markPages i n address = { h with page } ∧ ∀ k, page k =
        if (address - h.heap_base) / PAGE_SIZE ≤ k ∧
          k < (address - h.heap_base) / PAGE_SIZE + n then rawPage i
        else h.page k
  | 0, h, address, _, _, _, _ => by
    refine ⟨h.page, rfl, fun k => (if_neg ?_).symm⟩
    omega
  | n + 1, h, address, hbase, haddress, hle, hfit => by
    have hnext : (address + PAGE_SIZE) % 2 ^ 32 = address + PAGE_SIZE := by
      apply Nat.mod_eq_of_lt
      simp only [PAGE_SIZE] at *
      omega
    have hindex : h.pageIndex address = (address - h.heap_base) / PAGE_SIZE := by
      rw [pageIndex, show address + 2 ^ 32 - h.heap_base = (address - h.heap_base) + 2 ^ 32 by
        omega, Nat.add_mod_right, Nat.mod_eq_of_lt (by omega)]
    obtain ⟨page, hmark, hpage⟩ := markPages_spec i n
      { h with page := update h.page (h.pageIndex address) (rawPage i) }
      (address + PAGE_SIZE) hbase (by simp only [PAGE_SIZE] at *; omega)
      (by show h.heap_base ≤ address + PAGE_SIZE; omega)
      (by simp only [PAGE_SIZE] at *; omega)
    refine ⟨page, ?_, fun k => ?_⟩
    · rw [markPages, hnext, hmark]
    · rw [hpage k]
      show (if (address + PAGE_SIZE - h.heap_base) / PAGE_SIZE ≤ k ∧
          k < (address + PAGE_SIZE - h.heap_base) / PAGE_SIZE + n then _ else
            update h.page (h.pageIndex address) (rawPage i) k) = _
      rw [hindex]
      have hstep : (address + PAGE_SIZE - h.heap_base) / PAGE_SIZE =
          (address - h.heap_base) / PAGE_SIZE + 1 := by
        simp only [PAGE_SIZE] at *
        omega
      rw [hstep]
      by_cases hk : k = (address - h.heap_base) / PAGE_SIZE
      · rw [if_neg (by omega), if_pos (by omega), hk, update_self]
      · rw [update_of_ne hk]
        exact if_congr (by omega) rfl rfl

/-- The blocks of a raw run. -/
def Run (i a n : Nat) (j b : Nat) : Prop := j = i ∧ ∃ k < n, b = a + k * element_size i

/-- Fresh pages lie behind all blocks, and become blocks of their bin. -/
theorem Layout.raw_alloc (hlayout : h.Layout unit) (hi : i < bin_count)
    (htable : h.heap_alloc_table + h.heap_size / PAGE_SIZE * sizeof_heap_page ≤ h.heap_base_ptr)
    (hfit : h.heap_base_ptr + grow_size i ≤ h.heap_alloc_table + h.heap_size)
    (hwrap : h.heap_base_ptr + grow_size i < 2 ^ 32)
    (halloc : h.raw_alloc (grow_size i) i = some (a, h')) :
    a = h.heap_base_ptr ∧ h'.bins = h.bins ∧ h'.memory = h.memory ∧
      h'.heap_alloc_table = h.heap_alloc_table ∧ h'.heap_size = h.heap_size ∧
      h'.Layout fun j b => unit j b ∨ Run i a (grow_size i / element_size i) j b := by
  obtain ⟨hpos, hrun, -, -, halign, hpages⟩ := HeapSystem.size_spec hi
  have haligned := hlayout.aligned
  have horder := hlayout.order
  obtain ⟨page, hmark, hpage⟩ := markPages_spec i (grow_size i / PAGE_SIZE) h h.heap_base_ptr
    haligned.1 haligned.2 horder.1 (by simp only [PAGE_SIZE] at *; omega)
  simp only [Heap.raw_alloc] at halloc
  rw [halign, Nat.mod_eq_of_lt hwrap, Nat.add_sub_cancel_left, hmark] at halloc
  split at halloc
  · cases halloc
  cases halloc
  have hend : ∀ k < grow_size i / element_size i,
      k * element_size i + element_size i ≤ grow_size i := by
    intro k hk
    rw [← Nat.succ_mul]
    exact Nat.le_trans (Nat.mul_le_mul_right _ hk) (Nat.le_of_eq hrun)
  refine ⟨rfl, rfl, rfl, rfl, rfl, ⟨haligned.1, ?_⟩, ⟨?_, hwrap⟩, Or.inr ⟨?_, hfit⟩, ?_, ?_, ?_⟩
  · show (h.heap_base_ptr + grow_size i) % PAGE_SIZE = 0
    simp only [PAGE_SIZE] at *
    omega
  · exact Nat.le_trans horder.1 (Nat.le_add_right _ _)
  · rcases hlayout.carved with hnone | ⟨hbefore, -⟩
    · exact Nat.le_trans htable (Nat.le_of_eq hnone)
    · exact hbefore
  · rintro j b (hu | ⟨rfl, k, hk, rfl⟩)
    · obtain ⟨hj, hlo, hhi⟩ := hlayout.inside j b hu
      exact ⟨hj, hlo, Nat.le_trans hhi (Nat.le_add_right _ _)⟩
    · have hk' := hend k hk
      refine ⟨hi, ?_, ?_⟩
      · show h.heap_base ≤ h.heap_base_ptr + _
        omega
      · show h.heap_base_ptr + _ + _ ≤ h.heap_base_ptr + _
        omega
  · rintro j b hu p hp hp'
    have hin : h.heap_base ≤ p ∧ p < 2 ^ 32 ∧ (p < h.heap_base_ptr ∧ unit j b ∨
          h.heap_base_ptr ≤ p ∧ p < h.heap_base_ptr + grow_size i ∧ j = i) := by
      rcases hu with hu | ⟨rfl, k, hk, rfl⟩
      · obtain ⟨-, hlo, hhi⟩ := hlayout.inside j b hu
        exact ⟨by omega, by omega, Or.inl ⟨by omega, hu⟩⟩
      · have hk' := hend k hk
        exact ⟨by omega, by omega, Or.inr ⟨by omega, by omega, rfl⟩⟩
    obtain ⟨hlo, hhi, hcases⟩ := hin
    have hindex : h.pageIndex p = (p - h.heap_base) / PAGE_SIZE := by
      rw [pageIndex, show p + 2 ^ 32 - h.heap_base = (p - h.heap_base) + 2 ^ 32 by omega,
        Nat.add_mod_right, Nat.mod_eq_of_lt (by omega)]
    show (page (h.pageIndex p)).bin_index = j
    rcases hcases with ⟨hold, hu⟩ | ⟨hnew, hnew', rfl⟩
    · rw [hpage, if_neg]
      · exact hlayout.bin j b hu p hp hp'
      · rw [hindex]
        simp only [PAGE_SIZE] at *
        omega
    · rw [hpage, if_pos]
      · exact Nat.mod_eq_of_lt (Nat.lt_trans hi (by decide))
      · rw [hindex]
        simp only [PAGE_SIZE] at *
        omega
  · rintro j b j' b' (hu | ⟨hj, k, hk, rfl⟩) (hu' | ⟨hj', k', hk', rfl⟩)
    · exact hlayout.apart j b j' b' hu hu'
    · have hold := (hlayout.inside j b hu).2.2
      exact Or.inr (Or.inl (by omega))
    · have hold := (hlayout.inside j' b' hu').2.2
      exact Or.inr (Or.inr (by omega))
    · rw [hj, hj']
      rcases Nat.lt_trichotomy k k' with hlt | rfl | hlt
      · have hle := Nat.mul_le_mul_right (element_size i) (Nat.succ_le_of_lt hlt)
        rw [Nat.succ_mul] at hle
        exact Or.inr (Or.inl (by omega))
      · exact Or.inl ⟨rfl, rfl⟩
      · have hle := Nat.mul_le_mul_right (element_size i) (Nat.succ_le_of_lt hlt)
        rw [Nat.succ_mul] at hle
        exact Or.inr (Or.inr (by omega))

/-- A raw block of a bin. -/
def Raw (h : Heap) (i a : Nat) : Prop :=
  ∃ k < (h.bins i).raw_count, a = (h.bins i).raw_list + k * element_size i

/-- What the lists of blocks depend on. -/
structure SameLists (h h' : Heap) : Prop where
  memory : h'.memory = h.memory
  free_list : ∀ i, (h'.bins i).free_list = (h.bins i).free_list
  raw_list : ∀ i, (h'.bins i).raw_list = (h.bins i).raw_list
  raw_count : ∀ i, (h'.bins i).raw_count = (h.bins i).raw_count

theorem SameLists.raw (hsame : SameLists h h') (i a : Nat) : h'.Raw i a ↔ h.Raw i a := by
  rw [Raw, Raw, hsame.raw_list, hsame.raw_count]

theorem SameLists.chains (hsame : SameLists h h') {free : Nat → List Nat}
    (hchains : Chains h.next h.free_list free) : Chains h'.next h'.free_list free := by
  have hnext : h'.next = h.next := by
    funext a
    rw [next, next, hsame.memory]
  have hlists : h'.free_list = h.free_list := by
    funext i
    rw [Heap.free_list, Heap.free_list, hsame.free_list]
  rwa [hnext, hlists]

theorem sameLists_setBin {bin : heap_bin} (hfree : bin.free_list = (h.bins i).free_list)
    (hlist : bin.raw_list = (h.bins i).raw_list) (hcount : bin.raw_count = (h.bins i).raw_count) :
    SameLists h (h.setBin i bin) := by
  have hbins : ∀ j, ((h.setBin i bin).bins j).free_list = (h.bins j).free_list ∧
      ((h.setBin i bin).bins j).raw_list = (h.bins j).raw_list ∧
      ((h.setBin i bin).bins j).raw_count = (h.bins j).raw_count := by
    intro j
    by_cases hj : j = i
    · rw [hj, setBin_self]
      exact ⟨hfree, hlist, hcount⟩
    · rw [setBin_of_ne h bin hj]
      exact ⟨rfl, rfl, rfl⟩
  exact ⟨rfl, fun j => (hbins j).1, fun j => (hbins j).2.1, fun j => (hbins j).2.2⟩

theorem SameLists.trans {h'' : Heap} (hsame : SameLists h h') (hsame' : SameLists h' h'') :
    SameLists h h'' :=
  ⟨hsame'.1.trans hsame.1, fun i => (hsame'.2 i).trans (hsame.2 i),
    fun i => (hsame'.3 i).trans (hsame.3 i), fun i => (hsame'.4 i).trans (hsame.4 i)⟩

theorem sameLists_countPages (h : Heap) (index n delta : Nat) :
    SameLists h (h.countPages index n delta) :=
  ⟨rfl, fun _ => rfl, fun _ => rfl, fun _ => rfl⟩

theorem free_list_setBin (h : Heap) (i : Nat) (bin : heap_bin) :
    (h.setBin i bin).free_list = update h.free_list i (pointer bin.free_list) := by
  funext j
  by_cases hj : j = i
  · rw [hj, update_self, Heap.free_list, setBin_self]
  · rw [update_of_ne hj, Heap.free_list, setBin_of_ne h bin hj, Heap.free_list]

theorem raw_setBin {bin : heap_bin} (hlist : bin.raw_list = (h.bins i).raw_list)
    (hcount : bin.raw_count = (h.bins i).raw_count) (j b : Nat) :
    (h.setBin i bin).Raw j b ↔ h.Raw j b := by
  by_cases hj : j = i
  · rw [hj, Raw, Raw, setBin_self, hlist, hcount]
  · rw [Raw, Raw, setBin_of_ne h bin hj]

end Heap

/-! ## Who has a block -/

namespace HeapSystem

/-- A block that is live, in a free list, or raw. -/
def Unit (s : HeapSystem) (free : Nat → List Nat) (i a : Nat) : Prop :=
  (∃ b ∈ s.live, b.bin_index = i ∧ b.address = a) ∨ a ∈ free i ∨ s.heap.Raw i a

/-- `free` are the free lists. -/
structure Sound (s : HeapSystem) (free : Nat → List Nat) : Prop where
  layout : s.heap.Layout (s.Unit free)
  chains : Chains s.heap.next s.heap.free_list free
  freed : ∀ i a, a ∈ free i ↔ ∃ b ∈ s.freed, b.address = a ∧ b.bin_index = i
  live_nodup : (s.live.map Block.address).Nodup
  live_free : ∀ b ∈ s.live, ∀ i, b.address ∉ free i
  live_raw : ∀ b ∈ s.live, ∀ i, ¬ s.heap.Raw i b.address
  free_raw : ∀ i j a, a ∈ free i → ¬ s.heap.Raw j a
  size : ∀ b ∈ s.live, b.size ≤ element_size b.bin_index

variable {s : HeapSystem} {free free' : Nat → List Nat} {h' : Heap} {i a size : Nat}

theorem unit_of_live {b : Block} (hb : b ∈ s.live) : s.Unit free b.bin_index b.address :=
  Or.inl ⟨b, hb, rfl, rfl⟩

section

variable (h : s.Sound free)
include h

theorem Sound.consistent : s.Consistent := by
  have hlayout := h.layout
  have hpage : ∀ b ∈ s.live, ∀ p, b.address ≤ p → p < b.top →
      s.heap.heap_base ≤ p ∧ p < s.heap.heap_base_ptr := by
    intro b hb p hp hp'
    obtain ⟨-, hlo, hhi⟩ := hlayout.inside _ _ (unit_of_live hb)
    rw [Block.top] at hp'
    exact ⟨by omega, by omega⟩
  refine ⟨fun b hb => ?_, fun b hb => ?_, ?_, fun b hb p hp hp' => ?_, fun b hb p hp hp' => ?_,
    fun i => ?_⟩
  · obtain ⟨htable, htop⟩ := hlayout.bounds (unit_of_live hb)
    obtain ⟨-, hlo, hhi⟩ := hlayout.inside _ _ (unit_of_live hb)
    rw [tableTop, memoryTop, Block.top]
    exact ⟨by omega, by omega⟩
  · exact Nat.add_le_add_left (h.size b hb) _
  · have hne : s.live.Pairwise fun b b' => b.address ≠ b'.address := pairwise_map.mp h.live_nodup
    refine hne.imp_of_mem fun {b b'} hb hb' hab => ?_
    rcases hlayout.apart _ _ _ _ (unit_of_live hb) (unit_of_live hb') with ⟨-, heq⟩ | hle | hle
    · exact absurd heq hab
    · exact Or.inl hle
    · exact Or.inr hle
  · obtain ⟨hlo, hhi⟩ := hpage b hb p hp hp'
    exact hlayout.pageIndex_lt (unit_of_live hb) hlo hhi
  · exact hlayout.bin _ _ (unit_of_live hb) p hp hp'
  · exact ⟨free i, h.chains.leads i, h.chains.nodup i, h.freed i⟩

/-- A block that was free or raw becomes live. -/
theorem Sound.handOut (hlayout : s.heap.SameLayout h')
    (hunit : s.Unit free i a) (hlive : ∀ b ∈ s.live, b.address ≠ a)
    (hfree : ∀ j b, b ∈ free' j ↔ b ∈ free j ∧ b ≠ a)
    (hraw : ∀ j b, h'.Raw j b → s.heap.Raw j b ∧ b ≠ a)
    (hchains : Chains h'.next h'.free_list free') (hsize : size ≤ element_size i) :
    Sound ⟨h', ⟨a, size, i⟩ :: s.live, s.freed.filter fun b => b.address ≠ a⟩ free' := by
  refine ⟨h.layout.mono hlayout ?_, hchains, fun j b => ?_, ?_, ?_, ?_, ?_, ?_⟩
  · rintro j b (⟨c, hc, rfl, rfl⟩ | hb | hb)
    · rcases mem_cons.mp hc with rfl | hc
      · exact hunit
      · exact unit_of_live hc
    · exact Or.inr (Or.inl ((hfree j b).mp hb).1)
    · exact Or.inr (Or.inr (hraw j b hb).1)
  · rw [hfree, h.freed]
    constructor
    · rintro ⟨⟨c, hc, rfl, rfl⟩, hne⟩
      exact ⟨c, mem_filter.mpr ⟨hc, by simpa using hne⟩, rfl, rfl⟩
    · rintro ⟨c, hc, rfl, rfl⟩
      obtain ⟨hc, hne⟩ := mem_filter.mp hc
      exact ⟨⟨c, hc, rfl, rfl⟩, by simpa using hne⟩
  · refine nodup_cons.mpr ⟨fun hmem => ?_, h.live_nodup⟩
    obtain ⟨b, hb, heq⟩ := mem_map.mp hmem
    exact hlive b hb heq
  · rintro b hb j hmem
    obtain ⟨hmem, hne⟩ := (hfree j b.address).mp hmem
    rcases mem_cons.mp hb with rfl | hb
    · exact hne rfl
    · exact h.live_free b hb j hmem
  · rintro b hb j hmem
    obtain ⟨hmem, hne⟩ := hraw j b.address hmem
    rcases mem_cons.mp hb with rfl | hb
    · exact hne rfl
    · exact h.live_raw b hb j hmem
  · exact fun j k b hb hmem => h.free_raw j k b ((hfree j b).mp hb).1 (hraw k b hmem).1
  · rintro b hb
    rcases mem_cons.mp hb with rfl | hb
    · exact hsize
    · exact h.size b hb

/-! ## The steps keep it -/

/-- The first block of the free list is handed out. -/
theorem Sound.pop (hne : (s.heap.bins i).free_list ≠ 0)
    (hsize : size ≤ element_size i) {bin : heap_bin}
    (hfree : bin.free_list = s.heap.memory (s.heap.bins i).free_list)
    (hlist : bin.raw_list = (s.heap.bins i).raw_list)
    (hcount : bin.raw_count = (s.heap.bins i).raw_count) :
    ∃ free', Sound ⟨s.heap.setBin i bin, ⟨(s.heap.bins i).free_list, size, i⟩ :: s.live,
      s.freed.filter fun b => b.address ≠ (s.heap.bins i).free_list⟩ free' := by
  generalize ha : (s.heap.bins i).free_list = a at *
  have hhead : s.heap.free_list i = some a := by
    rw [Heap.free_list, ha, pointer, if_neg hne]
  have hleads := h.chains.leads i
  obtain ⟨rest, hrest⟩ : ∃ rest, free i = a :: rest := by
    cases hlist : free i with
    | nil =>
      rw [hlist, hhead] at hleads
      cases hleads
    | cons x rest =>
      rw [hlist, hhead] at hleads
      exact ⟨rest, by rw [Option.some.inj hleads.1]⟩
  have hmem : a ∈ free i := by
    rw [hrest]
    exact mem_cons_self ..
  have hnodup := h.chains.nodup i
  rw [hrest] at hnodup
  refine ⟨update free i rest, h.handOut (Heap.sameLayout_setBin ..) (Or.inr (Or.inl hmem))
    (fun b hb heq => h.live_free b hb i (heq ▸ hmem)) (fun j b => ?_) (fun j b hb => ?_) ?_ hsize⟩
  · by_cases hj : j = i
    · subst hj
      rw [update_self, hrest, mem_cons]
      constructor
      · exact fun hb => ⟨Or.inr hb, fun heq => (nodup_cons.mp hnodup).1 (heq ▸ hb)⟩
      · rintro ⟨heq | hb, hne⟩
        · exact absurd heq hne
        · exact hb
    · rw [update_of_ne hj]
      refine ⟨fun hb => ⟨hb, ?_⟩, fun hb => hb.1⟩
      rintro rfl
      exact h.chains.apart j i hj b hb hmem
  · have hold := (Heap.raw_setBin hlist hcount j b).mp hb
    refine ⟨hold, ?_⟩
    rintro rfl
    exact h.free_raw i j b hmem hold
  · have hremove := @Chains.remove _ _ _ _ s.heap.next s.heap.next s.heap.free_list
      (update s.heap.free_list i (s.heap.next a)) free h.chains i [] rest a hrest
      ⟨rfl, rfl⟩
    rw [Heap.free_list_setBin, hfree]
    exact hremove

/-- The next raw block is handed out. -/
theorem Sound.takeRaw (hcount : (s.heap.bins i).raw_count ≠ 0)
    (hsize : size ≤ element_size i) :
    Sound ⟨(s.heap.takeRaw i).2, ⟨(s.heap.takeRaw i).1, size, i⟩ :: s.live,
      s.freed.filter fun b => b.address ≠ (s.heap.takeRaw i).1⟩ free := by
  have hraw : s.heap.Raw i (s.heap.takeRaw i).1 :=
    ⟨0, Nat.pos_of_ne_zero hcount, by rw [Nat.zero_mul]; rfl⟩
  have hunit : s.Unit free i (s.heap.takeRaw i).1 := Or.inr (Or.inr hraw)
  refine h.handOut (Heap.sameLayout_setBin ..) hunit (fun b hb heq => h.live_raw b hb i (heq ▸ hraw))
    (fun j b => ⟨fun hb => ⟨hb, ?_⟩, fun hb => hb.1⟩) (fun j b hb => ?_) ?_ hsize
  · rintro rfl
    exact h.free_raw j i _ hb hraw
  · have hpos := h.layout.pos hunit
    have horder := h.layout.order
    by_cases hj : j = i
    · subst hj
      obtain ⟨k, hk, rfl⟩ := hb
      simp only [Heap.takeRaw, Heap.setBin_self] at hk ⊢
      have hk' : k + 1 < (s.heap.bins j).raw_count := by omega
      have hold : s.heap.Raw j ((s.heap.bins j).raw_list + (k + 1) * element_size j) :=
        ⟨k + 1, hk', rfl⟩
      obtain ⟨-, -, hhi⟩ := h.layout.inside j _ (Or.inr (Or.inr hold))
      rw [Nat.succ_mul] at hold hhi
      rw [Nat.mod_eq_of_lt (by omega), Nat.add_assoc, Nat.add_comm (element_size j)]
      exact ⟨hold, by omega⟩
    · have hold : s.heap.Raw j b := by
        rwa [Heap.Raw, Heap.takeRaw, Heap.setBin_of_ne _ _ hj] at hb
      refine ⟨hold, ?_⟩
      rintro rfl
      exact hj (h.layout.bin_unique (Or.inr (Or.inr hold)) hunit)
  · have hchains := h.chains
    rw [← update_eq_self i s.heap.free_list] at hchains
    simp only [Heap.takeRaw, Heap.free_list_setBin]
    exact hchains

/-- The bin gets fresh pages. -/
theorem Sound.refill (hi : i < bin_count) (hcount : (s.heap.bins i).raw_count = 0)
    (htable : s.tableTop ≤ s.heap.heap_base_ptr)
    (hfit : s.heap.heap_base_ptr + grow_size i ≤ s.memoryTop)
    (hwrap : s.heap.heap_base_ptr + grow_size i < 2 ^ 32)
    (hrefill : s.heap.refill i = some h') :
    Sound { s with heap := h' } free ∧ (h'.bins i).raw_count ≠ 0 ∧
      (h'.bins i).free_list = (s.heap.bins i).free_list := by
  obtain ⟨⟨a, h₁⟩, halloc, rfl⟩ := Option.map_eq_some_iff.mp hrefill
  obtain ⟨rfl, hbins, hmemory, -, -, hlayout⟩ := h.layout.raw_alloc hi htable hfit hwrap halloc
  obtain ⟨-, -, hpos, -⟩ := size_spec hi
  have hraw : ∀ j b, (h₁.setBin i { h₁.bins i with
      raw_list := s.heap.heap_base_ptr
      raw_count := grow_size i / element_size i }).Raw j b →
      s.heap.Raw j b ∨ Heap.Run i s.heap.heap_base_ptr (grow_size i / element_size i) j b := by
    intro j b hb
    by_cases hj : j = i
    · subst hj
      rw [Heap.Raw, Heap.setBin_self] at hb
      exact Or.inr ⟨rfl, hb⟩
    · rw [Heap.Raw, Heap.setBin_of_ne _ _ hj, hbins] at hb
      exact Or.inl hb
  -- the old blocks end before the fresh pages start
  have hnew : ∀ j b j', s.Unit free j b →
      ¬ Heap.Run i s.heap.heap_base_ptr (grow_size i / element_size i) j' b := by
    rintro j b j' hu ⟨-, k, hk, rfl⟩
    have hsize := h.layout.pos hu
    have hend := (h.layout.inside j _ hu).2.2
    omega
  have hfree : (h₁.setBin i { h₁.bins i with
      raw_list := s.heap.heap_base_ptr
      raw_count := grow_size i / element_size i }).free_list = s.heap.free_list := by
    rw [Heap.free_list_setBin, hbins]
    have hlists : h₁.free_list = s.heap.free_list := by
      funext j
      rw [Heap.free_list, Heap.free_list, hbins]
    rw [hlists]
    exact update_eq_self i s.heap.free_list
  have hnext : h₁.next = s.heap.next := by
    funext b
    rw [Heap.next, Heap.next, hmemory]
  refine ⟨⟨hlayout.mono (Heap.sameLayout_setBin ..) ?_, ?_, h.freed, h.live_nodup, h.live_free,
    fun b hb j hmem => ?_, fun j j' b hb hmem => ?_, h.size⟩, ?_, ?_⟩
  · rintro j b (hb | hb | hb)
    · exact Or.inl (Or.inl hb)
    · exact Or.inl (Or.inr (Or.inl hb))
    · exact (hraw j b hb).imp_left fun hb => Or.inr (Or.inr hb)
  · show Chains (Heap.next h₁) _ free
    rw [hfree, hnext]
    exact h.chains
  · rcases hraw j b.address hmem with hold | hrun
    · exact h.live_raw b hb j hold
    · exact hnew _ _ j (unit_of_live hb) hrun
  · rcases hraw j' b hmem with hold | hrun
    · exact h.free_raw j j' b hb hold
    · exact hnew j b j' (Or.inr (Or.inl hb)) hrun
  · rw [Heap.setBin_self]
    exact Nat.ne_of_gt hpos
  · rw [Heap.setBin_self, hbins]

theorem Sound.count (hlayout : s.heap.SameLayout h')
    (hlists : s.heap.SameLists h') : Sound { s with heap := h' } free := by
  refine ⟨h.layout.mono hlayout ?_, hlists.chains h.chains, h.freed, h.live_nodup, h.live_free,
    fun b hb j hmem => h.live_raw b hb j ((hlists.raw j _).mp hmem),
    fun j j' b hb hmem => h.free_raw j j' b hb ((hlists.raw j' b).mp hmem), h.size⟩
  rintro j b (hb | hb | hb)
  · exact Or.inl hb
  · exact Or.inr (Or.inl hb)
  · exact Or.inr (Or.inr ((hlists.raw j b).mp hb))

theorem Sound.takeBlock (hi : i < bin_count) (hsize : size ≤ element_size i)
    (hfits : (s.heap.bins i).free_list = 0 → (s.heap.bins i).raw_count = 0 →
      s.tableTop ≤ s.heap.heap_base_ptr ∧
        s.heap.heap_base_ptr + PAGE_ALIGN (grow_size i) ≤ s.memoryTop ∧
        s.heap.heap_base_ptr + PAGE_ALIGN (grow_size i) < 2 ^ 32)
    (htake : s.heap.takeBlock i = some (a, h')) :
    ∃ free', Sound ⟨h', ⟨a, size, i⟩ :: s.live, s.freed.filter fun b => b.address ≠ a⟩ free' := by
  simp only [Heap.takeBlock] at htake
  by_cases hnone : (s.heap.bins i).free_list ≠ 0
  · rw [if_pos hnone] at htake
    cases htake
    exact h.pop hnone hsize rfl rfl rfl
  · rw [if_neg hnone] at htake
    by_cases hcount : (s.heap.bins i).raw_count = 0
    · rw [if_pos hcount] at htake
      obtain ⟨h₁, hrefill, heq⟩ := Option.map_eq_some_iff.mp htake
      obtain ⟨htable, hfit, hwrap⟩ := hfits (not_not.mp hnone) hcount
      rw [(size_spec hi).2.2.2.2.1] at hfit hwrap
      obtain ⟨hsound, hcount', -⟩ := h.refill hi hcount htable hfit hwrap hrefill
      have htaken := hsound.takeRaw hcount' hsize
      rw [heq] at htaken
      exact ⟨free, htaken⟩
    · rw [if_neg hcount] at htake
      have htaken := h.takeRaw hcount hsize
      rw [Option.some.inj htake] at htaken
      exact ⟨free, htaken⟩

/-- A live block is put in front of the free list. -/
theorem Sound.push {b : Block} (hb : b ∈ s.live) {bin : heap_bin}
    (hfree : bin.free_list = b.address)
    (hlist : bin.raw_list = (s.heap.bins b.bin_index).raw_list)
    (hcount : bin.raw_count = (s.heap.bins b.bin_index).raw_count) :
    Sound ⟨{ s.heap.setBin b.bin_index bin with
      memory := update s.heap.memory b.address (s.heap.bins b.bin_index).free_list },
      s.live.erase b, b :: s.freed⟩
      (update free b.bin_index (b.address :: free b.bin_index)) := by
  have hunit : s.Unit free b.bin_index b.address := unit_of_live hb
  have hout : ∀ c ∈ s.live.erase b, c.address ≠ b.address := by
    have hperm := (perm_cons_erase hb).map Block.address
    have hnodup := (nodup_cons.mp (hperm.nodup_iff.mp h.live_nodup)).1
    exact fun c hc heq => hnodup (heq ▸ mem_map.mpr ⟨c, hc, rfl⟩)
  have hmem : ∀ i a, a ∈ update free b.bin_index (b.address :: free b.bin_index) i →
      i = b.bin_index ∧ a = b.address ∨ a ∈ free i := by
    intro i a ha
    by_cases hi : i = b.bin_index
    · rw [hi, update_self] at ha
      rcases mem_cons.mp ha with rfl | ha
      · exact Or.inl ⟨hi, rfl⟩
      · rw [hi]
        exact Or.inr ha
    · rw [update_of_ne hi] at ha
      exact Or.inr ha
  have hraw := Heap.raw_setBin hlist hcount
  have hsub : ∀ c ∈ s.live.erase b, c ∈ s.live := fun c hc => mem_of_mem_erase hc
  refine ⟨h.layout.mono ⟨rfl, rfl, rfl, rfl, fun _ => rfl⟩ ?_, ?_, fun i a => ?_, ?_, ?_, ?_, ?_, fun c hc => h.size c (hsub c hc)⟩
  · rintro i a (⟨c, hc, rfl, rfl⟩ | ha | ha)
    · exact unit_of_live (hsub c hc)
    · rcases hmem i a ha with ⟨rfl, rfl⟩ | ha
      · exact hunit
      · exact Or.inr (Or.inl ha)
    · exact Or.inr (Or.inr ((hraw i a).mp ha))
  · have hinsert := @Chains.insert _ _ _ _ s.heap.next
      (update s.heap.next b.address (s.heap.free_list b.bin_index)) s.heap.free_list
      (update s.heap.free_list b.bin_index (some b.address)) free h.chains b.bin_index []
      (free b.bin_index) b.address rfl (h.live_free b hb) ⟨rfl, rfl⟩
    have hnext : Heap.next { s.heap.setBin b.bin_index bin with
        memory := update s.heap.memory b.address (s.heap.bins b.bin_index).free_list } =
        update s.heap.next b.address (s.heap.free_list b.bin_index) := by
      funext a
      show pointer (update s.heap.memory b.address _ a) = _
      by_cases ha : a = b.address
      · rw [ha, update_self, update_self]
        rfl
      · rw [update_of_ne ha, update_of_ne ha]
        rfl
    have hlists := Heap.free_list_setBin s.heap b.bin_index bin
    rw [hfree, pointer, if_neg (h.layout.address_ne_zero hunit)] at hlists
    rw [hnext]
    show Chains _ (s.heap.setBin b.bin_index bin).free_list _
    rw [hlists]
    exact hinsert
  · constructor
    · intro ha
      rcases hmem i a ha with ⟨rfl, rfl⟩ | ha
      · exact ⟨b, mem_cons_self .., rfl, rfl⟩
      · obtain ⟨c, hc, hca⟩ := (h.freed i a).mp ha
        exact ⟨c, mem_cons_of_mem _ hc, hca⟩
    · rintro ⟨c, hc, rfl, rfl⟩
      rcases mem_cons.mp hc with rfl | hc
      · rw [update_self]
        exact mem_cons_self ..
      · have ha := (h.freed c.bin_index c.address).mpr ⟨c, hc, rfl, rfl⟩
        by_cases hi : c.bin_index = b.bin_index
        · rw [hi, update_self, ← hi]
          exact mem_cons_of_mem _ ha
        · rwa [update_of_ne hi]
  · exact h.live_nodup.sublist (erase_sublist.map _)
  · intro c hc i ha
    rcases hmem i c.address ha with ⟨-, heq⟩ | ha
    · exact hout c hc heq
    · exact h.live_free c (hsub c hc) i ha
  · exact fun c hc i ha => h.live_raw c (hsub c hc) i ((hraw i _).mp ha)
  · intro i j a ha hra
    rcases hmem i a ha with ⟨-, rfl⟩ | ha
    · exact h.live_raw b hb j ((hraw j _).mp hra)
    · exact h.free_raw i j a ha ((hraw j a).mp hra)

theorem Sound.kfree {b : Block} (hb : b ∈ s.live)
    (hkfree : s.heap.kfree b.address = some h') :
    ∃ free', Sound ⟨h', s.live.erase b, b :: s.freed⟩ free' := by
  have hunit : s.Unit free b.bin_index b.address := unit_of_live hb
  have hpos := h.layout.pos hunit
  have hbin := h.layout.bin _ _ hunit b.address (Nat.le_refl _) (by omega)
  simp only [Heap.kfree, hbin] at hkfree
  rw [if_neg (h.layout.address_ne_zero hunit)] at hkfree
  split at hkfree
  · cases hkfree
  split at hkfree
  · cases hkfree
  split at hkfree
  · cases hkfree
  cases hkfree
  have hpush := @Sound.push s free h b hb { s.heap.bins b.bin_index with
    free_list := b.address
    alloc_count := ((s.heap.bins b.bin_index).alloc_count + 2 ^ 32 - 1) % 2 ^ 32
    free_count := ((s.heap.bins b.bin_index).free_count + 1) % 2 ^ 32 } rfl rfl rfl
  exact ⟨_, hpush.count (Heap.sameLayout_countPages ..) (Heap.sameLists_countPages ..)⟩

theorem Sound.write {b : Block} (hb : b ∈ s.live) {memory : Nat → Nat}
    (hsame : ∀ p, p + 4 ≤ b.address ∨ b.top ≤ p → memory p = s.heap.memory p) :
    Sound { s with heap := { s.heap with memory } } free := by
  refine ⟨h.layout.mono ⟨rfl, rfl, rfl, rfl, fun _ => rfl⟩ fun _ _ hu => hu, ?_, h.freed,
    h.live_nodup, h.live_free, h.live_raw, h.free_raw, h.size⟩
  refine ⟨fun i => (h.chains.leads i).congr fun a ha => ?_, h.chains.nodup, h.chains.apart⟩
  have hunit : s.Unit free i a := Or.inr (Or.inl ha)
  have hpos := h.layout.pos hunit
  rw [Heap.next, Heap.next]
  show pointer (memory a) = pointer (s.heap.memory a)
  rw [hsame]
  rcases h.layout.apart _ _ _ _ hunit (unit_of_live hb) with ⟨-, rfl⟩ | hle | hle
  · exact absurd ha (h.live_free b hb i)
  · exact Or.inl (by omega)
  · exact Or.inr hle

end

theorem Sound.step {act : HeapAction} {s' : HeapSystem} (h : s.Sound free)
    (hallowed : s.Allowed act) (hfits : s.Fits act) (hstep : s.Step act s') :
    ∃ free', s'.Sound free' := by
  cases act with
  | kmalloc size =>
    simp only [Step, exec] at hstep
    cases hbin : binFor size with
    | none =>
      rw [hbin] at hstep
      cases hstep
    | some i =>
      obtain ⟨hi, hsize⟩ := binFor_spec hbin
      rw [hbin] at hstep
      obtain ⟨⟨a, heap⟩, hkmalloc, rfl⟩ := Option.map_eq_some_iff.mp hstep
      simp only [Heap.kmalloc, hbin] at hkmalloc
      obtain ⟨⟨a, heap⟩, htake, heq⟩ := Option.map_eq_some_iff.mp hkmalloc
      cases heq
      obtain ⟨free', hsound⟩ := h.takeBlock hi hsize (hfits i hbin) htake
      have hlists := @Heap.sameLists_setBin heap i { heap.bins i with
        alloc_count := ((heap.bins i).alloc_count + 1) % 2 ^ 32 } rfl rfl rfl
      exact ⟨free', Sound.count hsound
        ((Heap.sameLayout_setBin ..).trans (Heap.sameLayout_countPages ..))
        (hlists.trans (Heap.sameLists_countPages ..))⟩
  | kfree b =>
    obtain ⟨heap, hkfree, rfl⟩ := Option.map_eq_some_iff.mp hstep
    exact h.kfree hallowed hkfree
  | write b memory =>
    cases hstep
    exact ⟨free, h.write hallowed.1 hallowed.2⟩

theorem Sound.init (h : s.Init) : s.Sound fun _ => [] := by
  obtain ⟨new_heap_base, new_heap_size, page, memory, hbase, hsize, rfl⟩ := h
  have hnone : ∀ i a, ¬ Heap.Raw (heap_init new_heap_base new_heap_size page memory) i a := by
    rintro i a ⟨k, hk, -⟩
    exact absurd hk (Nat.not_lt_zero k)
  have hunit : ∀ i a, ¬ Unit ⟨heap_init new_heap_base new_heap_size page memory, [], []⟩
      (fun _ => []) i a := by
    rintro i a (⟨b, hb, -⟩ | ha | ha)
    · exact absurd hb not_mem_nil
    · exact absurd ha not_mem_nil
    · exact hnone i a ha
  refine ⟨⟨⟨?_, ?_⟩, ⟨Nat.le_refl _, ?_⟩, Or.inl rfl, fun i a hu => absurd hu (hunit i a),
    fun i a hu => absurd hu (hunit i a), fun i a _ _ hu => absurd hu (hunit i a)⟩,
    ⟨fun i => rfl, fun _ => nodup_nil, nofun⟩, fun i a => ?_, nodup_nil, nofun, nofun,
    nofun, nofun⟩
  · exact Nat.mul_mod_left _ _
  · exact Nat.mul_mod_left _ _
  · show PAGE_ALIGN _ < 2 ^ 32
    simp only [PAGE_ALIGN, PAGE_SIZE]
    omega
  · simp

end HeapSystem

/-- In every run in which fresh pages fit, the blocks handed out are disjoint, inside the memory and
behind the table, and the table and the free lists are right. -/
theorem heap_blocks_disjoint {s : HeapSystem}
    (h : Reachable.By HeapSystem.Init (fun s a => s.Allowed a ∧ s.Fits a) HeapSystem.Step s) :
    s.Consistent := by
  have hsound : ∃ free, s.Sound free := by
    apply h.invariant fun s => ∃ free, s.Sound free
    · exact fun s hs => ⟨_, HeapSystem.Sound.init hs⟩
    · rintro s a s' ⟨free, hs⟩ ⟨hallowed, hfits⟩ hstep
      exact hs.step hallowed hfits hstep
  obtain ⟨free, hs⟩ := hsound
  exact hs.consistent

/-! ## Two heaps -/

namespace HeapSystem

/-- The heap starts at page 1; the rest of the memory holds zeros. -/
def booted (new_heap_size : Nat) : HeapSystem :=
  ⟨heap_init PAGE_SIZE new_heap_size (fun _ => ⟨0, 0, false, false⟩) fun _ => 0, [], []⟩

/-- A block has been asked for. -/
def afterKmalloc (new_heap_size size : Nat) : HeapSystem :=
  ((booted new_heap_size).exec (.kmalloc size)).getD (booted new_heap_size)

theorem init_booted {new_heap_size : Nat} (hsize : new_heap_size < 2 ^ 32) :
    (booted new_heap_size).Init :=
  ⟨PAGE_SIZE, new_heap_size, _, _, by decide, hsize, rfl⟩

theorem step_afterKmalloc {new_heap_size size : Nat}
    (h : ((booted new_heap_size).exec (.kmalloc size)).isSome) :
    (booted new_heap_size).Step (.kmalloc size) (afterKmalloc new_heap_size size) := by
  obtain ⟨s, hs⟩ := Option.isSome_iff_exists.mp h
  rw [Step, afterKmalloc, hs]
  rfl

theorem allowed_hundred (s : HeapSystem) : s.Allowed (.kmalloc 100) := by
  show 100 ≤ 0x10000
  decide

theorem binFor_hundred : binFor 100 = some 3 := by decide

end HeapSystem

/-- In two pages, the table takes one, and a block is in the other one. -/
theorem heap_blocks_disjoint_two_pages :
    ∃ s : HeapSystem, s.live = [⟨0x2000, 100, 3⟩] ∧ s.Consistent := by
  refine ⟨HeapSystem.afterKmalloc 0x2000 100, rfl, heap_blocks_disjoint (.step
    (.init (HeapSystem.init_booted (by decide))) (a := .kmalloc 100)
    ⟨HeapSystem.allowed_hundred _, ?_⟩
    (HeapSystem.step_afterKmalloc rfl))⟩
  intro i hi _ _
  rw [HeapSystem.binFor_hundred] at hi
  cases hi
  decide

/-- In one page, behind the table, there is no room, but a block is handed out. -/
theorem heap_block_outside :
    ¬ ∀ s, Reachable.By HeapSystem.Init HeapSystem.Allowed HeapSystem.Step s → s.Consistent := by
  intro hall
  have hreach : Reachable.By HeapSystem.Init HeapSystem.Allowed HeapSystem.Step
      (HeapSystem.afterKmalloc 0x1000 100) :=
    .step (.init (HeapSystem.init_booted (by decide))) (a := .kmalloc 100)
      (HeapSystem.allowed_hundred _) (HeapSystem.step_afterKmalloc rfl)
  have hlive : (HeapSystem.afterKmalloc 0x1000 100).live = [⟨0x2000, 100, 3⟩] := rfl
  have htop := ((hall _ hreach).inside ⟨0x2000, 100, 3⟩ (by rw [hlive]; simp)).2
  exact absurd htop (by decide)

end Kernel
