import OpenBeOS.Lib.Bitmap
import OpenBeOS.BFS.Definitions

/-! # The block allocator (`BlockAllocator.cpp`)

The block bitmap of a volume lies in `fBlocksPerGroup` device blocks for each allocation
group. `AllocationBlock` is a window on one of these blocks, `AllocationGroup` the summary of
a group kept in memory. The blocks of the device are bitmaps of 32-bit words; what reading
and writing a block can answer is a parameter (`Device`).

The search of `AllocateBlocks` changes nothing before it has found a range, so it is a
function of its own (`searchGroups`), followed by `allocateRange`.
-/

namespace BFS

open Bitmap

/-! ## State -/

/-- `AllocationGroup`: the summary of a group of blocks. -/
structure AllocationGroup where
  fNumBits : Nat
  fStart : Nat
  fFirstFree : Int
  fLargest : Int
  fLargestFirst : Int
  fFreeBits : Int

/-- `AllocationGroup::AllocationGroup()`. -/
def AllocationGroup.new : AllocationGroup :=
  { fNumBits := 0, fStart := 0, fFirstFree := -1, fLargest := -1, fLargestFirst := -1,
    fFreeBits := 0 }

/-- `AllocationGroup::AddFreeRange()`. -/
def AllocationGroup.AddFreeRange (group : AllocationGroup) (start blocks : Nat) : AllocationGroup :=
  { group with
    fFirstFree := if group.fFirstFree = -1 then (start : Int) else group.fFirstFree
    fLargest := if group.fLargest < blocks then (blocks : Int) else group.fLargest
    fLargestFirst := if group.fLargest < blocks then (start : Int) else group.fLargestFirst
    fFreeBits := group.fFreeBits + blocks }

/-- `AllocationGroup::IsFull()`. -/
def AllocationGroup.IsFull (group : AllocationGroup) : Bool := group.fFreeBits = 0

/-- Which device blocks can be read and written. -/
structure Device where
  read : Nat → Bool
  write : Nat → Bool

/-- `BlockAllocator` with what it uses of its `Volume`: the geometry, the log area, the
super block's `used_blocks` and the device blocks that hold the bitmap. -/
structure BlockAllocator where
  BlockSize : Nat
  NumBlocks : Nat
  Log : block_run
  used_blocks : Int
  fNumGroups : Nat
  fBlocksPerGroup : Nat
  fGroups : Nat → AllocationGroup
  blocks : Nat → Words

/-- `BlockSize() << 3`: the bits of one bitmap block. -/
def BlockAllocator.blockBits (a : BlockAllocator) : Nat := a.BlockSize * 8

/-- Replace the summary of a group. -/
def BlockAllocator.setGroup (a : BlockAllocator) (group : Nat) (g : AllocationGroup) :
    BlockAllocator :=
  { a with fGroups := fun i => if i = group then g else a.fGroups i }

/-- Replace the contents of a device block. -/
def BlockAllocator.setBlock (a : BlockAllocator) (n : Nat) (w : Words) : BlockAllocator :=
  { a with blocks := fun i => if i = n then w else a.blocks i }

/-! ## AllocationBlock -/

/-- `fNumBits` after `AllocationBlock::SetTo()`: the last group may have less bits in the
last block, and the code takes that number for every block of the group. -/
def BlockAllocator.NumBlockBits (a : BlockAllocator) (group : Nat) : Nat :=
  if (a.fGroups group).fNumBits % a.blockBits ≠ 0 then (a.fGroups group).fNumBits % a.blockBits
  else a.blockBits

/-- `AllocationBlock::IsUsed()`. -/
def AllocationBlock.IsUsed (fBlock : Words) (fNumBits block : Nat) : Bool :=
  if block > fNumBits then true else bit fBlock block

/-- The length `Allocate()` and `Free()` go on with: `0xffff` means up to the end. -/
def AllocationBlock.runLength (fNumBits start numBlocks : Nat) : Nat :=
  if numBlocks = 0xffff then toUint16 (fNumBits - start)
  else if start + numBlocks > fNumBits then toUint16 (fNumBits - start)
  else numBlocks

/-- `AllocationBlock::Allocate()`. -/
def AllocationBlock.Allocate (fBlock : Words) (fNumBits start numBlocks : Nat) : Words :=
  let start := start % fNumBits
  let numBlocks := AllocationBlock.runLength fNumBits start numBlocks
  markLoop (fun w mask => w ||| mask) numBlocks (start / 32) start numBlocks fBlock

/-- `AllocationBlock::Free()`. -/
def AllocationBlock.Free (fBlock : Words) (fNumBits start numBlocks : Nat) : Words :=
  let start := start % fNumBits
  let numBlocks := AllocationBlock.runLength fNumBits start numBlocks
  markLoop (fun w mask => w &&& ~~~mask) numBlocks (start / 32) start numBlocks fBlock

/-! ## BlockAllocator::initialize -/

/-- The state of the scan for free ranges: the group, and the range being collected. -/
structure FreeScan where
  group : AllocationGroup
  start : Nat
  range : Nat

/-- One bit of the scan. -/
def FreeScan.step (s : FreeScan) (used : Bool) (num : Nat) : FreeScan :=
  if used then
    if s.range > 0 then { s with group := s.group.AddFreeRange s.start s.range, range := 0 }
    else s
  else { s with start := if s.range = 0 then num else s.start, range := s.range + 1 }

/-- `for (j = 0; j < 32 && num < size; j++, num++)` over one word. -/
def scanWord (word : BitVec 32) (size : Nat) : Nat → Nat → Nat → FreeScan → Nat × FreeScan
  | 0, _, num, s => (num, s)
  | fuel + 1, j, num, s =>
    if j < 32 ∧ num < size then
      scanWord word size fuel (j + 1) (num + 1) (s.step (word.getLsbD j) num)
    else (num, s)

/-- `for (k = 0; k < (size >> 2); k++)` over the words of the group. -/
def scanWords (buffer : Words) (size : Nat) : Nat → Nat → Nat → FreeScan → FreeScan
  | 0, _, _, s => s
  | fuel + 1, k, num, s =>
    let r := scanWord (buffer k) size 32 0 num s
    scanWords buffer size fuel (k + 1) r.1 r.2

/-- The words of the device blocks from `offset`, as `cached_read()` puts them into one
buffer. -/
def BlockAllocator.readWords (a : BlockAllocator) (offset : Nat) : Words :=
  fun k => a.blocks (offset + k / (a.BlockSize / 4)) (k % (a.BlockSize / 4))

/-- The body of `initialize()` for one group. -/
def BlockAllocator.scanGroup (a : BlockAllocator) (i offset : Nat) : AllocationGroup :=
  let numBits := 8 * a.fBlocksPerGroup * a.BlockSize
  let group := { a.fGroups i with
    fNumBits := if i = a.fNumGroups - 1 then a.NumBlocks - i * numBits else numBits
    fStart := offset }
  let s := scanWords (a.readWords offset) group.fNumBits (group.fNumBits / 4) 0 0
    { group := group, start := 0, range := 0 }
  if s.range ≠ 0 then s.group.AddFreeRange s.start s.range else s.group

/-- The loop of `initialize()` over the groups, with the sum of their free blocks. -/
def BlockAllocator.scanGroups (dev : Device) :
    Nat → Nat → Nat → Int → BlockAllocator → BlockAllocator × Int
  | 0, _, _, freeBlocks, a => (a, freeBlocks)
  | fuel + 1, i, offset, freeBlocks, a =>
    if (List.range a.fBlocksPerGroup).all (fun k => dev.read (offset + k)) then
      let group := a.scanGroup i offset
      BlockAllocator.scanGroups dev fuel (i + 1) (offset + a.fBlocksPerGroup)
        (freeBlocks + group.fFreeBits) (a.setGroup i group)
    else (a, freeBlocks)

/-- `BlockAllocator::initialize()`. -/
def BlockAllocator.initializeGroups (dev : Device) (a : BlockAllocator) : BlockAllocator :=
  let r := BlockAllocator.scanGroups dev a.fNumGroups 0 1 0 a
  let usedBlocks := (a.NumBlocks : Int) - r.2
  if r.1.used_blocks ≠ usedBlocks then { r.1 with used_blocks := usedBlocks } else r.1

/-! ## BlockAllocator::AllocateBlocks -/

/-- The range of free bits the search is collecting. -/
structure Range where
  range : Nat
  rangeStart : Nat
  rangeBlock : Nat
  deriving DecidableEq

/-- `if (range == 0) { rangeStart = …; rangeBlock = block; } ++range` for an unused bit. -/
def Range.extend (r : Range) (numBits block bit : Nat) : Range :=
  if r.range = 0 then ⟨1, block * numBits + bit, block⟩ else { r with range := r.range + 1 }

/-- The search through the bits of one bitmap block, from `bit` on. -/
def searchBits (used : Nat → Bool) (numBits block maximum minimum : Nat) (secondPass : Bool) :
    Nat → Nat → Range → Range
  | 0, _, r => r
  | fuel + 1, bit, r =>
    if used (toUint16 bit) = false then
      let r := r.extend numBits block bit
      if r.range ≥ maximum then r
      else searchBits used numBits block maximum minimum secondPass fuel (bit + 1) r
    else if secondPass ∧ r.range ≥ minimum then r
    else
      searchBits used numBits block maximum minimum secondPass fuel (bit + 1)
        { r with range := 0 }

/-- How the search of a group, or of all groups, ends. -/
inductive SearchResult
  | notFound
  | error
  | found (group block numBlocks : Nat) (range : Range)
  deriving DecidableEq

/-- The search through the bitmap blocks of a group. -/
def searchBlocks (dev : Device) (a : BlockAllocator)
    (group maximum minimum numBlocks : Nat) (secondPass : Bool) :
    Nat → Nat → Nat → Range → SearchResult
  | 0, _, _, _ => .notFound
  | fuel + 1, block, start, r =>
    if dev.read ((a.fGroups group).fStart + block) = false then .error
    else
      let numBits := a.NumBlockBits group
      let cached := a.blocks ((a.fGroups group).fStart + block)
      let bit := start % numBits
      let r := searchBits (AllocationBlock.IsUsed cached numBits) numBits block maximum minimum
        secondPass (numBits - bit) bit r
      if r.range ≥ numBlocks then
        -- adjust allocation size
        .found group block (if numBlocks < maximum then toUint16 r.range else numBlocks) r
      else searchBlocks dev a group maximum minimum numBlocks secondPass fuel (block + 1) 0 r

/-- The two passes of `AllocateBlocks()` over the groups: the first looks for `maximum`
blocks, the second for `minimum`. -/
def searchGroups (dev : Device) (a : BlockAllocator) (maximum minimum : Nat) :
    Nat → Nat → Nat → Nat → SearchResult
  | 0, _, _, _ => .notFound
  | fuel + 1, i, group, start =>
    let group := group % a.fNumGroups
    if start ≥ (a.fGroups group).fNumBits ∨ (a.fGroups group).IsFull then
      searchGroups dev a maximum minimum fuel (i + 1) (group + 1) 0
    else if i ≥ a.fNumGroups ∧ maximum = minimum then .notFound
    else
      let numBlocks := if i ≥ a.fNumGroups then minimum else maximum
      let start :=
        if (start : Int) < (a.fGroups group).fFirstFree then
          toUint16 (a.fGroups group).fFirstFree.toNat
        else start
      let block := start / a.blockBits
      match searchBlocks dev a group maximum minimum numBlocks (i ≥ a.fNumGroups)
          (a.fBlocksPerGroup - block) block start ⟨0, 0, 0⟩ with
      | .notFound => searchGroups dev a maximum minimum fuel (i + 1) (group + 1) 0
      | r => r

/-- The update of the group's summary for an allocation. -/
def AllocationGroup.take (group : AllocationGroup) (rangeStart numBlocks : Nat) : AllocationGroup :=
  { group with
    fFirstFree :=
      if (rangeStart : Int) = group.fFirstFree then ((rangeStart + numBlocks : Nat) : Int)
      else group.fFirstFree
    fFreeBits := group.fFreeBits - numBlocks }

section

variable (dev : Device) (a : BlockAllocator)

/-- The end of `AllocateBlocks()`: the run is returned, the super block updated and the current
bitmap block written. -/
def BlockAllocator.finishAllocation
    (group cached rangeStart numBlocks : Nat) : Status × block_run × BlockAllocator :=
  (if dev.write cached then .B_OK else .B_ERROR,
    { allocation_group := group, start := toUint16 rangeStart, length := numBlocks },
    { a with used_blocks := a.used_blocks + numBlocks })

/-- What `AllocateBlocks()` does with the range it has found. -/
def BlockAllocator.allocateRange
    (group block numBlocks : Nat) (r : Range) (run : block_run) :
    Status × block_run × BlockAllocator :=
  let numBits := a.NumBlockBits group
  let cached := (a.fGroups group).fStart + block
  let taken := a.setGroup group ((a.fGroups group).take r.rangeStart numBlocks)
  if block ≠ r.rangeBlock then
    -- allocate the part that's in the current block
    let a := taken.setBlock cached
      (AllocationBlock.Allocate (a.blocks cached) numBits 0
        (toUint16 ((r.rangeStart + numBlocks) % numBits)))
    if dev.write cached = false then (.B_ERROR, run, a)
    -- set the blocks in the previous block: the code only goes on when it could not be read
    else if dev.read (cached - 1) then (.B_ERROR, run, a)
    else
      let a := a.setBlock (cached - 1)
        (AllocationBlock.Allocate (a.blocks (cached - 1)) numBits (toUint16 r.rangeStart) 0xffff)
      a.finishAllocation dev group (cached - 1) r.rangeStart numBlocks
  else
    let a := taken.setBlock cached
      (AllocationBlock.Allocate (a.blocks cached) numBits (toUint16 r.rangeStart) numBlocks)
    a.finishAllocation dev group cached r.rangeStart numBlocks

/-- `BlockAllocator::AllocateBlocks()`. -/
def BlockAllocator.AllocateBlocks
    (group start maximum minimum : Nat) (run : block_run) : Status × block_run × BlockAllocator :=
  match searchGroups dev a maximum minimum (a.fNumGroups * 2) 0 group start with
  | .notFound => (.B_DEVICE_FULL, run, a)
  | .error => (.B_ERROR, run, a)
  | .found group block numBlocks r => a.allocateRange dev group block numBlocks r run

end

/-! ## BlockAllocator::Free -/

/-- `freeLength`: what `Free()` takes for the run's part in this bitmap block. -/
def freeLength (numBits start length : Nat) : Nat :=
  if start + length > numBits then toUint16 (numBits + 65536 - start) else length

/-- Clear bits of one bitmap block of the group. -/
def BlockAllocator.freeInBlock (a : BlockAllocator) (group block start length : Nat) :
    BlockAllocator :=
  let cached := (a.fGroups group).fStart + block
  a.setBlock cached (AllocationBlock.Free (a.blocks cached) (a.NumBlockBits group) start length)

/-- The loop of `Free()` over the bitmap blocks of the run. -/
def BlockAllocator.freeLoop (dev : Device) (group : Nat) :
    Nat → Nat → Nat → Nat → BlockAllocator → Status × BlockAllocator
  | 0, _, _, _, a => (.B_OK, a)
  | fuel + 1, block, start, length, a =>
    if dev.read ((a.fGroups group).fStart + block) = false then (.B_IO_ERROR, a)
    else if dev.write ((a.fGroups group).fStart + block) = false then
      (.B_IO_ERROR,
        a.freeInBlock group block start (freeLength (a.NumBlockBits group) start length))
    else if toUint16 (length + 65536 - freeLength (a.NumBlockBits group) start length) = 0 then
      (.B_OK, a.freeInBlock group block start (freeLength (a.NumBlockBits group) start length))
    else
      freeLoop dev group fuel (block + 1) 0
        (toUint16 (length + 65536 - freeLength (a.NumBlockBits group) start length))
        (a.freeInBlock group block start (freeLength (a.NumBlockBits group) start length))

/-- `BlockAllocator::Free()`. -/
def BlockAllocator.Free (dev : Device) (a : BlockAllocator) (run : block_run) :
    Status × BlockAllocator :=
  let group := run.allocation_group
  let start := run.start
  let length := run.length
  if group < 0 ∨ group ≥ a.fNumGroups ∨ start > (a.fGroups group.toNat).fNumBits
      ∨ start + length > (a.fGroups group.toNat).fNumBits ∨ length = 0 then (.B_BAD_VALUE, a)
  else if group = 0 ∧ start < a.Log.start + a.Log.length then (.B_BAD_VALUE, a)
  else
    let g := a.fGroups group.toNat
    let g := { g with
      fFirstFree := if g.fFirstFree > start then (start : Int) else g.fFirstFree
      fFreeBits := g.fFreeBits + length }
    let block := start / a.blockBits
    match BlockAllocator.freeLoop dev group.toNat (a.fBlocksPerGroup - block) block start length
        (a.setGroup group.toNat g) with
    | (.B_OK, a) => (.B_OK, { a with used_blocks := a.used_blocks - length })
    | r => r

end BFS
