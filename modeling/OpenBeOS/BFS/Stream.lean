import OpenBeOS.BFS.Definitions

/-! # The data stream of an inode (`Inode.cpp`)

A stream owns the runs of its direct array, and, when these do not suffice, the four blocks of
`indirect` and the runs stored in them. `GrowStream()` allocates and distributes runs,
`ShrinkStream()` frees what lies behind a size. The block allocator is a parameter.

The streams here have no double indirect range: `max_double_indirect_range` is 0, so the
branches on it are never taken, and growing into it ends with `EFBIG`. The blocks of
`indirect` are only read and written by their inode; `arrays` are the runs in them.
-/

namespace BFS

def NUM_DIRECT_BLOCKS : Nat := 12

/-- `data_stream`, with the contents of its indirect blocks. -/
structure data_stream where
  direct : List block_run
  max_direct_range : Nat
  indirect : block_run
  max_indirect_range : Nat
  size : Nat
  arrays : List (List block_run)
  deriving DecidableEq

/-- The stream of an inode that has no blocks yet. -/
def data_stream.empty : data_stream :=
  { direct := List.replicate NUM_DIRECT_BLOCKS block_run.zero
    max_direct_range := 0
    indirect := block_run.zero
    max_indirect_range := 0
    size := 0
    arrays := [] }

/-- The volume's allocator: `Allocate(inode, numBlocks, run, minimum)`, `Free(run)` and the
free blocks the super block counts. -/
structure Allocator (σ : Type) where
  BlockShift : Nat
  FreeBlocks : σ → Int
  Allocate : σ → data_stream → Int → Nat → Option (block_run × σ)
  Free : σ → block_run → σ

variable {σ : Type}

def Allocator.BlockSize (volume : Allocator σ) : Nat := 2 ^ volume.BlockShift

/-- `BlockSize() / sizeof(block_run)`. -/
def Allocator.numberOfRuns (volume : Allocator σ) : Nat := volume.BlockSize / 8

/-! ## GrowStream -/

/-- The index of the first unused entry of an array, or its length. -/
def findFree (array : List block_run) : Nat := (array.takeWhile fun run => !run.IsZero).length

/-- Put the run into the free entry, or merge it with the entry before. -/
def insertRun (array : List block_run) (free : Nat) (run : block_run) : List block_run :=
  let last := array.getD (free - 1) block_run.zero
  if free > 0 ∧ last.allocation_group = run.allocation_group ∧
      last.start + last.length = run.start then
    array.set (free - 1) { last with length := toUint16 (last.length + run.length) }
  else array.set free run

/-- Put the run into the first array with a free entry. -/
def insertIndirect (run : block_run) : List (List block_run) → Option (List (List block_run))
  | [] => none
  | array :: rest =>
    if findFree array < array.length then some (insertRun array (findFree array) run :: rest)
    else (insertIndirect run rest).map fun rest => array :: rest

/-- `run.length * fVolume->BlockSize()`, a `uint32`. -/
def Allocator.runBytes (volume : Allocator σ) (run : block_run) : Nat :=
  run.length * volume.BlockSize % 2 ^ 32

/-- `data->size` after a run was added up to `range`. -/
def grownSize (blocksNeeded : Int) (range size : Nat) : Nat :=
  if blocksNeeded > 0 then range else size

/-- The body of the loop of `GrowStream()` behind the allocation: distribute the run to the
different ranges of the stream. `B_OK` is the `continue`. -/
def distribute (volume : Allocator σ) (size : Nat) (blocksNeeded : Int) (run : block_run)
    (data : data_stream) (s : σ) : Status × data_stream × σ :=
  if data.size ≤ data.max_direct_range ∧ findFree data.direct < NUM_DIRECT_BLOCKS then
    let range := data.max_direct_range + volume.runBytes run
    (.B_OK, { data with
      direct := insertRun data.direct (findFree data.direct) run
      max_direct_range := range
      size := grownSize blocksNeeded range size }, s)
  else if data.size ≤ data.max_indirect_range ∨ data.max_indirect_range = 0 then
    if data.indirect.IsZero then
      -- if there is no indirect block yet, create one
      match volume.Allocate s data 4 4 with
      | none => (.B_DEVICE_FULL, data, s)
      | some (indirect, s) =>
        let range := data.max_direct_range + volume.runBytes run
        let empty := List.replicate volume.numberOfRuns block_run.zero
        (.B_OK, { data with
          indirect := indirect
          arrays := insertRun empty 0 run :: List.replicate (indirect.length - 1) empty
          max_indirect_range := range
          size := grownSize blocksNeeded range size }, s)
    else
      match insertIndirect run data.arrays with
      | some arrays =>
        let range := data.max_indirect_range + volume.runBytes run
        (.B_OK, { data with
          arrays := arrays
          max_indirect_range := range
          size := grownSize blocksNeeded range size }, s)
      -- growing into the double indirect range is not yet implemented
      | none => (.EFBIG, data, s)
  else (.EFBIG, data, s)

/-- `while (blocksNeeded > 0)`; every allocated run makes `blocksNeeded` smaller. -/
def growLoop (volume : Allocator σ) (size : Nat) :
    Nat → Int → Int → data_stream → σ → Status × data_stream × σ
  | 0, _, _, data, s => (.B_OK, { data with size := size }, s)
  | fuel + 1, blocks, blocksNeeded, data, s =>
    if blocksNeeded > 0 then
      match volume.Allocate s data blocks 1 with
      | none => (.B_DEVICE_FULL, data, s)
      | some (run, s) =>
        match distribute volume size (blocksNeeded - run.length) run data s with
        | (.B_OK, data, s) =>
          growLoop volume size fuel (blocksNeeded - run.length)
            (blocksNeeded - run.length) data s
        | r => r
    else (.B_OK, { data with size := size }, s)

/-- The bytes that are missing in the ranges of the stream. -/
def missingBytes (data : data_stream) (size : Nat) : Nat :=
  if data.size < data.max_indirect_range then size - data.max_indirect_range
  else if data.size < data.max_direct_range then size - data.max_direct_range
  else size - data.size

/-- The blocks that are needed for them. -/
def Allocator.missingBlocks (volume : Allocator σ) (data : data_stream) (size : Nat) : Nat :=
  (missingBytes data size + volume.BlockSize - 1) / volume.BlockSize

/-- The blocks asked for first: at least 64k, when there is enough room. -/
def Allocator.wantedBlocks (volume : Allocator σ) (blocks : Nat) (s : σ) : Nat :=
  if blocks < 65536 / volume.BlockSize ∧ volume.FreeBlocks s > 128 then 65536 / volume.BlockSize
  else blocks

/-- `Inode::GrowStream()`. -/
def GrowStream (volume : Allocator σ) (data : data_stream) (size : Nat) (s : σ) :
    Status × data_stream × σ :=
  if size < data.max_direct_range ∨ size < data.max_indirect_range then
    (.B_OK, { data with size := size }, s)
  else
    let blocks := volume.missingBlocks data size
    if (blocks : Int) > volume.FreeBlocks s then (.B_DEVICE_FULL, data, s)
    else growLoop volume size blocks (volume.wantedBlocks blocks s) blocks data s

/-! ## ShrinkStream -/

/-- `FreeStreamArray()`: the array, `offset`, `max` and the allocator's state after it. -/
def FreeStreamArray (volume : Allocator σ) (size : Nat) :
    List block_run → Nat → Nat → σ → List block_run × Nat × Nat × σ
  | [], offset, max, s => ([], offset, max, s)
  | run :: rest, offset, max, s =>
    if run.IsZero then (run :: rest, offset, max, s)
    else
      let newOffset := offset + run.length * volume.BlockSize
      if newOffset ≤ size then
        let r := FreeStreamArray volume size rest newOffset max s
        (run :: r.1, r.2)
      else if offset < size then
        -- free partial block_run (and update the original block_run)
        let start := toUint16 (run.start + (size - offset) / volume.BlockSize + 1)
        let length := toUint16 (start + 65536 - run.start)
        let freed : block_run :=
          { run with start := start, length := toUint16 (run.length + 65536 - length) }
        let kept : block_run := { run with length := length }
        if freed.length = 0 then
          let r := FreeStreamArray volume size rest newOffset max s
          (kept :: r.1, r.2)
        else
          let r := FreeStreamArray volume size rest newOffset
            (offset + length * volume.BlockSize) (volume.Free s freed)
          (kept :: r.1, r.2)
      else
        -- free the whole block_run
        let r := FreeStreamArray volume size rest newOffset (if max > offset then offset else max)
          (volume.Free s run)
        (block_run.zero :: r.1, r.2)

/-- The loop of `ShrinkStream()` over the indirect blocks. -/
def freeArrays (volume : Allocator σ) (size : Nat) :
    List (List block_run) → Nat → Nat → σ → List (List block_run) × Nat × Nat × σ
  | [], offset, max, s => ([], offset, max, s)
  | array :: rest, offset, max, s =>
    let r := FreeStreamArray volume size array offset max s
    let r' := freeArrays volume size rest r.2.1 r.2.2.1 r.2.2.2
    (r.1 :: r'.1, r'.2)

section

variable (volume : Allocator σ) (data : data_stream)

/-- The part of `ShrinkStream()` for the indirect range. -/
def shrinkIndirect (size : Nat) (s : σ) :
    data_stream × σ :=
  if data.max_indirect_range > size then
    let r := freeArrays volume size data.arrays data.max_direct_range data.max_indirect_range s
    if data.max_direct_range = r.2.2.1 then
      ({ data with arrays := r.1, indirect := block_run.zero, max_indirect_range := 0 },
        volume.Free r.2.2.2 data.indirect)
    else ({ data with arrays := r.1, max_indirect_range := r.2.2.1 }, r.2.2.2)
  else (data, s)

/-- The part of `ShrinkStream()` for the direct range. -/
def shrinkDirect (size : Nat) (s : σ) :
    data_stream × σ :=
  if data.max_direct_range > size then
    let r := FreeStreamArray volume size data.direct 0 data.max_direct_range s
    ({ data with direct := r.1, max_direct_range := r.2.2.1 }, r.2.2.2)
  else (data, s)

/-- `Inode::ShrinkStream()`. -/
def ShrinkStream (size : Nat) (s : σ) :
    data_stream × σ :=
  let r := shrinkIndirect volume data size s
  let r := shrinkDirect volume r.1 size r.2
  ({ r.1 with size := size }, r.2)

/-! ## SetFileSize and Trim -/

/-- `Inode::SetFileSize()`. -/
def SetFileSize (size : Int) (s : σ) :
    Status × data_stream × σ :=
  if size < 0 then (.B_BAD_VALUE, data, s)
  else
    let size := size.toNat
    let oldSize := data.size
    if size = oldSize then (.B_OK, data, s)
    else if size > oldSize then
      match GrowStream volume data size s with
      | (.B_OK, data, s) => (.B_OK, data, s)
      | (status, data, s) =>
        -- shrink the stream to its former size
        let r := ShrinkStream volume data oldSize s
        (status, r.1, r.2)
    else
      let r := ShrinkStream volume data size s
      (.B_OK, r.1, r.2)

/-- `Inode::Trim()`. -/
def Trim (s : σ) : Status × data_stream × σ :=
  let r := ShrinkStream volume data data.size s
  (.B_OK, r.1, r.2)

end

end BFS
