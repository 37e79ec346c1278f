import OpenBeOS.BFS.BlockMap
import OpenBeOS.Lib.Bytes

/-! # Reading and writing a stream (`Inode::ReadAt()`, `Inode::WriteAt()`)

A request is split into an unaligned head, whole blocks of one run after the other, and a partial
block at the end. The stream is not logged, and reading and writing blocks succeeds. A function that
fails is `Except.error`; a loop that does not come to an end within its fuel is `none`.
-/

namespace BFS

open Bytes

/-! ## Blocks -/

/-- The contents of the blocks of the volume. -/
abbrev Blocks : Type := Int → Buffer

/-- `cached_read()`: read blocks to the buffer from `d` on. -/
def cached_read (blockSize : Nat) (disk : Blocks) (block : Int) (buffer : Buffer)
    (d numBlocks : Nat) : Buffer :=
  fun i =>
    if d ≤ i ∧ i < d + numBlocks * blockSize then
      disk (block + ((i - d) / blockSize : Nat)) ((i - d) % blockSize)
    else buffer i

/-- `Volume::WriteBlocks()`: write blocks from the buffer from `s` on. -/
def WriteBlocks (blockSize : Nat) (disk : Blocks) (block : Int) (buffer : Buffer)
    (s numBlocks : Nat) : Blocks :=
  fun n =>
    if block ≤ n ∧ n < block + numBlocks then
      memcpy (disk n) 0 buffer (s + (n - block).toNat * blockSize) blockSize
    else disk n

/-- A value assigned to a `uint16`. -/
def wrapUint16 (v : Int) : Nat := (v % 65536).toNat

/-- `run.start += blocks` and `run.length -= blocks`. -/
def block_run.skip (run : block_run) (blocks : Int) : block_run :=
  { run with
    start := wrapUint16 (run.start + blocks)
    length := wrapUint16 (run.length - blocks) }

variable {σ : Type}

/-! ## Splitting a request

`ReadAt()` and `WriteAt()` split a request in the same way. They differ in what they do with a part
of one block, and with whole blocks.
-/

/-- What is done with a part of a block (the block, where the part is in it and in the buffer, and
its bytes), and with whole blocks (the first block, where they are in the buffer, and their
number). -/
structure Transfer (γ : Type) where
  part : Int → Nat → Nat → Nat → γ → γ
  blocks : Int → Nat → Nat → γ → γ

variable {γ : Type}

/-- `while (length > 0)`. `done` are the bytes that were transferred before. -/
def transferLoop (volume : BlockVolume σ) (data : file_stream) (transfer : Transfer γ) :
    Nat → block_run → Int → Nat → Nat → Bool → Nat → γ → Option (Except Status (Nat × γ))
  | 0, _, _, _, _, _, _, _ => none
  | fuel + 1, run, offset, pos, length, isPartial, done, x =>
    if length = 0 then some (.ok (done, x))
    else
      -- offset is the offset to the current pos in the block_run
      let run := run.skip ((pos - offset) >>> volume.BlockShift)
      if run.length <<< volume.BlockShift > length ∧ length < volume.BlockSize then
        some (.ok (done + length, transfer.part (volume.ToBlock run) 0 done length x))
      else
        let isPartial := isPartial || run.length <<< volume.BlockShift > length
        let run := if run.length <<< volume.BlockShift > length then
          { run with length := toUint16 (length >>> volume.BlockShift) } else run
        let x := transfer.blocks (volume.ToBlock run) done run.length x
        let bytes := run.length <<< volume.BlockShift
        if length - bytes = 0 then some (.ok (done + bytes, x))
        else if isPartial then
          -- if the last block is only partial, point block_run to the remaining part
          transferLoop volume data transfer fuel
            { run with start := toUint16 (run.start + run.length), length := 1 }
            (pos + bytes : Nat) (pos + bytes) (length - bytes) isPartial (done + bytes) x
        else
          match FindBlockRun volume data (pos + bytes) with
          | .error _ => some (.error .B_BAD_VALUE)
          | .ok (run, offset) =>
            transferLoop volume data transfer fuel run offset (pos + bytes) (length - bytes)
              isPartial (done + bytes) x

/-- The request from the first `FindBlockRun()` on. -/
def transferAt (volume : BlockVolume σ) (data : file_stream) (transfer : Transfer γ)
    (pos length : Nat) (x : γ) : Option (Except Status (Nat × γ)) :=
  match FindBlockRun volume data pos with
  | .error _ => some (.error .B_BAD_VALUE)
  | .ok (run, offset) =>
    if pos % volume.BlockSize ≠ 0 then
      -- the first block_run is not aligned to the block_size boundary
      let run := run.skip ((pos - offset).tdiv volume.BlockSize)
      let bytes := min length (volume.BlockSize - pos % volume.BlockSize)
      let x := transfer.part (volume.ToBlock run) (pos % volume.BlockSize) 0 bytes x
      if length - bytes = 0 then some (.ok (bytes, x))
      else
        match FindBlockRun volume data (pos + bytes) with
        | .error _ => some (.error .B_BAD_VALUE)
        | .ok (run, offset) =>
          transferLoop volume data transfer (length + 1) run offset (pos + bytes)
            (length - bytes) false bytes x
    else transferLoop volume data transfer (length + 1) run offset pos length false 0 x

/-! ## ReadAt -/

/-- Blocks are copied to the buffer. -/
def reader (volume : BlockVolume σ) (disk : Blocks) : Transfer Buffer where
  part block place d n buffer := memcpy buffer d (disk block) place n
  blocks block d numBlocks buffer := cached_read volume.BlockSize disk block buffer d numBlocks

/-- `Inode::ReadAt()`: the bytes that were read, and the buffer. -/
def ReadAt (volume : BlockVolume σ) (disk : Blocks) (data : file_stream) (pos : Int)
    (buffer : Buffer) (length : Nat) : Option (Except Status (Nat × Buffer)) :=
  if pos ≥ 0 ∧ pos ≥ data.size then some (.ok (0, buffer))
  else
    let pos := pos.toNat
    let length := if pos + length > data.size then data.size - pos else length
    transferAt volume data (reader volume disk) pos length buffer

/-! ## WriteAt -/

/-- The buffer is copied to the blocks. -/
def writer (volume : BlockVolume σ) (buffer : Buffer) : Transfer Blocks where
  part block place s n disk :=
    WriteBlocks volume.BlockSize disk block (memcpy (disk block) place buffer s n) 0 1
  blocks block s numBlocks disk := WriteBlocks volume.BlockSize disk block buffer s numBlocks

/-- `Inode::GrowStream()` of a stream which can have a double indirect range. The loop is that of
`Stream.lean`: growing into the double indirect range is not implemented. -/
def file_stream.GrowStream (volume : BlockVolume σ) (data : file_stream) (size : Nat) (s : σ) :
    Status × file_stream × σ :=
  if size < data.max_direct_range ∨ size < data.max_indirect_range ∨
      size < data.max_double_indirect_range then
    (.B_OK, { data with size := size }, s)
  else
    let bytes := if data.size < data.max_double_indirect_range then
        size - data.max_double_indirect_range
      else missingBytes data.todata_stream size
    let blocks := (bytes + volume.BlockSize - 1) / volume.BlockSize
    if (blocks : Int) > volume.FreeBlocks s then (.B_DEVICE_FULL, data, s)
    else
      match growLoop volume.toAllocator size blocks (volume.wantedBlocks blocks s) blocks
          data.todata_stream s with
      | (status, grown, s) => (status, { data with todata_stream := grown }, s)

/-- `Inode::WriteAt()`: the bytes that were written, the stream, the blocks, and the allocator.
`FillGapWithZeros()` returns at once. -/
def WriteAt (volume : BlockVolume σ) (disk : Blocks) (data : file_stream) (s : σ) (pos : Int)
    (buffer : Buffer) (length : Nat) :
    Option (Except Status (Nat × file_stream × Blocks × σ)) :=
  -- the stream is grown to the size needed
  match (if pos ≥ 0 ∧ pos + length > data.size then data.GrowStream volume (pos.toNat + length) s
    else (.B_OK, data, s)) with
  | (.B_OK, data, s) =>
    (transferAt volume data (writer volume buffer) pos.toNat length disk).map fun r =>
    r.map fun (written, disk) => (written, data, disk, s)
  | (status, _, _) => some (.error status)

end BFS
