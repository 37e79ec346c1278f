import OpenBeOS.BFS.Definitions
import OpenBeOS.Lib.LinkedList

/-! # The journal

`Journal::WriteLogEntry()`, `Journal::blockNotify()`, and the replay at mount time. The cache of
the kernel is outside of the repository: what it does whenever the journal flushes it (blocks
written home, and the calls of `blockNotify()`) is a list of `CacheEvent`s. Writing to the device
succeeds.
-/

namespace BFS

open LinkedList Function

/-- What the journal knows of the volume: the log area and the size of a block. -/
structure Log where
  /-- `Log().length`, a `uint16`. -/
  fLogSize : Nat
  /-- `ToBlock(Log())`. -/
  logOffset : Int
  blockSize : Nat
  fLogSize_pos : 0 < fLogSize
  fLogSize_lt : fLogSize < 65536
  blockSize_words : 8 ∣ blockSize
  blockSize_pos : 8 < blockSize

/-- The `off_t` words of a block. -/
abbrev Block := Nat → Int

/-- The blocks of the device. -/
abbrev Disk := Int → Block

/-- `blockSize / sizeof(off_t)`. -/
def Log.valuesInBlock (L : Log) : Nat := L.blockSize / 8

/-- `BlockArray::BlocksUsed()` for an array of `count` values. -/
def Log.BlocksUsed (L : Log) (count : Nat) : Nat :=
  ((count + 1) * 8 + L.blockSize - 1) / L.blockSize

/-- `Journal::TransactionSize()`. -/
def Log.TransactionSize (L : Log) (count : Nat) : Nat := count + L.BlocksUsed count

structure log_entry where
  start : Nat
  length : Nat
  cached_blocks : Nat
  deriving DecidableEq

inductive DiskFlags where
  | SUPER_BLOCK_DISK_CLEAN
  | SUPER_BLOCK_DISK_DIRTY
  deriving DecidableEq

/-- The log fields of the super block. -/
structure SuperBlock where
  log_start : Int
  log_end : Int
  flags : DiskFlags
  deriving DecidableEq

/-- The journal, the volume's log pointers and super block, and the device. -/
structure Journal where
  fUsed : Nat
  fEntries : Links Nat
  /-- The log entries by their address. -/
  entry : Nat → log_entry
  /-- The address `malloc()` returns next. -/
  fresh : Nat
  LogStart : Int
  LogEnd : Nat
  superBlock : SuperBlock
  disk : Disk
  /-- The super block on the device. -/
  diskSuperBlock : SuperBlock

/-- `Volume::WriteSuperBlock()`. -/
def Journal.WriteSuperBlock (j : Journal) : Journal := { j with diskSuperBlock := j.superBlock }

/-! ## Retiring entries -/

/-- `Journal::blockNotify()`. -/
def Journal.blockNotify (L : Log) (j : Journal) (logEntry numBlocks : Nat) : Journal :=
  let e := j.entry logEntry
  let cached_blocks := (e.cached_blocks + (2 ^ 32 - numBlocks % 2 ^ 32)) % 2 ^ 32
  let j := { j with
    entry := update j.entry logEntry { e with cached_blocks := cached_blocks } }
  -- nothing to do yet...
  if cached_blocks > 0 then j
  else
    -- set log_start pointer if possible...
    let update : Bool := j.fEntries.next .first = .node logEntry
    let log_start : Int := match j.fEntries.nextNode logEntry with
      | some next =>
        Int.tmod (j.superBlock.log_start + (((j.entry next).start : Int) - e.start)) L.fLogSize
      | none => j.LogEnd
    let superBlock := if update then { j.superBlock with log_start := log_start } else j.superBlock
    let j := { j with
      superBlock := superBlock
      fUsed := (j.fUsed + (2 ^ 32 - e.length % 2 ^ 32)) % 2 ^ 32
      fEntries := j.fEntries.remove logEntry }
    -- update the super block, and change the disk's state, if necessary
    if update then
      let flags := if superBlock.log_start = superBlock.log_end then
        .SUPER_BLOCK_DISK_CLEAN else superBlock.flags
      Journal.WriteSuperBlock { j with
        LogStart := superBlock.log_start
        superBlock := { superBlock with flags := flags } }
    else j

/-- What the cache does when it writes blocks. -/
inductive CacheEvent where
  /-- It calls the hook of a log entry. -/
  | notify (logEntry numBlocks : Nat)
  /-- It writes a block home. -/
  | written (block : Int) (content : Block)

section

variable (L : Log) (j : Journal)

def Journal.cacheEvent : CacheEvent → Journal
  | .notify logEntry numBlocks => j.blockNotify L logEntry numBlocks
  | .written block content => { j with disk := update j.disk block content }

/-- The events of a flush, one after the other. -/
def Journal.cacheEvents (events : List CacheEvent) : Journal :=
  events.foldl (Journal.cacheEvent L) j

/-! ## Writing an entry -/

/-- `Journal::FreeLogBlocks()`, an `int32`. -/
def Journal.FreeLogBlocks : Int :=
  Int.bmod (if j.LogStart ≤ j.LogEnd then L.fLogSize - j.LogEnd + j.LogStart
    else j.LogStart - j.LogEnd) (2 ^ 32)

/-- `TransactionSize() > FreeLogBlocks()`; the comparison is one of `uint32`s. -/
def Journal.needsSpace (size : Nat) : Prop :=
  (size : Int) > j.FreeLogBlocks L % 2 ^ 32

end

instance (L : Log) (j : Journal) (size : Nat) : Decidable (j.needsSpace L size) :=
  inferInstanceAs (Decidable (_ > _))

/-- The loop that flushes the cache until the entry fits, at most `tries` times; `events` are the
events of each flush. It tells if there are tries left. -/
def Journal.makeSpace (L : Log) (size : Nat) : Nat → List (List CacheEvent) → Journal → Bool × Journal
  | 0, _, j => (false, j)
  | tries + 1, events, j =>
    if j.needsSpace L size then
      Journal.makeSpace L size tries events.tail (j.cacheEvents L (events.headD []))
    else (true, j)

/-- A call of `WriteLogEntry()`: the array with its memory behind the last value, the contents the
cache has for the blocks (`none`: they cannot be read), and what happens at its flushes. -/
structure LogCall where
  values : List Int
  beyond : Nat → Int
  contents : Int → Option Block
  /-- At the first `force_cache_flush()`. -/
  events : List CacheEvent
  /-- At those of the loop. -/
  spaceEvents : List (List CacheEvent)
  /-- At `FlushDevice()`. -/
  flushEvents : List CacheEvent

/-- The words of the array in memory. -/
def arrayMemory (values : List Int) (beyond : Nat → Int) : Nat → Int
  | 0 => values.length
  | i + 1 => (values[i]?).getD (beyond i)

/-- Writes the blocks from index `i` on of the array into the log; the next position. -/
def writeArray (L : Log) (memory : Nat → Int) : Nat → Nat → Nat → Disk → Nat × Disk
  | 0, _, logPosition, disk => (logPosition, disk)
  | size + 1, i, logPosition, disk =>
    writeArray L memory size (i + 1) ((logPosition + 1) % L.fLogSize)
      (update disk (L.logOffset + logPosition)
        (fun word => memory (i * L.valuesInBlock + word)))

/-- Writes the logged blocks into the log. It stops, with `false`, at one that cannot be read. -/
def writeLogged (L : Log) (contents : Int → Option Block) :
    List Int → Nat → Disk → Bool × Nat × Disk
  | [], logPosition, disk => (true, logPosition, disk)
  | value :: values, logPosition, disk =>
    match contents value with
    | none => (false, logPosition, disk)
    | some block =>
      writeLogged L contents values ((logPosition + 1) % L.fLogSize)
        (update disk (L.logOffset + logPosition) block)

section

variable (L : Log) (j : Journal) (call : LogCall)

/-- Both flushes at the start of `WriteLogEntry()`. -/
def Journal.flushForEntry : Bool × Journal :=
  (j.cacheEvents L call.events).makeSpace L (L.TransactionSize call.values.length)
    (L.fLogSize / 2 + 1) call.spaceEvents

/-- What `WriteLogEntry()` writes into the log: is it complete, the next position, the device. -/
def Journal.writeEntry : Bool × Nat × Disk :=
  let a := writeArray L (arrayMemory call.values call.beyond) (L.BlocksUsed call.values.length) 0
    (j.LogEnd % L.fLogSize) j.disk
  writeLogged L call.contents call.values a.1 a.2

/-- The new log entry becomes part of the list. -/
def Journal.addEntry (disk : Disk) : Journal :=
  let size := L.TransactionSize call.values.length
  { j with
    fUsed := (j.fUsed + toUint16 size) % 2 ^ 32
    fEntries := j.fEntries.add j.fresh
    entry := update j.entry j.fresh
      { start := toUint16 j.LogEnd
        length := toUint16 size
        cached_blocks := call.values.length % 2 ^ 32 }
    fresh := j.fresh + 1
    disk := disk }

end

/-- `WriteLogEntry()` moves the end of the log. -/
def Journal.moveEnd (j : Journal) (logPosition : Nat) : Journal :=
  Journal.WriteSuperBlock { j with
    superBlock := { j.superBlock with
      flags := .SUPER_BLOCK_DISK_DIRTY
      log_end := logPosition }
    LogEnd := logPosition }

/-- `Journal::WriteLogEntry()`. -/
def Journal.WriteLogEntry (L : Log) (j : Journal) (call : LogCall) : Status × Journal :=
  if call.values = [] then (.B_OK, j)
  else
    let space := j.flushForEntry L call
    if ¬ space.1 then (.B_BAD_DATA, space.2)
    else
      let logStart := space.2.LogEnd
      let w := space.2.writeEntry L call
      if ¬ w.1 then (.B_IO_ERROR, { space.2 with disk := w.2.2 })
      else
        let j := space.2.addEntry L call w.2.2
        -- if the log goes to the next round, all blocks will be flushed out
        let j := if w.2.1 < logStart then j.cacheEvents L call.flushEvents else j
        (.B_OK, j.moveEnd w.2.1)

/-! ## Replaying the log -/

/-- The device during the replay, and the blocks that have been read. -/
structure Replay where
  disk : Disk
  reads : List Int

/-- The inner loop of `ReplayLogEntry()`: the first argument is `valuesInBlock - index`. -/
def replayBlocks (L : Log) (array : Block) : Nat → Nat → Int → Nat → Replay → Int × Nat × Replay
  | 0, _, count, blockNumber, r => (count, blockNumber, r)
  | n + 1, index, count, blockNumber, r =>
    if count > 0 then
      let copy := r.disk (L.logOffset + blockNumber)
      replayBlocks L array n (index + 1) (count - 1) ((blockNumber + 1) % L.fLogSize)
        { disk := update r.disk (array index) copy
          reads := r.reads ++ [L.logOffset + blockNumber] }
    else (count - 1, blockNumber, r)

/-- `arrayBlock` of the next round. -/
def nextArrayBlock (L : Log) (arrayBlock : Int) : Int :=
  if arrayBlock + 1 > L.logOffset + L.fLogSize then L.logOffset else arrayBlock + 1

/-- The outer loop of `ReplayLogEntry()` from the second array block on. Each round lowers `count`,
so that it is not positive any more when the first argument, at first `count`, is used up. -/
def replayArrayBlocks (L : Log) : Nat → Int → Int → Int → Nat → Replay → Int × Replay
  | 0, _, start, _, _, r => (start, r)
  | n + 1, arrayBlock, start, count, blockNumber, r =>
    if count > 0 then
      let array := r.disk arrayBlock
      let inner := replayBlocks L array L.valuesInBlock 0 count blockNumber
        { r with reads := r.reads ++ [arrayBlock] }
      replayArrayBlocks L n (nextArrayBlock L arrayBlock) (start + 1) inner.1 inner.2.1 inner.2.2
    else (start, r)

/-- `Journal::ReplayLogEntry()`: the status, the new `start`, the device. -/
def ReplayLogEntry (L : Log) (start : Int) (r : Replay) : Status × Int × Replay :=
  let arrayBlock := start % 2 ^ 32 % L.fLogSize + L.logOffset
  let array := r.disk arrayBlock
  let r := { r with reads := r.reads ++ [arrayBlock] }
  let count := Int.bmod (array 0) (2 ^ 32)
  if count < 1 ∨ count ≥ L.fLogSize then (.B_BAD_DATA, start, r)
  else
    let numArrayBlocks := L.BlocksUsed count.toNat
    -- first real block in this log entry
    let blockNumber := ((start + numArrayBlocks) % 2 ^ 32 % L.fLogSize).toNat
    let inner := replayBlocks L array (L.valuesInBlock - 1) 1 count blockNumber r
    let rest := replayArrayBlocks L count.toNat (nextArrayBlock L arrayBlock) (start + count + 1)
      inner.1 inner.2.1 inner.2.2
    (.B_OK, rest.1, rest.2)

/-- The loop of `ReplayLog()`; nothing if it has not ended after that many rounds. -/
def replayLoop (L : Log) (logEnd : Int) : Nat → Int → Int → Replay → Option (Status × Replay)
  | 0, _, _, _ => none
  | rounds + 1, start, lastStart, r =>
    if start = logEnd then some (.B_OK, r)
    else if start = lastStart then some (.B_ERROR, r)
    else
      let entry := ReplayLogEntry L start r
      if entry.1 = .B_OK then
        replayLoop L logEnd rounds (entry.2.1 % 2 ^ 32 % L.fLogSize) start entry.2.2
      else some (.B_ERROR, entry.2.2)

/-- `Journal::ReplayLog()` on a device with this super block: the status, the super block it
leaves, the device and the blocks read. -/
def ReplayLog (L : Log) (rounds : Nat) (superBlock : SuperBlock) (disk : Disk) :
    Option (Status × SuperBlock × Replay) :=
  (replayLoop L superBlock.log_end rounds superBlock.log_start (-1) ⟨disk, []⟩).map fun r =>
    if r.1 = .B_OK then
      (.B_OK, { superBlock with
        log_start := superBlock.log_end
        flags := .SUPER_BLOCK_DISK_CLEAN }, r.2)
    else (r.1, superBlock, r.2)

end BFS
