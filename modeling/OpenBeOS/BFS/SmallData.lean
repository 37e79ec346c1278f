import OpenBeOS.BFS.Definitions
import OpenBeOS.Lib.Bytes

/-! # The small_data section

The attributes in the block of an inode: `AddSmallData()`, `RemoveSmallData()` and
`MakeSpaceForSmallData()`. A pointer is an offset into the block, whose size is the inode size. The
attribute directory is the list of its files.
-/

namespace BFS.SmallData

open Bytes

/-! ## Items in memory -/

/-- `sizeof(bfs_inode)`, the offset of `small_data_start`. -/
def sizeofInode : Nat := 232

/-- `FILE_NAME_NAME`, the only character of the name of the item with the file's name. -/
def FILE_NAME_NAME : UInt8 := 0x13

/-- `FILE_NAME_TYPE`, `'CSTR'`. -/
def FILE_NAME_TYPE : Nat := 0x43535452

def name_size (m : Buffer) (item : Nat) : Nat := load16 m (item + 4)

def data_size (m : Buffer) (item : Nat) : Nat := load16 m (item + 6)

/-- `small_data::Name()`. -/
def Name (item : Nat) : Nat := item + 8

/-- `small_data::Data()`. -/
def Data (m : Buffer) (item : Nat) : Nat := item + 8 + name_size m item + 3

/-- `small_data::Size()`. -/
def Size (m : Buffer) (item : Nat) : Nat := 8 + name_size m item + 3 + data_size m item + 1

/-- `small_data::Next()`. -/
def Next (m : Buffer) (item : Nat) : Nat := item + Size m item

/-- `small_data::IsLast()` in an inode of this size. -/
def IsLast (size : Nat) (m : Buffer) (item : Nat) : Bool := item > size - 8 || name_size m item = 0

/-- `!strcmp(m + p, name)`. -/
def strcmpEq (m : Buffer) : Nat → List UInt8 → Bool
  | p, [] => m p = 0
  | p, c :: name => m p = c && strcmpEq m (p + 1) name

/-- The C string at a place, of at most that many characters. -/
def stringAt (m : Buffer) : Nat → Nat → List UInt8
  | 0, _ => []
  | fuel + 1, p => if m p = 0 then [] else m p :: stringAt m fuel (p + 1)

/-- The bytes of a window. -/
def bytesAt (m : Buffer) (p n : Nat) : List UInt8 := (List.range n).map fun i => m (p + i)

/-- A list as a buffer. -/
def ofList (bytes : List UInt8) : Buffer := fun i => bytes.getD i 0

/-! ## Searching

Each item has more than eight bytes, so that the size of the inode is fuel enough. -/

/-- The loop that looks for the item with a name: the item, or the end of the list, and its index. -/
def findItem (size : Nat) (m : Buffer) (name : List UInt8) : Nat → Nat → Nat → Nat × Nat
  | 0, item, index => (item, index)
  | fuel + 1, item, index =>
    if ¬ IsLast size m item ∧ ¬ strcmpEq m (Name item) name then
      findItem size m name fuel (Next m item) (index + 1)
    else (item, index)

/-- The loop that looks for the end of the list, and its index. -/
def findLast (size : Nat) (m : Buffer) : Nat → Nat → Nat → Nat × Nat
  | 0, last, index => (last, index)
  | fuel + 1, last, index =>
    if ¬ IsLast size m last then findLast size m fuel (Next m last) (index + 1) else (last, index)

/-! ## Removing -/

/-- `Inode::RemoveSmallData(small_data *, int32)`, without the iterators. -/
def removeItem (size : Nat) (m : Buffer) (item : Nat) : Status × Buffer :=
  let next := Next m item
  if ¬ IsLast size m next then
    -- find the last attribute
    let last := (findLast size m size next 0).1
    let length : Int := (last : Int) - next
    if length < 0 ∨ length > (size : Int) - next then (.B_BAD_DATA, m)
    else
      let m := memmove m item next (last - next)
      let last := last - (next - item)
      (.B_OK, memset m last 0 (size - last))
  else (.B_OK, memset m item 0 (Size m item))

/-- An attribute file. -/
structure File where
  name : List UInt8
  type : Nat
  data : List UInt8
  deriving DecidableEq

/-- The block of an inode, its attribute files, and the changes the iterators have been told of:
the index of an item, and whether it was added or removed. -/
structure Inode where
  node : Buffer
  files : List File
  updates : List (Nat × Int)

/-- `Inode::RemoveSmallData(small_data *, int32)`. -/
def Inode.removeItem (size : Nat) (s : Inode) (item index : Nat) : Status × Inode :=
  let removed := SmallData.removeItem size s.node item
  if removed.1 = .B_OK then
    (.B_OK, { s with node := removed.2, updates := s.updates ++ [(index, -1)] })
  else (removed.1, s)

/-- `Inode::RemoveSmallData(Transaction *, const char *)`. -/
def Inode.RemoveSmallData (size : Nat) (s : Inode) (name : List UInt8) : Status × Inode :=
  let found := findItem size s.node name size sizeofInode 0
  if IsLast size s.node found.1 then (.B_ENTRY_NOT_FOUND, s)
  else s.removeItem size found.1 found.2

/-! ## Making space -/

/-- What `CreateAttribute()` and `WriteAt()` answer for an attribute file, and what is in the file if
it could not be written. -/
structure AttributeIO where
  create : List UInt8 → Status
  write : List UInt8 → Status
  partly : List UInt8 → List UInt8

/-- The loop that chooses the item to be moved: the item it stops at, and `max` with its index. -/
def victim (size : Nat) (m : Buffer) (name : List UInt8) (bytes : Int) :
    Nat → Nat → Nat → Option (Nat × Nat) → Nat × Option (Nat × Nat)
  | 0, item, _, max => (item, max)
  | fuel + 1, item, index, max =>
    if IsLast size m item then (item, max)
    -- should not remove those
    else if m (Name item) = FILE_NAME_NAME ∨ strcmpEq m (Name item) name then
      victim size m name bytes fuel (Next m item) (index + 1) max
    else
      let max := if max.all fun x => Size m x.1 < Size m item then some (item, index) else max
      -- remove the first one large enough to free the needed amount of bytes
      if bytes < Size m item then (item, max)
      else victim size m name bytes fuel (Next m item) (index + 1) max

/-- `WriteAt()` to the attribute file `CreateAttribute()` has opened, with this name and data. A file
that is already there is opened as it is, and written over. -/
def Inode.writeFile (s : Inode) (io : AttributeIO) (file : File) : Status × Inode :=
  let opened := (s.files.find? (·.name = file.name)).getD { file with data := [] }
  let others := s.files.filter (·.name ≠ file.name)
  if io.write file.name ≠ .B_OK then
    (io.write file.name, { s with files := { opened with data := io.partly file.name } :: others })
  else
    (.B_OK, { s with files :=
      { opened with data := file.data ++ opened.data.drop file.data.length } :: others })

/-- `Inode::MakeSpaceForSmallData()`; each round removes an item. The file that could not be written
is removed under the name for which there is room to be made. -/
def Inode.MakeSpaceForSmallData (size : Nat) (io : AttributeIO) (name : List UInt8) :
    Nat → Inode → Int → Status × Inode
  | 0, s, _ => (.B_OK, s)
  | fuel + 1, s, bytes =>
    if bytes > 0 then
      let chosen := victim size s.node name bytes size sizeofInode 0 none
      let item := chosen.1
      if IsLast size s.node item ∨ Size s.node item < bytes then (.B_ERROR, s)
      else
        match chosen.2 with
        | none => (.B_ERROR, s)
        | some (max, maxIndex) =>
          let file : File :=
            { name := stringAt s.node size (Name item)
              type := loadLE s.node item 4
              data := bytesAt s.node (Data s.node item) (data_size s.node item) }
          if io.create file.name ≠ .B_OK then (io.create file.name, s)
          else
            let written := s.writeFile io file
            if written.1 ≠ .B_OK then
              (written.1, { written.2 with files := written.2.files.filter (·.name ≠ name) })
            else Inode.MakeSpaceForSmallData size io name fuel
              (written.2.removeItem size max maxIndex).2 (bytes - Size s.node max)
    else (.B_OK, s)

/-! ## Adding -/

/-- The type, size and data of an item are written. -/
def putData (m : Buffer) (item type : Nat) (data : List UInt8) : Buffer :=
  let m := storeLE m item 4 type
  let m := store16 m (item + 6) data.length
  let m := memcpy m (Data m item) (ofList data) 0 data.length
  memset m (Data m item + data.length) 0 1

/-- The item gets other data, and those behind it move. -/
def replaceItem (size : Nat) (m : Buffer) (item last spaceNeeded type : Nat) (data : List UInt8) :
    Buffer :=
  let next := Next m item
  let moved := if IsLast size m next then m
    else memmove m (item + spaceNeeded) next (last - next)
  -- correctly terminate the small_data section
  let last := last + (item + spaceNeeded) - next
  let ended := if last < size then memset moved last 0 (size - last) else moved
  putData ended item type data

/-- A new item is written at the end of the list. -/
def appendItem (size : Nat) (m : Buffer) (item spaceNeeded type : Nat) (name data : List UInt8) :
    Buffer :=
  let m := memset m item 0 spaceNeeded
  let m := storeLE m item 4 type
  let m := store16 m (item + 4) name.length
  let m := store16 m (item + 6) data.length
  let m := memcpy m (Name item) (ofList name) 0 (name.length + 1)
  let m := memcpy m (Data m item) (ofList data) 0 data.length
  -- correctly terminate the small_data section
  if IsLast size m (Next m item) then m else memset m (Next m item) 0 (size - Next m item)

/-- `Inode::AddSmallData()` with this name and data. -/
def Inode.AddSmallData (size : Nat) (io : AttributeIO) (s : Inode) (name : List UInt8) (type : Nat)
    (data : List UInt8) (force : Bool) : Status × Inode :=
  if type = 0 then (.B_BAD_VALUE, s)
  else
    -- reject any requests that can't fit into the small_data section
    let spaceNeeded := (8 + name.length + 3 + data.length + 1) % 2 ^ 32
    if spaceNeeded > size - sizeofInode then (.B_DEVICE_FULL, s)
    else
      let found := findItem size s.node name size sizeofInode 0
      let item := found.1
      -- is the attribute already in the small_data section?
      if ¬ IsLast size s.node item then
        let last := (findLast size s.node size item 0).1
        let behind : Int := last + data.length - data_size s.node item
        if data_size s.node item > data.length ∨ force ∨ behind ≤ size then
          if force ∧ behind > size then
            -- request only what's really needed
            let needed : Int := data.length - data_size s.node item - (size - last)
            let made := s.MakeSpaceForSmallData size io name size needed
            if made.1 ≠ .B_OK then (.B_ERROR, made.2)
            else
              let item := (findItem size made.2.node name size sizeofInode 0).1
              let last := (findLast size made.2.node size item 0).1
              (.B_OK, { made.2 with
                node := replaceItem size made.2.node item last spaceNeeded type data })
          else
            (.B_OK, { s with node := replaceItem size s.node item last spaceNeeded type data })
        else
          -- could not replace the old attribute, so remove it
          let removed := s.removeItem size item found.2
          if removed.1 ≠ .B_OK then (.B_ERROR, removed.2) else (.B_DEVICE_FULL, removed.2)
      else if item + spaceNeeded > size then
        -- there is not enough space for it!
        if ¬ force then (.B_DEVICE_FULL, s)
        else
          let made := s.MakeSpaceForSmallData size io name size spaceNeeded
          if made.1 ≠ .B_OK then (.B_ERROR, made.2)
          else
            let last := findLast size made.2.node size sizeofInode 0
            (.B_OK, { made.2 with
              node := appendItem size made.2.node last.1 spaceNeeded type name data
              updates := made.2.updates ++ [(last.2, 1)] })
      else
        (.B_OK, { s with
          node := appendItem size s.node item spaceNeeded type name data
          updates := s.updates ++ [(found.2, 1)] })

/-- `Inode::SetName()`. -/
def Inode.SetName (size : Nat) (io : AttributeIO) (s : Inode) (name : List UInt8) : Status × Inode :=
  if name = [] then (.B_BAD_VALUE, s)
  else s.AddSmallData size io [FILE_NAME_NAME] FILE_NAME_TYPE name true

end BFS.SmallData
