import OpenBeOS.Lib.Bytes

/-! # The packed b+tree node (`BPlusTree.h`)

A node of the tree file is a block of `fNodeSize` bytes:

    off_t left_link, right_link, overflow_link; uint16 all_key_count, all_key_length;

followed by the bytes of the keys, the array of the keys' end positions (`KeyLengths()`,
`uint16`) and the array of the values (`Values()`, `off_t`). The arrays start at the first
multiple of eight behind the keys, so they move whenever the keys' total length changes.

`Packed node es` says that the bytes of `node` decode to the list of entries `es`.
-/

namespace BFS

open Bytes

/-! ## Layout -/

def BPLUSTREE_NULL : Int := -1
def BPLUSTREE_FREE : Int := -2
def BPLUSTREE_NODE_SIZE : Nat := 1024
def BPLUSTREE_MAX_KEY_LENGTH : Nat := 256
def BPLUSTREE_MIN_KEY_LENGTH : Nat := 1

/-- `sizeof(bplustree_node)`: three `off_t` (aligned to four bytes) and two `uint16`. -/
def sizeofNode : Nat := 28

/-- `round_up()` (`bfs.h`): the next multiple of `sizeof(off_t)`. -/
def round_up (data : Nat) : Nat := (data + 7) / 8 * 8

theorem le_round_up (data : Nat) : data ≤ round_up data := by unfold round_up; omega

theorem round_up_lt (data : Nat) : round_up data < data + 8 := by unfold round_up; omega

theorem round_up_mono {a b : Nat} (h : a ≤ b) : round_up a ≤ round_up b := by
  unfold round_up; omega

def left_link (node : Buffer) : Int := load64 node 0
def right_link (node : Buffer) : Int := load64 node 8
def overflow_link (node : Buffer) : Int := load64 node 16
def all_key_count (node : Buffer) : Nat := load16 node 24
def all_key_length (node : Buffer) : Nat := load16 node 26

def setLeftLink (node : Buffer) (link : Int) : Buffer := store64 node 0 link
def setRightLink (node : Buffer) (link : Int) : Buffer := store64 node 8 link
def setOverflowLink (node : Buffer) (link : Int) : Buffer := store64 node 16 link
def setAllKeyCount (node : Buffer) (count : Nat) : Buffer := store16 node 24 count
def setAllKeyLength (node : Buffer) (length : Nat) : Buffer := store16 node 26 length

/-- `Keys()`: the offset of the key bytes. -/
def keys : Nat := sizeofNode

section

variable (node : Buffer)

/-- `KeyLengths()`: the offset of the `uint16` array of key end positions. -/
def keyLengths : Nat := round_up (sizeofNode + all_key_length node)

/-- `Values()`: the offset of the `off_t` array of values. -/
def values : Nat := keyLengths node + all_key_count node * 2

/-- `Used()`. -/
def used : Nat :=
  round_up (sizeofNode + all_key_length node) + all_key_count node * (2 + 8)

def isLeaf : Bool := overflow_link node == BPLUSTREE_NULL

/-- `Initialize()`. -/
def initializeNode : Buffer :=
  setAllKeyLength (setAllKeyCount (setOverflowLink (setRightLink (setLeftLink node
    BPLUSTREE_NULL) BPLUSTREE_NULL) BPLUSTREE_NULL) 0) 0

/-- `KeyAt()`: offset and length of a key. No caller passes an index behind
`all_key_count`, where the source returns `NULL`. -/
def keyAt (index : Nat) : Nat × Nat :=
  let before := if index ≠ 0 then load16 node (keyLengths node + 2 * (index - 1)) else 0
  (keys + before, (load16 node (keyLengths node + 2 * index) + 2 ^ 16 - before) % 2 ^ 16)

/-- The bytes of the key at `index`. -/
def keyBytesAt (index : Nat) : List UInt8 :=
  (List.range (keyAt node index).2).map (fun i => node ((keyAt node index).1 + i))

/-- The value at `index`. -/
def valueAt (index : Nat) : Int := load64 node (values node + 8 * index)

end

/-! ## `InsertKey()` -/

/-- `for (uint16 i = node->all_key_count; i-- > index + 1;)
newKeyLengths[i] = keyLengths[i - 1] + keyLength;` -/
def insertKeyLoop (newKeyLengths keyLengths keyLength index : Nat) : Nat → Buffer → Buffer
  | 0, node => node
  | i + 1, node =>
    if i + 1 > index + 1 then
      insertKeyLoop newKeyLengths keyLengths keyLength index i
        (store16 node (newKeyLengths + 2 * i)
          (load16 node (keyLengths + 2 * (i - 1)) + keyLength))
    else node

/-- "move values and copy new value into them"; `count` is the number of old values. -/
def insertValue (node : Buffer) (newValues values index count : Nat) (value : Int) : Buffer :=
  let node := memmove node (newValues + 8 * (index + 1)) (values + 8 * index) (8 * (count - index))
  let node := memmove node newValues values (8 * index)
  store64 node (newValues + 8 * index) value

/-- "move and update key length index"; `count` is the number of new keys. The second
component is `keyStart`. -/
def insertKeyLength (node : Buffer) (newKeyLengths keyLengths index count keyLength : Nat) :
    Buffer × Nat :=
  let node := insertKeyLoop newKeyLengths keyLengths keyLength index count node
  let node := memmove node newKeyLengths keyLengths (2 * index)
  let keyStart := if index > 0 then load16 node (newKeyLengths + 2 * (index - 1)) else 0
  (store16 node (newKeyLengths + 2 * index) (keyLength + keyStart), keyStart)

/-- "move keys and copy new key into them". -/
def insertKeyBytes (node : Buffer) (keyEnd keyStart : Nat) (key : Buffer)
    (keyLength allKeyLength : Nat) : Buffer :=
  let node := memmove node (keys + keyEnd) (keys + keyEnd - keyLength) (allKeyLength - keyEnd)
  memcpy node (keys + keyStart) key 0 keyLength

def insertKey (node : Buffer) (index : Nat) (key : Buffer) (keyLength : Nat) (value : Int) :
    Buffer :=
  if index > all_key_count node then node
  else
    let values₀ := values node
    let keyLengths₀ := keyLengths node
    let node := setAllKeyCount node (all_key_count node + 1)
    let node := setAllKeyLength node (all_key_length node + keyLength)
    let newValues := values node
    let newKeyLengths := keyLengths node
    let node := insertValue node newValues values₀ index (all_key_count node - 1) value
    let (node, keyStart) :=
      insertKeyLength node newKeyLengths keyLengths₀ index (all_key_count node) keyLength
    insertKeyBytes node (load16 node (newKeyLengths + 2 * index)) keyStart key keyLength
      (all_key_length node)

/-! ## `RemoveKey()` -/

/-- `for (uint16 i = index; i < node->all_key_count; i++)
newKeyLengths[i] = keyLengths[i + 1] - length;` -/
def removeKeyLoop (newKeyLengths keyLengths length : Nat) : Nat → Nat → Buffer → Buffer
  | 0, _, node => node
  | n + 1, i, node =>
    removeKeyLoop newKeyLengths keyLengths length n (i + 1)
      (store16 node (newKeyLengths + 2 * i)
        (load16 node (keyLengths + 2 * (i + 1)) + 2 ^ 16 - length))

/-- "move and update key lengths"; `count` is the number of keys left. -/
def removeKeyLength (node : Buffer) (newKeyLengths keyLengths index count length : Nat) : Buffer :=
  let node := if index > 0 ∧ newKeyLengths ≠ keyLengths then
    memmove node newKeyLengths keyLengths (2 * index) else node
  removeKeyLoop newKeyLengths keyLengths length (count - index) index node

/-- "move values"; `count` is the number of keys left. -/
def removeValue (node : Buffer) (newValues values index count : Nat) : Buffer :=
  let node := if index > 0 then memmove node newValues values (8 * index) else node
  if count > index then
    memmove node (newValues + 8 * index) (values + 8 * (index + 1)) (8 * (count - index))
  else node

def removeKey (node : Buffer) (index : Nat) : Buffer :=
  if index > all_key_count node ∧ all_key_count node > 0 then node
  else
    let values₀ := values node
    -- if we would have to drop the overflow link, drop the last key instead
    let dropLast := !isLeaf node && index == all_key_count node
    let index := if dropLast then index - 1 else index
    let node := if dropLast then setOverflowLink node (load64 node (values₀ + 8 * index)) else node
    let (key, length) := keyAt node index
    if key + length + 8 + 2 > BPLUSTREE_NODE_SIZE ∨ length > BPLUSTREE_MAX_KEY_LENGTH then node
    else
      let keyLengths₀ := keyLengths node
      let node := setAllKeyCount node (all_key_count node - 1)
      let node := setAllKeyLength node (all_key_length node - length)
      let newValues := values node
      let newKeyLengths := keyLengths node
      -- move key data
      let node := memmove node key (key + length) (all_key_length node - (key - keys))
      let node := removeKeyLength node newKeyLengths keyLengths₀ index (all_key_count node) length
      removeValue node newValues values₀ index (all_key_count node)

end BFS
