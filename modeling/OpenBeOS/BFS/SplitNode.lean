import OpenBeOS.BFS.Packed
import OpenBeOS.BFS.Definitions

/-! # Splitting a node (`BPlusTree::SplitNode()`)

A full node is divided in place: its first half, possibly with the new key, moves to `other`,
and what is left is moved to the front. The new key and its value go where they belong; in an
index node one entry is dropped and handed to the parent instead.
-/

namespace BFS

open Bytes

/-! ## The first half -/

/-- The variables of the loop that looks for the number of keys of the new node. -/
structure Half where
  inn : Nat
  out : Nat
  bytes : Nat
  bytesBefore : Int
  bytesAfter : Int
  deriving DecidableEq

/-- One round of the loop; `lengthAt` is `inKeyLengths[]`. -/
def halfStep (lengthAt : Nat → Nat) (keyIndex keyLength : Nat) (s : Half) : Half :=
  let before : Int :=
    if s.bytes = 0 then (if s.inn > 0 then lengthAt (s.inn - 1) else 0) else s.bytesBefore
  if s.inn = keyIndex ∧ s.bytes = 0 then
    { s with bytesBefore := before, bytes := keyLength, out := s.out + 1 }
  else
    { s with
      bytesBefore := before
      bytesAfter := if keyIndex < s.out then lengthAt s.inn - before else s.bytesAfter
      inn := s.inn + 1
      out := s.out + 1 }

/-- The bytes the new node needs for the keys so far. -/
def Half.size (s : Half) : Nat :=
  round_up (sizeofNode + (s.bytesBefore + s.bytesAfter).toNat + s.bytes) + s.out * (2 + 8)

/-- The loop; `count` is `node->all_key_count`. -/
def halfLoop (lengthAt : Nat → Nat) (count keyIndex keyLength : Nat) : Nat → Half → Half
  | 0, s => s
  | fuel + 1, s =>
    if s.inn < count + 1 then
      let s := halfStep lengthAt keyIndex keyLength s
      -- have we found the number of keys in the new node?
      if s.size ≥ BPLUSTREE_NODE_SIZE / 2 then s
      else halfLoop lengthAt count keyIndex keyLength fuel s
    else s

/-- The first half, with the length of the keys that can be copied directly. -/
def firstHalf (node : Buffer) (keyIndex keyLength : Nat) : Half :=
  let lengthAt := fun i => load16 node (keyLengths node + 2 * i)
  let s := halfLoop lengthAt (all_key_count node) keyIndex keyLength (all_key_count node + 2)
    ⟨0, 0, 0, 0, 0⟩
  if keyIndex ≥ s.out ∧ s.inn > 0 then { s with bytesBefore := lengthAt (s.inn - 1) } else s

/-- `for (int32 i = 0;i < keys;i++)
outKeyLengths[keyIndex + i + 1] = inKeyLengths[keyIndex + i] + bytes;` -/
def copyLengths (outKeyLengths inKeyLengths keyIndex bytes : Nat) (node : Buffer) :
    Nat → Buffer → Buffer
  | 0, other => other
  | i + 1, other =>
    store16 (copyLengths outKeyLengths inKeyLengths keyIndex bytes node i other)
      (outKeyLengths + 2 * (keyIndex + i + 1))
      (load16 node (inKeyLengths + 2 * (keyIndex + i)) + bytes)

/-- "copy the keys" before the new one. -/
def copyBefore (node other : Buffer) (outKeyLengths outKeyValues keyCount bytesBefore : Nat) :
    Buffer :=
  let other := memcpy other keys node keys bytesBefore
  let other := memcpy other outKeyLengths node (keyLengths node) (keyCount * 2)
  memcpy other outKeyValues node (values node) (keyCount * 8)

/-- "copy the newly inserted key". -/
def copyNew (other : Buffer) (outKeyLengths outKeyValues keyIndex bytesBefore : Nat)
    (key : Buffer) (bytes : Nat) (value : Int) : Buffer :=
  let other := memcpy other (keys + bytesBefore) key 0 bytes
  let other := store16 other (outKeyLengths + 2 * keyIndex) (bytes + bytesBefore)
  store64 other (outKeyValues + 8 * keyIndex) value

/-- "copy the keys after the new key". -/
def copyAfter (node other : Buffer)
    (outKeyLengths outKeyValues keyIndex keyCount bytesBefore bytes bytesAfter : Nat) : Buffer :=
  let other := memcpy other (keys + bytesBefore + bytes) node (keys + bytesBefore) bytesAfter
  let other := copyLengths outKeyLengths (keyLengths node) keyIndex bytes node keyCount other
  memcpy other (outKeyValues + 8 * (keyIndex + 1)) node (values node + 8 * keyIndex)
    (keyCount * 8)

/-- The header of the new node. -/
def otherHeader (node : Buffer) (nodeOffset : Int) (other : Buffer) (length count : Nat) : Buffer :=
  let other := setLeftLink other (left_link node)
  let other := setRightLink other nodeOffset
  setAllKeyCount (setAllKeyLength other length) count

/-- The new node. -/
def fillOther (node : Buffer) (nodeOffset : Int) (other : Buffer) (s : Half) (keyIndex : Nat)
    (key : Buffer) (value : Int) : Buffer :=
  let bytesBefore := s.bytesBefore.toNat
  let bytesAfter := s.bytesAfter.toNat
  let other := otherHeader node nodeOffset other (s.bytes + bytesBefore + bytesAfter) s.out
  let outKeyLengths := keyLengths other
  let outKeyValues := values other
  let keyCount := if s.out > keyIndex then keyIndex else s.out
  let other := if bytesBefore ≠ 0 then
    copyBefore node other outKeyLengths outKeyValues keyCount bytesBefore else other
  if s.bytes ≠ 0 then
    let other := copyNew other outKeyLengths outKeyValues keyIndex bytesBefore key s.bytes value
    if bytesAfter ≠ 0 then
      copyAfter node other outKeyLengths outKeyValues keyIndex (s.out - keyIndex - 1) bytesBefore
        s.bytes bytesAfter
    else other
  else other

/-! ## The rest -/

/-- The variables of the loop over the rest of the keys. -/
structure Rest where
  inn : Nat
  out : Nat
  bytes : Nat
  bytesBefore : Int
  bytesAfter : Int
  node : Buffer

/-- One round of the loop; it changes the key lengths of the node to their new values. -/
def restStep (inKeyLengths count keyLength total skip : Nat) (keyIndex : Int) (s : Rest) : Rest :=
  if (s.inn : Int) = keyIndex ∧ s.bytes = 0 then
    { s with
      bytesBefore := if s.inn > skip then load16 s.node (inKeyLengths + 2 * (s.inn - 1)) else 0
      bytes := keyLength
      out := s.out + 1 }
  else if s.inn < count then
    let length := inKeyLengths + 2 * s.inn
    let node := store16 s.node length (load16 s.node length + 2 ^ 16 - total)
    if s.bytes ≠ 0 then
      let node := store16 node length (load16 node length + s.bytes)
      { s with
        node := node
        bytesAfter := load16 node length - s.bytesBefore - s.bytes
        inn := s.inn + 1
        out := s.out + 1 }
    else { s with node := node, inn := s.inn + 1, out := s.out + 1 }
  else { s with inn := s.inn + 1, out := s.out + 1 }

/-- The loop. -/
def restLoop (inKeyLengths count keyLength total skip : Nat) (keyIndex : Int) : Nat → Rest → Rest
  | 0, s => s
  | fuel + 1, s =>
    if s.inn < count + 1 then
      let s := restStep inKeyLengths count keyLength total skip keyIndex s
      -- break out when all keys are done
      if s.inn > count ∧ keyIndex < s.inn then s
      else restLoop inKeyLengths count keyLength total skip keyIndex fuel s
    else s

/-- "adjust the byte counts (since we were a bit lazy in the loop)". -/
def adjustCounts (s : Rest) (inKeyLengths total skip : Nat) (keyIndex : Int) : Rest :=
  if keyIndex ≥ s.inn ∧ keyIndex - skip < s.out then
    { s with bytesAfter := load16 s.node (inKeyLengths + 2 * s.inn) - s.bytesBefore - total }
  else if keyIndex < skip then { s with bytesBefore := (all_key_length s.node : Int) - total }
  else s

/-- The new header of the node; "right link, and overflow link can stay the same". -/
def restHeader (node : Buffer) (otherOffset : Int) (length count : Nat) : Buffer :=
  setAllKeyCount (setAllKeyLength (setLeftLink node otherOffset) length) count

/-- Move what is before the new key, and what is behind it. -/
def movePair (node : Buffer) (bytesBefore bytesAfter : Nat)
    (out inn count out' inn' count' : Nat) : Buffer :=
  let node := if bytesBefore ≠ 0 then memmove node out inn count else node
  if bytesAfter ≠ 0 then memmove node out' inn' count' else node

/-- "move the keys in the old node: the order is important here, because we don't want to
overwrite any contents": the keys, the key lengths, the values. -/
def moveArrays (node : Buffer) (bytes bytesBefore bytesAfter : Nat)
    (outKeyLengths outKeyValues inKeyLengths inKeyValues total skip keyCount inn index : Nat) :
    Buffer :=
  let node := movePair node bytesBefore bytesAfter keys (keys + total) bytesBefore
    (keys + bytesBefore + bytes) (keys + total + bytesBefore) bytesAfter
  let node := movePair node bytesBefore bytesAfter outKeyLengths (inKeyLengths + 2 * skip)
    (2 * keyCount) (outKeyLengths + 2 * index + 2) (inKeyLengths + 2 * skip + 2 * index) (2 * inn)
  movePair node bytesBefore bytesAfter outKeyValues (inKeyValues + 8 * skip)
    (8 * keyCount) (outKeyValues + 8 * index + 8) (inKeyValues + 8 * skip + 8 * index) (8 * inn)

/-- The node after the loop: its header, the moved arrays and the new key. -/
def moveRest (s : Rest) (inKeyLengths inKeyValues total skip : Nat) (keyIndex : Int)
    (otherOffset : Int) (key : Buffer) (value : Int) : Buffer :=
  let bytesBefore := s.bytesBefore.toNat
  let bytesAfter := s.bytesAfter.toNat
  let node := restHeader s.node otherOffset (s.bytes + bytesBefore + bytesAfter) (s.out - 1)
  let outKeyLengths := keyLengths node
  let outKeyValues := values node
  let keyCount := if keyIndex ≤ skip then s.out else (keyIndex - skip).toNat
  let inn := (s.out - (keyIndex - skip) - 1).toNat
  let index := (keyIndex - skip).toNat
  let node := moveArrays node s.bytes bytesBefore bytesAfter outKeyLengths outKeyValues
    inKeyLengths inKeyValues total skip keyCount inn index
  if s.bytes ≠ 0 then copyNew node outKeyLengths outKeyValues index bytesBefore key s.bytes value
  else node

/-! ## SplitNode -/

/-- What `SplitNode()` leaves behind: the two nodes, and the key and value for the parent. -/
structure SplitResult where
  status : Status
  node : Buffer
  other : Buffer
  key : Buffer
  keyLength : Nat
  value : Int

/-- The key that will be inserted in the parent node: the dropped key, or the last of the other
node. -/
def parentKey (other : Buffer) (newKey : Option (Buffer × Nat)) : Buffer × Nat :=
  newKey.getD
    (let (start, length) := keyAt other (all_key_count other - 1)
     (fun i => other (start + i), length))

/-- The part of `SplitNode()` behind the new node: the rest of the keys. `newKey` is the key that
was dropped, if any. -/
def splitRest (node other : Buffer) (otherOffset : Int) (skip total : Nat) (keyIndex : Int)
    (key : Buffer) (keyLength : Nat) (value : Int) (newKey : Option (Buffer × Nat)) :
    SplitResult :=
  let s := restLoop (keyLengths node) (all_key_count node) keyLength total skip keyIndex
    (all_key_count node + 2) ⟨skip, 0, 0, 0, 0, node⟩
  let s := adjustCounts s (keyLengths node) total skip keyIndex
  if s.bytesBefore < 0 ∨ s.bytesAfter < 0 then ⟨.B_BAD_DATA, s.node, other, key, keyLength, value⟩
  else
    let node := moveRest s (keyLengths node) (values node) total skip keyIndex otherOffset key value
    let (newKey, newLength) := parentKey other newKey
    ⟨.B_OK, node, other, memcpy key 0 newKey 0 newLength, newLength, otherOffset⟩

/-- `BPlusTree::SplitNode()`. -/
def SplitNode (node : Buffer) (nodeOffset : Int) (other : Buffer) (otherOffset : Int)
    (keyIndex : Nat) (key : Buffer) (keyLength : Nat) (value : Int) : SplitResult :=
  if keyIndex > all_key_count node + 1 then ⟨.B_BAD_VALUE, node, other, key, keyLength, value⟩
  else
    let s := firstHalf node keyIndex keyLength
    if s.bytesBefore < 0 ∨ s.bytesAfter < 0 then
      ⟨.B_BAD_DATA, node, other, key, keyLength, value⟩
    else
      let other := fillOther node nodeOffset other s keyIndex key value
      -- if the new key was already inserted, we shouldn't use it again
      let keyIndex : Int := if s.inn ≠ s.out then (keyIndex : Int) - 1 else keyIndex
      let total := (s.bytesBefore + s.bytesAfter).toNat
      if overflow_link node ≠ BPLUSTREE_NULL then
        if (s.inn : Int) = keyIndex then
          let other := setOverflowLink other value
          splitRest node other otherOffset s.inn total (keyIndex - 1) key keyLength value
            (some (key, keyLength))
        else
          let (droppedKey, newLength) := keyAt node s.inn
          if droppedKey + newLength + 8 + 2 > BPLUSTREE_NODE_SIZE ∨
              newLength > BPLUSTREE_MAX_KEY_LENGTH then
            ⟨.B_BAD_DATA, node, other, key, keyLength, value⟩
          else
            let other := setOverflowLink other (load64 node (values node + 8 * s.inn))
            splitRest node other otherOffset (s.inn + 1)
              (load16 node (keyLengths node + 2 * s.inn)) keyIndex key keyLength value
              (some (fun i => node (droppedKey + i), newLength))
      else
        splitRest node other otherOffset s.inn total keyIndex key keyLength value none

end BFS
