import OpenBeOS.Lib.Walk
import OpenBeOS.BFS.KeyOrder
import OpenBeOS.BFS.FindKey

/-! # Following the links of a tree (`BPlusTree.cpp`)

The loops that go from node to node of a tree whose file may hold anything: the descents to a leaf,
the search through the duplicate nodes of a key, and the step to the next leaf. What is read from
the file is a parameter (`node`), and so are the header's fields. A descent notices a node that
points to itself, but no longer cycle; it comes to an end exactly when there is none in its way.
-/

namespace BFS

open Bytes Walk

/-! ## The tree -/

/-- A variable of this type. -/
abbrev off_t : Type := {v : Int // IsInt64 v}

instance : Finite off_t := (Set.finite_Ico (-2 ^ 63 : Int) (2 ^ 63)).to_subtype

/-- The `off_t` at `a`. -/
@[irreducible] def loadOff (m : Buffer) (a : Nat) : off_t := ⟨load64 m a, isInt64_load64 m a⟩

@[simp] theorem loadOff_val (m : Buffer) (a : Nat) : (loadOff m a).1 = load64 m a := by
  simp only [loadOff]

/-- The tree: what the walks use of its header, and the nodes the stream holds at the offsets that
can be read. -/
structure BPlusTree where
  fNodeSize : Nat
  fAllowDuplicates : Bool
  data_type : KeyType
  root_node_pointer : off_t
  maximum_size : off_t
  node : off_t → Option Buffer

/-- `bplustree_header::IsValidLink()` -/
def BPlusTree.IsValidLink (t : BPlusTree) (link : Int) : Bool :=
  link = BPLUSTREE_NULL ∨ (link > 0 ∧ link ≤ t.maximum_size.1 - t.fNodeSize)

/-- `CachedNode::SetTo()` -/
def BPlusTree.SetTo (t : BPlusTree) (offset : off_t) (check : Bool) : Option Buffer :=
  if offset.1 > t.maximum_size.1 - t.fNodeSize ∨ offset.1 ≤ 0 ∨ offset.1 % t.fNodeSize ≠ 0 then none
  else
    match t.node offset with
    | none => none
    | some fNode =>
      if check = true ∧ (t.IsValidLink (left_link fNode) = false ∨
          t.IsValidLink (right_link fNode) = false ∨
          t.IsValidLink (overflow_link fNode) = false ∨
          values fNode + all_key_count fNode * 8 > t.fNodeSize) then none
      else some fNode

/-- The comparison with the key at `i` in the node's memory; `none` stands for the panic about a
bad key. -/
def BPlusTree.probeKey (t : BPlusTree) (node : Buffer) (key : KeyRef) (i : Nat) : Option Int :=
  let (searchKey, searchLength) := keyAt node i
  if searchKey + searchLength + 8 + 2 > t.fNodeSize ∨ searchLength > BPLUSTREE_MAX_KEY_LENGTH then
    none
  else some (compareKeysAt t.data_type key ⟨fun j => node (searchKey + j), searchLength⟩)

/-- `FindKey()`: the status, and the caller's variables `index` and `next`, which keep their values
when a key is bad. -/
def BPlusTree.FindKey (t : BPlusTree) (node : Buffer) (key : KeyRef) (index : Nat) (next : off_t) :
    Status × Nat × off_t :=
  if all_key_count node = 0 then (.B_ENTRY_NOT_FOUND, 0, loadOff node 16)
  else
    match Bisect.search (t.probeKey node key) (all_key_count node) 0 (all_key_count node) 0 with
    | .failed => (.B_BAD_DATA, index, next)
    | .found i => (.B_OK, i, loadOff node (values node + 8 * i))
    | .absent i =>
      (.B_ENTRY_NOT_FOUND, i,
        if i = all_key_count node then loadOff node 16 else loadOff node (values node + 8 * i))

/-! ## The descents -/

/-- The variables `nodeOffset` and `nextOffset` of a descent. -/
abbrev Descent : Type := off_t × off_t

/-- A round of `BPlusTree::Find()`: the status and `*_value`. -/
def BPlusTree.findStep (t : BPlusTree) (key : KeyRef) (s : Descent) :
    (Status × Option Int) ⊕ Descent :=
  match t.SetTo s.1 true with
  | none => .inl (.B_ERROR, none)
  | some node =>
    let (status, keyIndex, nextOffset) := t.FindKey node key 0 s.2
    if overflow_link node = BPLUSTREE_NULL then
      .inl (status, if status = .B_OK then some (valueAt node keyIndex) else none)
    else if nextOffset = s.1 then .inl (.B_ERROR, none)
    else .inr (nextOffset, nextOffset)

/-- A round of `BPlusTree::Replace()`: the status, and the node that is written. -/
def BPlusTree.replaceStep (t : BPlusTree) (key : KeyRef) (value : off_t) (writeBack : Status)
    (s : Descent) : (Status × Option (off_t × Buffer)) ⊕ Descent :=
  match t.SetTo s.1 true with
  | none => .inl (.B_ERROR, none)
  | some node =>
    let (status, keyIndex, nextOffset) := t.FindKey node key 0 s.2
    if overflow_link node = BPLUSTREE_NULL then
      if status = .B_OK then
        .inl (writeBack, some (s.1, store64 node (values node + 8 * keyIndex) value.1))
      else .inl (status, none)
    else if nextOffset = s.1 then .inl (.B_ERROR, none)
    else .inr (nextOffset, nextOffset)

/-- A round of `TreeIterator::Find()`: the status, `fCurrentNodeOffset` and `fCurrentKey`. -/
def BPlusTree.iteratorFindStep (t : BPlusTree) (key : KeyRef) (s : Descent) :
    (Status × Option (off_t × Int)) ⊕ Descent :=
  match t.SetTo s.1 true with
  | none => .inl (.B_ERROR, none)
  | some node =>
    let (status, keyIndex, nextOffset) := t.FindKey node key 0 s.2
    if overflow_link node = BPLUSTREE_NULL then .inl (status, some (s.1, (keyIndex : Int) - 1))
    else if nextOffset = s.1 then .inl (.B_ERROR, none)
    else .inr (nextOffset, nextOffset)

/-- `node_and_key` -/
structure NodeAndKey where
  nodeOffset : off_t
  keyIndex : Nat

/-- The state of `SeekDown()`: the stack, and the variables `nodeAndKey` and `nextOffset`. -/
structure Seek where
  stack : List NodeAndKey
  nodeAndKey : NodeAndKey
  nextOffset : off_t

/-- A round of `BPlusTree::SeekDown()`: the status and the stack. -/
def BPlusTree.seekDownStep (t : BPlusTree) (key : KeyRef) (s : Seek) :
    (Status × List NodeAndKey) ⊕ Seek :=
  match t.SetTo s.nodeAndKey.nodeOffset true with
  | none => .inl (.B_ERROR, s.stack)
  | some node =>
    if overflow_link node = BPLUSTREE_NULL then
      .inl (.B_OK, ⟨s.nodeAndKey.nodeOffset, 0⟩ :: s.stack)
    else
      let (status, keyIndex, nextOffset) := t.FindKey node key s.nodeAndKey.keyIndex s.nextOffset
      if status = .B_ENTRY_NOT_FOUND ∧ nextOffset = s.nodeAndKey.nodeOffset then
        .inl (.B_ERROR, s.stack)
      else
        .inr ⟨⟨s.nodeAndKey.nodeOffset, keyIndex⟩ :: s.stack, ⟨nextOffset, keyIndex⟩, nextOffset⟩

/-- `BPLUSTREE_BEGIN` and `BPLUSTREE_END`. -/
inductive To where
  | begin
  | last

/-- A round of `TreeIterator::Goto()`: the status, `fCurrentNodeOffset` and `fCurrentKey`. -/
def BPlusTree.gotoStep (t : BPlusTree) (goal : To) (nodeOffset : off_t) :
    (Status × Option (off_t × Int)) ⊕ off_t :=
  match t.SetTo nodeOffset true with
  | none => .inl (.B_ERROR, none)
  | some node =>
    if overflow_link node = BPLUSTREE_NULL then
      .inl (.B_OK, some (nodeOffset,
        match goal with
        | .begin => -1
        | .last => all_key_count node))
    else
      match goal with
      | .last =>
        if loadOff node 16 = nodeOffset then .inl (.B_ERROR, none) else .inr (loadOff node 16)
      | .begin =>
        if all_key_count node = 0 then
          if loadOff node 16 = nodeOffset then .inl (.B_ERROR, none) else .inr (loadOff node 16)
        else if all_key_length node > t.fNodeSize ∨
            (values node : Int) > t.fNodeSize - 8 * all_key_count node then
          .inl (.B_ERROR, none)
        else if loadOff node (values node) = nodeOffset then .inl (.B_ERROR, none)
        else .inr (loadOff node (values node))

/-! ## The duplicate nodes of a key -/

def NUM_FRAGMENT_VALUES : Int := 7
def NUM_DUPLICATE_VALUES : Int := 125

/-- `bplustree_node::FragmentOffset()` -/
def FragmentOffset (link : off_t) : off_t :=
  ⟨((toPattern link.1 % 2 ^ 62 / 1024 * 1024 : Nat) : Int), by unfold IsInt64; omega⟩

/-- `DuplicateArray()->count`: the array lies at the overflow link. -/
def duplicateCount (node : Buffer) : Int := load64 node 16

/-- `DuplicateArray()->values[i]` -/
def duplicateValue (node : Buffer) (i : Nat) : Int := load64 node (24 + 8 * i)

/-- `sorted_array::FindInternal()` between `min` and `max` (exclusive); the difference that is
compared with 0 is an `off_t`. -/
def findValue (node : Buffer) (value : off_t) : Nat → Nat → Nat → Bool
  | 0, _, _ => false
  | fuel + 1, min, max =>
    if min < max then
      let index := (min + max - 1) / 2
      let cmp := toSigned (toPattern (duplicateValue node index - value.1))
      if cmp < 0 then findValue node value fuel (index + 1) max
      else if cmp > 0 then findValue node value fuel min index
      else true
    else false

/-- A round of the search for space in `InsertDuplicate()`: the status, and the node that has space
or is the last. The state is the link that is followed. -/
def BPlusTree.insertDuplicateStep (t : BPlusTree) (oldValue : off_t) :
    (Status × Option off_t) ⊕ off_t :=
  match t.SetTo (FragmentOffset oldValue) false with
  | none => .inl (.B_IO_ERROR, none)
  | some duplicate =>
    if duplicateCount duplicate > NUM_DUPLICATE_VALUES ∨ duplicateCount duplicate < 0 then
      .inl (.B_BAD_DATA, none)
    else if duplicateCount duplicate ≥ NUM_DUPLICATE_VALUES ∧
        right_link duplicate ≠ BPLUSTREE_NULL then .inr (loadOff duplicate 8)
    else .inl (.B_OK, some (FragmentOffset oldValue))

/-- A round of the search for the value in `RemoveDuplicate()`: the status, and the node that
holds it. -/
def BPlusTree.removeDuplicateStep (t : BPlusTree) (value duplicateOffset : off_t) :
    (Status × Option off_t) ⊕ off_t :=
  match t.SetTo duplicateOffset false with
  | none => .inl (.B_IO_ERROR, none)
  | some duplicate =>
    if duplicateCount duplicate > NUM_DUPLICATE_VALUES ∨ duplicateCount duplicate < 0 then
      .inl (.B_BAD_DATA, none)
    else if findValue duplicate value (duplicateCount duplicate).toNat 0
        (duplicateCount duplicate).toNat then .inl (.B_OK, some duplicateOffset)
    else if right_link duplicate = BPLUSTREE_NULL then .inl (.B_ENTRY_NOT_FOUND, none)
    else .inr (loadOff duplicate 8)

/-- The node `RemoveDuplicate()` has taken the value from, and `array->count`. -/
structure Unlink where
  duplicateOffset : off_t
  duplicate : Buffer
  count : Int

/-- What the writes of `RemoveDuplicate()` answer, the nodes that can be read behind `Free()`, and
what the counter in the freed node is then. -/
structure UnlinkIO where
  writeBack : Status
  free : Status
  duplicateWriteBack : Status
  convert : Status
  after : BPlusTree
  stale : Int

/-- The part of a round that looks at the right neighbour of a freed node. -/
def unlinkRight (io : UnlinkIO) (left right : off_t) (status : Status) : Status ⊕ Unlink :=
  if right.1 = BPLUSTREE_NULL then .inl status
  else
    match io.after.SetTo right false with
    | none => .inl status
    | some node =>
      let duplicate := setLeftLink node left.1
      if left.1 = BPLUSTREE_NULL ∧ right_link duplicate = BPLUSTREE_NULL ∧
          duplicateCount duplicate ≤ NUM_FRAGMENT_VALUES then
        .inr ⟨right, duplicate, duplicateCount duplicate⟩
      else .inl io.duplicateWriteBack

/-- A round of the second loop of `RemoveDuplicate()`, which frees the node when it is empty and
looks at its neighbours. -/
def unlinkStep (io : UnlinkIO) (oldValue : off_t) (s : Unlink) : Status ⊕ Unlink :=
  let left := loadOff s.duplicate 0
  let right := loadOff s.duplicate 8
  let isLast := left.1 = BPLUSTREE_NULL ∧ right.1 = BPLUSTREE_NULL
  if (isLast ∧ s.count = 1) ∨ s.count = 0 then
    if (s.duplicateOffset = FragmentOffset oldValue ∨ s.count = 1) ∧ io.writeBack ≠ .B_OK then
      .inl io.writeBack
    else if io.free ≠ .B_OK then .inl io.free
    else if left.1 = BPLUSTREE_NULL then unlinkRight io left right .B_OK
    else
      match io.after.SetTo left false with
      | none => unlinkRight io left right .B_OK
      | some node =>
        let duplicate := setRightLink node right.1
        if right.1 = BPLUSTREE_NULL ∧ left_link duplicate = BPLUSTREE_NULL ∧
            duplicateCount duplicate ≤ NUM_FRAGMENT_VALUES then
          .inr ⟨left, duplicate, io.stale⟩
        else if io.duplicateWriteBack ≠ .B_OK then .inl io.duplicateWriteBack
        else unlinkRight io left right io.duplicateWriteBack
  else if isLast ∧ s.count ≤ NUM_FRAGMENT_VALUES then .inl io.convert
  else .inl io.duplicateWriteBack

/-! ## The next leaf -/

/-- `BPLUSTREE_FORWARD` and `BPLUSTREE_BACKWARD`. -/
inductive Direction where
  | forward
  | backward

/-- A round of the loop of `TreeIterator::Traverse()` that looks for a node with a current key:
the status, `fCurrentNodeOffset` and `fCurrentKey`. -/
def BPlusTree.traverseStep (t : BPlusTree) (direction : Direction) (saved : off_t)
    (s : off_t × Int) : (Status × off_t × Int) ⊕ (off_t × Int) :=
  match t.SetTo s.1 true with
  | none => .inl (.B_ERROR, s)
  | some node =>
    match direction with
    | .forward =>
      if s.2 ≥ all_key_count node then
        if right_link node ≠ BPLUSTREE_NULL then .inr (loadOff node 8, 0)
        else .inl (.B_ENTRY_NOT_FOUND, saved, all_key_count node)
      else .inl (.B_OK, s)
    | .backward =>
      if s.2 < 0 then
        if left_link node ≠ BPLUSTREE_NULL then
          match t.SetTo (loadOff node 0) true with
          | none => .inl (.B_ERROR, loadOff node 0, s.2)
          | some other => .inr (loadOff node 0, all_key_count other)
        else .inl (.B_ENTRY_NOT_FOUND, saved, -1)
      else .inl (.B_OK, s)

/-! ## The functions -/

/-- `keyLength < BPLUSTREE_MIN_KEY_LENGTH || keyLength > BPLUSTREE_MAX_KEY_LENGTH` -/
def badKeyLength (key : KeyRef) : Bool :=
  key.length < BPLUSTREE_MIN_KEY_LENGTH ∨ key.length > BPLUSTREE_MAX_KEY_LENGTH

section

variable (t : BPlusTree) (key : KeyRef)

/-- `BPlusTree::Find()`, if it returns within the given number of rounds; `next` is what the
variable `nextOffset` holds before it is set. -/
def BPlusTree.Find (next : off_t) (rounds : Nat) :
    Option (Status × Option Int) :=
  if badKeyLength key then some (.B_BAD_VALUE, none)
  else if t.fAllowDuplicates then some (.B_BAD_TYPE, none)
  else run (t.findStep key) rounds (t.root_node_pointer, next)

/-- `BPlusTree::Replace()` -/
def BPlusTree.Replace (value : off_t) (writeBack : Status)
    (next : off_t) (rounds : Nat) : Option (Status × Option (off_t × Buffer)) :=
  if badKeyLength key then some (.B_BAD_VALUE, none)
  else if t.fAllowDuplicates then some (.B_BAD_TYPE, none)
  else run (t.replaceStep key value writeBack) rounds (t.root_node_pointer, next)

/-- `TreeIterator::Find()` -/
def BPlusTree.IteratorFind (next : off_t) (rounds : Nat) :
    Option (Status × Option (off_t × Int)) :=
  if badKeyLength key then some (.B_BAD_VALUE, none)
  else run (t.iteratorFindStep key) rounds (t.root_node_pointer, next)

/-- `BPlusTree::SeekDown()`, with what `keyIndex` and `nextOffset` hold before they are set. -/
def BPlusTree.SeekDown (index : Nat) (next : off_t) (rounds : Nat) :
    Option (Status × List NodeAndKey) :=
  run (t.seekDownStep key) rounds ⟨[], ⟨t.root_node_pointer, index⟩, next⟩

end

/-- `TreeIterator::Goto()` -/
def BPlusTree.Goto (t : BPlusTree) (goal : To) (rounds : Nat) :
    Option (Status × Option (off_t × Int)) :=
  run (t.gotoStep goal) rounds t.root_node_pointer

/-- The descent of `SeekDown()` without its stack. -/
def BPlusTree.seekStep (t : BPlusTree) (key : KeyRef) (s : Descent) : Unit ⊕ Descent :=
  (t.seekDownStep key ⟨[], ⟨s.1, 0⟩, s.2⟩).map (fun _ => ())
    fun s' => (s'.nodeAndKey.nodeOffset, s'.nextOffset)

/-! ## When they return -/

theorem returns_iff_of_finite {σ ρ : Type} [Finite σ] (step : σ → ρ ⊕ σ) (s : σ) :
    Returns step s ↔ ¬Cycles step s :=
  returns_iff_not_cycles Set.finite_univ (fun _ _ _ => Set.mem_univ _) s

theorem guarded_returns_iff {σ ρ : Type} {step : σ → ρ ⊕ σ} {s : σ} {f : Nat → Option ρ}
    (refused : Prop) (hrefused : refused → ∃ n r, f n = some r)
    (hrun : ¬refused → ∀ n, f n = run step n s) (hstep : Returns step s ↔ ¬Cycles step s) :
    (∃ n r, f n = some r) ↔ ¬(¬refused ∧ Cycles step s) := by
  rcases Classical.em refused with h | h
  · exact ⟨fun _ hcycles => hcycles.1 h, fun _ => hrefused h⟩
  · simp only [hrun h]
    exact hstep.trans (by tauto)

theorem BPlusTree.FindKey_index (t : BPlusTree) (node : Buffer) (key : KeyRef) (i j : Nat)
    (next : off_t) :
    (t.FindKey node key i next).1 = (t.FindKey node key j next).1 ∧
      (t.FindKey node key i next).2.2 = (t.FindKey node key j next).2.2 := by
  unfold FindKey
  split
  · exact ⟨rfl, rfl⟩
  · cases Bisect.search (t.probeKey node key) (all_key_count node) 0 (all_key_count node) 0 with
    | failed | found k | absent k => exact ⟨rfl, rfl⟩

theorem BPlusTree.seekDown_tracks (t : BPlusTree) (key : KeyRef) :
    Tracks (fun s : Seek => (s.nodeAndKey.nodeOffset, s.nextOffset)) (t.seekDownStep key)
      (t.seekStep key) := by
  intro s
  unfold seekStep seekDownStep
  cases t.SetTo s.nodeAndKey.nodeOffset true with
  | none => exact ⟨(), rfl⟩
  | some node =>
    obtain ⟨hstatus, hnext⟩ := t.FindKey_index node key s.nodeAndKey.keyIndex 0 s.nextOffset
    obtain hleaf | hleaf := Decidable.em (overflow_link node = BPLUSTREE_NULL)
    · simp only [if_pos hleaf, Sum.map_inl]
      exact ⟨(), trivial⟩
    · simp only [if_neg hleaf, hstatus, hnext]
      by_cases hself : (t.FindKey node key 0 s.nextOffset).1 = .B_ENTRY_NOT_FOUND ∧
          (t.FindKey node key 0 s.nextOffset).2.2 = s.nodeAndKey.nodeOffset
      · simp only [if_pos hself, Sum.map_inl]
        exact ⟨(), trivial⟩
      · simp only [if_neg hself, Sum.map_inr]

theorem BPlusTree.traverse_forward_iff (t : BPlusTree) (saved : off_t) (s : off_t × Int) :
    Returns (t.traverseStep .forward saved) s ↔ ¬Cycles (t.traverseStep .forward saved) s := by
  have hfin : (Set.univ ×ˢ {0} : Set (off_t × Int)).Finite :=
    Set.finite_univ.prod (Set.finite_singleton 0)
  refine returns_iff_not_cycles hfin ?_ s
  intro u v hnext
  unfold Next traverseStep at hnext
  split at hnext
  · exact absurd hnext Sum.inl_ne_inr
  · simp only at hnext
    split at hnext
    · split at hnext
      · cases hnext
        exact ⟨Set.mem_univ _, rfl⟩
      · exact absurd hnext Sum.inl_ne_inr
    · exact absurd hnext Sum.inl_ne_inr

/-- Backwards the first node found is good: its current key is not below 0. -/
theorem BPlusTree.traverse_backward_returns (t : BPlusTree) (saved : off_t) (s : off_t × Int) :
    Returns (t.traverseStep .backward saved) s := by
  have hstop : ∀ (offset : off_t) (count : Nat),
      Returns (t.traverseStep .backward saved) (offset, (count : Int)) := by
    intro offset count
    cases hnode : t.SetTo offset true with
    | none => exact .of_inl (by simp only [traverseStep, hnode]; rfl)
    | some node =>
      refine .of_inl (r := (.B_OK, offset, (count : Int))) ?_
      simp only [traverseStep, hnode]
      rw [if_neg (by omega)]
  cases hstep : t.traverseStep .backward saved s with
  | inl r => exact .of_inl hstep
  | inr s' =>
    have hkey : ∃ offset count, s' = (offset, ((count : Nat) : Int)) := by
      unfold traverseStep at hstep
      simp only at hstep
      split at hstep
      · exact absurd hstep Sum.inl_ne_inr
      · split at hstep
        · split at hstep
          · split at hstep
            · exact absurd hstep Sum.inl_ne_inr
            · exact ⟨_, _, (Sum.inr.inj hstep).symm⟩
          · exact absurd hstep Sum.inl_ne_inr
        · exact absurd hstep Sum.inl_ne_inr
    obtain ⟨offset, count, rfl⟩ := hkey
    exact (returns_next_iff hstep).2 (hstop offset count)

theorem unlink_returns_of_last (io : UnlinkIO) (oldValue : off_t) {s : Unlink}
    (hleft : left_link s.duplicate = BPLUSTREE_NULL)
    (hright : right_link s.duplicate = BPLUSTREE_NULL) : Returns (unlinkStep io oldValue) s := by
  rw [left_link] at hleft
  rw [right_link] at hright
  have hnone : ∀ status, unlinkRight io (loadOff s.duplicate 0) (loadOff s.duplicate 8) status =
      .inl status := by
    intro status
    rw [unlinkRight, loadOff_val, if_pos hright]
  suffices h : ∃ r, unlinkStep io oldValue s = .inl r by
    obtain ⟨r, hr⟩ := h
    exact Returns.of_inl hr
  unfold unlinkStep
  simp only [loadOff_val, if_pos hleft, hnone]
  split_ifs <;> exact ⟨_, rfl⟩

theorem unlinkRight_next {io : UnlinkIO} {left right : off_t} {status : Status} {s' : Unlink}
    (h : unlinkRight io left right status = .inr s') :
    left_link s'.duplicate = BPLUSTREE_NULL ∧ right_link s'.duplicate = BPLUSTREE_NULL := by
  unfold unlinkRight at h
  split at h
  · exact absurd h Sum.inl_ne_inr
  · split at h
    · exact absurd h Sum.inl_ne_inr
    · rename_i node _
      simp only at h
      split at h
      · rename_i hlast
        cases h
        refine ⟨?_, hlast.2.1⟩
        exact (load64_store64_same node left.2).trans hlast.1
      · exact absurd h Sum.inl_ne_inr

/-- When the loop goes on, the node it goes on with has no neighbours. -/
theorem unlinkStep_next {io : UnlinkIO} {oldValue : off_t} {s s' : Unlink}
    (h : unlinkStep io oldValue s = .inr s') :
    left_link s'.duplicate = BPLUSTREE_NULL ∧ right_link s'.duplicate = BPLUSTREE_NULL := by
  unfold unlinkStep at h
  simp only at h
  split at h
  · split at h
    · exact absurd h Sum.inl_ne_inr
    · split at h
      · exact absurd h Sum.inl_ne_inr
      · split at h
        · exact unlinkRight_next h
        · split at h
          · exact unlinkRight_next h
          · rename_i node _
            split at h
            · rename_i hlast
              cases h
              refine ⟨hlast.2.1, ?_⟩
              exact (load64_store64_same node (loadOff s.duplicate 8).2).trans hlast.1
            · split at h
              · exact absurd h Sum.inl_ne_inr
              · exact unlinkRight_next h
  · split at h
    · exact absurd h Sum.inl_ne_inr
    · exact absurd h Sum.inl_ne_inr

theorem unlink_returns (io : UnlinkIO) (oldValue : off_t) (s : Unlink) :
    Returns (unlinkStep io oldValue) s := by
  cases hstep : unlinkStep io oldValue s with
  | inl r => exact .of_inl hstep
  | inr s' =>
    obtain ⟨hleft, hright⟩ := unlinkStep_next hstep
    exact (returns_next_iff hstep).2 (unlink_returns_of_last io oldValue hleft hright)

/-- An index node without keys. -/
def indexNode (link : Int) : Buffer := setOverflowLink (initializeNode fun _ => 0) link

/-- A file with two index nodes; each has the other one as its overflow link. -/
def loopTree : BPlusTree where
  fNodeSize := 1024
  fAllowDuplicates := false
  data_type := .STRING_TYPE
  root_node_pointer := ⟨1024, by decide⟩
  maximum_size := ⟨3072, by decide⟩
  node := fun offset =>
    if offset.1 = 1024 then some (indexNode 2048)
    else if offset.1 = 2048 then some (indexNode 1024)
    else none

/-- The descent goes on from a node without keys with its overflow link. -/
theorem loopTree_next {offset : off_t} (link : off_t) (key : KeyRef) (next : off_t)
    (hlinks : (offset.1 = 1024 ∧ link.1 = 2048) ∨ (offset.1 = 2048 ∧ link.1 = 1024)) :
    Next (loopTree.findStep key) (offset, next) (link, link) := by
  have hnode : loopTree.SetTo offset true = some (indexNode link.1) := by
    obtain ⟨hoffset, hlink⟩ | ⟨hoffset, hlink⟩ := hlinks
    · obtain rfl : offset = ⟨1024, by decide⟩ := Subtype.ext hoffset
      rw [hlink, BPlusTree.SetTo, if_neg (by decide)]
      exact if_neg (by decide)
    · obtain rfl : offset = ⟨2048, by decide⟩ := Subtype.ext hoffset
      rw [hlink, BPlusTree.SetTo, if_neg (by decide)]
      exact if_neg (by decide)
  have hcount : all_key_count (indexNode link.1) = 0 :=
    (load16_store64_disjoint (by omega)).trans (by decide)
  have hlink : loadOff (indexNode link.1) 16 = link :=
    Subtype.ext ((loadOff_val _ _).trans (load64_store64_same _ link.2))
  have hoverflow : overflow_link (indexNode link.1) ≠ BPLUSTREE_NULL := by
    have hsame : overflow_link (indexNode link.1) = link.1 := load64_store64_same _ link.2
    rw [hsame, BPLUSTREE_NULL]
    omega
  have hother : link ≠ offset := by
    intro hself
    rw [hself] at hlinks
    omega
  simp only [Next, BPlusTree.findStep, hnode, BPlusTree.FindKey, if_pos hcount, hlink,
    if_neg hoverflow, if_neg hother]

end BFS
