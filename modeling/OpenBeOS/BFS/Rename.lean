import OpenBeOS.BFS.Definitions
import OpenBeOS.BFS.Node

/-! # Renaming

`bfs_rename()` with `Inode::Remove()`, which it uses for an entry in the way. A directory's B+tree
is the list of its entries. Each operation may also fail for a reason of its own (the device, no
memory): `faults` has the status it returns then.
-/

namespace BFS

/-- The characters of a name, without the terminating zero. -/
abbrev Name := List UInt8

/-- `"."`. -/
def dot : Name := [46]

/-- `".."`. -/
def dotDot : Name := [46, 46]

/-- The entries of a directory, the keys and values of its B+tree. -/
abbrev DirTree := List (Name × Int)

/-- What the function needs of an inode. -/
structure Inode where
  /-- `ToVnode(Parent())`. -/
  parent : Int
  /-- Any of `S_DIRECTORY`, `S_INDEX_DIR` and `S_ATTR_DIR`. -/
  isDirectory : Bool
  isIndex : Bool
  /-- Any of `S_INDEX_DIR` and `S_ATTR_DIR`: there are no entries for itself and its parent. -/
  isContainer : Bool
  name : Name
  /-- `INODE_DELETED`. -/
  deleted : Bool
  entries : DirTree

structure Volume where
  /-- `RootNode()->ID()`. -/
  root : Int
  /-- What `get_vnode()` returns. -/
  inode : Int → Option Inode
  /-- `Panic()` has been called. -/
  panicked : Bool

/-- The operations that may fail. -/
inductive RenameOp where
  | getOldTree | getNewTree | getMovedTree
  | insert | insertAgain | removeVnode | removeOther | writeOther
  | setName | removeOld | replaceParent | writeBack
  | bailInsert | bailSetName | bailRemove
  deriving DecidableEq

/-! ## The trees -/

def keyLengthOk (name : Name) : Bool :=
  BPLUSTREE_MIN_KEY_LENGTH ≤ name.length ∧ name.length ≤ BPLUSTREE_MAX_KEY_LENGTH

/-- `BPlusTree::Find()`. -/
def DirTree.Find (tree : DirTree) (name : Name) : Except Status Int :=
  if ¬ keyLengthOk name then .error .B_BAD_VALUE
  else match tree.lookup name with
    | none => .error .B_ENTRY_NOT_FOUND
    | some id => .ok id

/-- `BPlusTree::Insert()`. -/
def DirTree.Insert (fault : Status) (name : Name) (id : Int) (tree : DirTree) : Status × DirTree :=
  if ¬ keyLengthOk name then (.B_BAD_VALUE, tree)
  else if fault ≠ .B_OK then (fault, tree)
  else match tree.lookup name with
    | some _ => (.B_NAME_IN_USE, tree)
    | none => (.B_OK, (name, id) :: tree)

/-- `BPlusTree::Remove()`. -/
def DirTree.Remove (fault : Status) (name : Name) (tree : DirTree) : Status × DirTree :=
  if ¬ keyLengthOk name then (.B_BAD_VALUE, tree)
  else if fault ≠ .B_OK then (fault, tree)
  else match tree.lookup name with
    | none => (.B_ENTRY_NOT_FOUND, tree)
    | some _ => (.B_OK, tree.filter fun entry => entry.1 ≠ name)

/-- `BPlusTree::Replace()`. -/
def DirTree.Replace (fault : Status) (name : Name) (id : Int) (tree : DirTree) : Status × DirTree :=
  if ¬ keyLengthOk name then (.B_BAD_VALUE, tree)
  else if fault ≠ .B_OK then (fault, tree)
  else match tree.lookup name with
    | none => (.B_ENTRY_NOT_FOUND, tree)
    | some _ => (.B_OK, tree.map fun entry => if entry.1 = name then (name, id) else entry)

/-- `Inode::IsEmpty()`. -/
def Inode.IsEmpty (inode : Inode) : Bool :=
  if inode.isContainer then inode.entries.isEmpty
  else inode.entries.length ≤ 2 ∧ inode.entries.all fun entry => entry.1 = dot ∨ entry.1 = dotDot

def Volume.setInode (v : Volume) (id : Int) (inode : Inode) : Volume :=
  { v with inode := Function.update v.inode id (some inode) }

/-- Changes the inode, if there is one. -/
def Volume.modify (v : Volume) (id : Int) (f : Inode → Inode) : Volume :=
  match v.inode id with
  | none => v
  | some inode => v.setInode id (f inode)

/-- `Inode::GetTree()`. -/
def Volume.GetTree (v : Volume) (fault : Status) (id : Int) : Status :=
  match v.inode id with
  | none => .B_BAD_VALUE
  | some inode => if ¬ inode.isDirectory then .B_BAD_VALUE else fault

/-- An operation on the tree of a directory. -/
def Volume.onTree (v : Volume) (id : Int) (op : DirTree → Status × DirTree) : Status × Volume :=
  match v.inode id with
  | none => (.B_BAD_VALUE, v)
  | some inode =>
    ((op inode.entries).1, v.setInode id { inode with entries := (op inode.entries).2 })

/-- The entry of a directory. -/
def Volume.Find (v : Volume) (id : Int) (name : Name) : Except Status Int :=
  match v.inode id with
  | none => .error .B_BAD_VALUE
  | some inode => inode.entries.Find name

/-! ## `bfs_rename()` -/

/-- The loop that soars up from a directory: `B_OK` if it ends at the root node or the old
directory; nothing if it has not ended after that many inodes. -/
def soarUp (v : Volume) (id oldDir : Int) : Nat → Int → Option Status
  | 0, _ => none
  | fuel + 1, parent =>
    if parent = id then some .B_BAD_VALUE
    else if parent = v.root ∨ parent = oldDir then some .B_OK
    else match v.inode parent with
      | none => some .B_ERROR
      | some parentNode => soarUp v id oldDir fuel parentNode.parent

section

variable (v : Volume) (faults : RenameOp → Status)

/-- `Inode::Remove()`. -/
def Volume.Remove (directory : Int) (name : Name)
    (isDirectory : Bool) : Status × Volume :=
  match v.Find directory name with
  | .error _ => (.B_ENTRY_NOT_FOUND, v)
  | .ok id =>
    match v.inode id with
    | none => (.B_ENTRY_NOT_FOUND, v)
    | some inode =>
      if ¬ inode.isIndex ∧ inode.isDirectory ≠ isDirectory then
        (if isDirectory then .B_NOT_A_DIRECTORY else .B_IS_A_DIRECTORY, v)
      else if ¬ inode.isIndex ∧ isDirectory ∧ ¬ inode.IsEmpty then (.B_DIRECTORY_NOT_EMPTY, v)
      else if faults .removeVnode ≠ .B_OK then (.B_ERROR, v)
      else
        let removed := v.onTree directory (DirTree.Remove (faults .removeOther) name)
        if removed.1 ≠ .B_OK then (.B_ERROR, v)
        else
          let v := removed.2.modify id fun inode => { inode with deleted := true }
          if faults .writeOther ≠ .B_OK then (.B_ERROR, v) else (.B_OK, v)

/-- The entry is inserted into the new directory, in the place of one that can be removed. -/
def insertTarget (newDir : Int) (newName : Name)
    (id : Int) : Status × Volume :=
  let inserted := v.onTree newDir (DirTree.Insert (faults .insert) newName id)
  if inserted.1 = .B_NAME_IN_USE then
    match inserted.2.Find newDir newName with
    | .error _ => (.B_NAME_IN_USE, inserted.2)
    | .ok clobber =>
      if clobber = id then (.B_BAD_VALUE, inserted.2)
      else match inserted.2.inode clobber with
        | none => (.B_NAME_IN_USE, inserted.2)
        | some other =>
          let removed := inserted.2.Remove faults newDir newName other.isDirectory
          if removed.1 ≠ .B_OK then removed
          else removed.2.onTree newDir (DirTree.Insert (faults .insertAgain) newName id)
  else inserted

/-- The inode gets its new parent and is written back; the flag tells if its tree has been opened. -/
def setParent (oldDir newDir id : Int)
    (isDirectory : Bool) : Status × Bool × Volume :=
  let v := v.modify id fun inode => { inode with parent := newDir }
  let moved := if oldDir ≠ newDir ∧ isDirectory then
      let status := v.GetTree (faults .getMovedTree) id
      if status = .B_OK then
        let replaced := v.onTree id (DirTree.Replace (faults .replaceParent) dotDot newDir)
        (replaced.1, true, replaced.2)
      else (status, false, v)
    else (.B_OK, false, v)
  if moved.1 = .B_OK then (faults .writeBack, moved.2) else moved

/-- What is done when something fails behind `insertTarget`. -/
def bailOut (bailStatus : Status) (nameUpdated : Bool)
    (newDir id : Int) (oldName newName : Name) : Volume :=
  let named := if bailStatus = .B_OK ∧ nameUpdated then
      (faults .bailSetName, if faults .bailSetName = .B_OK then
        v.modify id fun inode => { inode with name := oldName } else v)
    else (bailStatus, v)
  let removed := if named.1 = .B_OK then
      named.2.onTree newDir (DirTree.Remove (faults .bailRemove) newName)
    else named
  if removed.1 ≠ .B_OK then { removed.2 with panicked := true } else removed.2

/-- The inode moves from the old directory; the new one has its entry already. -/
def moveInode (oldDir : Int) (oldName : Name)
    (newDir : Int) (newName : Name) (id : Int) (isDirectory : Bool) : Status × Volume :=
  let status := if oldName ≠ newName then faults .setName else .B_OK
  let nameUpdated : Bool := oldName ≠ newName ∧ status = .B_OK
  let v := if nameUpdated then v.modify id fun inode => { inode with name := newName } else v
  if status ≠ .B_OK then (status, bailOut v faults .B_OK nameUpdated newDir id oldName newName)
  else
    let removed := v.onTree oldDir (DirTree.Remove (faults .removeOld) oldName)
    if removed.1 ≠ .B_OK then
      (removed.1, bailOut removed.2 faults .B_OK nameUpdated newDir id oldName newName)
    else
      let moved := setParent removed.2 faults oldDir newDir id isDirectory
      if moved.1 = .B_OK then (.B_OK, moved.2.2)
      else
        let inserted := moved.2.2.onTree oldDir (DirTree.Insert (faults .bailInsert) oldName id)
        let v := if moved.2.1 then
            (inserted.2.onTree id (DirTree.Replace .B_OK dotDot oldDir)).2 else inserted.2
        (moved.1, bailOut v faults inserted.1 nameUpdated newDir id oldName newName)

/-- `bfs_rename()`; nothing if it still soars up after `fuel` inodes. -/
def bfs_rename (fuel : Nat) (oldDir : Int) (oldName : Name)
    (newDir : Int) (newName : Name) : Option (Status × Volume) :=
  if oldName = [] ∨ newName = [] ∨ oldName = dot ∨ oldName = dotDot ∨ newName = dot ∨
      newName = dotDot then some (.B_BAD_VALUE, v)
  else if v.GetTree (faults .getOldTree) oldDir ≠ .B_OK then
    some (v.GetTree (faults .getOldTree) oldDir, v)
  else match v.Find oldDir oldName with
    | .error status => some (status, v)
    | .ok id =>
      match v.inode id, v.inode newDir with
      | some inode, some newDirectory =>
        -- don't move a directory into one of its children
        let above := if oldDir ≠ newDir then soarUp v id oldDir fuel newDirectory.parent
          else some .B_OK
        above.map fun status =>
          if status ≠ .B_OK then (status, v)
          else
            let status := if newDir ≠ oldDir then v.GetTree (faults .getNewTree) newDir else .B_OK
            if status ≠ .B_OK then (status, v)
            else
              let target := insertTarget v faults newDir newName id
              if target.1 ≠ .B_OK then target
              else moveInode target.2 faults oldDir oldName newDir newName id inode.isDirectory
      | _, _ => some (.B_IO_ERROR, v)

end

end BFS
