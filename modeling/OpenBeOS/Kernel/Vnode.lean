import Mathlib

/-! # Vnodes

The table of vnodes of `vfs.c` and the lists of the vnodes of a mount; `get_vnode` and
`dec_vnode_ref_count` cut into what they do under `vfs_vnode_mutex` or the lock of a mount, and
between. A vnode or a mount is given by its address. Memory is never handed out again, so that a
pointer to a vnode that has been freed stays one.
-/

namespace Kernel

open Function

abbrev fs_id := Nat
abbrev vnode_id := Nat

inductive VfsError where
  | ENOMEM
  | EBUSY
  | ERR_INVALID_HANDLE
  | ERR_VFS_GENERAL
  | ERR_VFS_INVALID_FS
  | ERR_VFS_NOT_MOUNTPOINT
  | ERR_VFS_PATH_NOT_FOUND
  | ERR_VFS_ALREADY_MOUNTPOINT
  /-- What the file system returns. -/
  | fs (err : Int)
  deriving DecidableEq

/-! ## The table and the lists -/

/-- The fields of all vnodes and mounts, and the static variables. `released` has the vnodes that
were given back to their file system, and whether by `fs_removevnode`; `freed` has those that
`kfree` got. -/
structure Vfs where
  mount_prev : Nat → Option Nat
  mount_next : Nat → Option Nat
  fsid : Nat → fs_id
  vnid : Nat → vnode_id
  mount : Nat → Nat
  covered_by : Nat → Option Nat
  ref_count : Nat → Int
  delete_me : Nat → Bool
  busy : Nat → Bool
  id : Nat → fs_id
  mount_root : Nat → Option Nat
  covers_vnode : Nat → Option Nat
  vnodes_head : Nat → Option Nat
  vnodes_tail : Nat → Option Nat
  unmounting : Nat → Bool
  vnode_table : List Nat
  mounts_table : List Nat
  root_vnode : Option Nat
  next_fsid : fs_id
  next_vnode : Nat
  next_mount : Nat
  released : List (Nat × Bool)
  freed : List Nat

namespace Vfs

section

variable (s : Vfs)

def fsid_to_mount (id : fs_id) : Option Nat := s.mounts_table.find? fun m => s.id m = id

def lookup_vnode (fsid : fs_id) (vnid : vnode_id) : Option Nat :=
  s.vnode_table.find? fun v => s.fsid v = fsid ∧ s.vnid v = vnid

def add_vnode_to_mount_list (v m : Nat) : Vfs :=
  { s with
    mount_next := update s.mount_next v (s.vnodes_head m)
    mount_prev := update s.mount_prev v none
    vnodes_head := update s.vnodes_head m (some v)
    vnodes_tail :=
      if s.vnodes_tail m = none then update s.vnodes_tail m (some v) else s.vnodes_tail }

def remove_vnode_from_mount_list (v m : Nat) : Vfs :=
  { s with
    vnodes_tail := match s.mount_next v with
      | some _ => s.vnodes_tail
      | none => update s.vnodes_tail m (s.mount_prev v)
    vnodes_head := match s.mount_prev v with
      | some _ => s.vnodes_head
      | none => update s.vnodes_head m (s.mount_next v)
    mount_prev := update
      (match s.mount_next v with
        | some w => update s.mount_prev w (s.mount_prev v)
        | none => s.mount_prev) v none
    mount_next := update
      (match s.mount_prev v with
        | some w => update s.mount_next w (s.mount_next v)
        | none => s.mount_next) v none }

def inc_vnode_ref_count (v : Nat) : Vfs :=
  { s with ref_count := update s.ref_count v (s.ref_count v + 1) }

def set_busy (v : Nat) (busy : Bool) : Vfs := { s with busy := update s.busy v busy }

/-- `get_vnode` from `create_new_vnode` to `hash_insert`. -/
def insert_vnode (fsid : fs_id) (vnid : vnode_id) (m : Nat) : Vfs :=
  { s with
    mount_prev := update s.mount_prev s.next_vnode none
    mount_next := update s.mount_next s.next_vnode none
    fsid := update s.fsid s.next_vnode fsid
    vnid := update s.vnid s.next_vnode vnid
    mount := update s.mount s.next_vnode m
    covered_by := update s.covered_by s.next_vnode none
    ref_count := update s.ref_count s.next_vnode 0
    delete_me := update s.delete_me s.next_vnode false
    busy := update s.busy s.next_vnode true
    vnode_table := s.next_vnode :: s.vnode_table
    next_vnode := s.next_vnode + 1 }

/-- The vnode that has been read in is handed out. -/
def ready_vnode (v : Nat) : Vfs :=
  { s with
    busy := update s.busy v false
    ref_count := update s.ref_count v 1 }

/-- `hash_remove` from the table of vnodes. -/
def remove_vnode (v : Nat) : Vfs := { s with vnode_table := s.vnode_table.erase v }

def free_vnode (v : Nat) : Vfs := { s with freed := v :: s.freed }

/-- The atomic decrement. -/
def drop_ref (v : Nat) : Vfs :=
  { s with ref_count := update s.ref_count v (s.ref_count v - 1) }

/-- The call of `fs_removevnode` or of `fs_putvnode`. -/
def release_vnode (v : Nat) : Vfs :=
  { s with released := (v, s.delete_me v) :: s.released }

end

end Vfs

/-! ## The calls -/

/-- Where a call is. -/
inductive VnodeCall where
  /-- `get_vnode` has found the vnode busy, and sleeps. -/
  | snoozing (v : Nat)
  /-- `get_vnode` has put the vnode into the table; `add_vnode_to_mount_list` is next. -/
  | adding (v : Nat)
  /-- `get_vnode` is in `fs_getvnode`. -/
  | reading (v : Nat)
  /-- `get_vnode` has taken the vnode out of its list, as it could not be read in. -/
  | failing (v : Nat) (err : Int)
  /-- `dec_vnode_ref_count` has let the last reference go; `fs_putvnode` is next. -/
  | putting (v : Nat)
  /-- `dec_vnode_ref_count` has taken the vnode out of its list. -/
  | removing (v : Nat)
  /-- The vnode is out of the table; `kfree` is next. -/
  | freeing (v : Nat)
  /-- `vfs_put_vnode` has found the vnode `v`; its caller has a reference to `owned`. -/
  | releasing (v owned : Nat)
  /-- `get_vnode` has returned the vnode, whose `busy` was as given when the reference was taken. -/
  | got (v : Nat) (busy : Bool)
  | returned (result : Except VfsError Unit)
  | panicked

namespace VnodeCall

/-- The reference that a call will give back. -/
def holds : VnodeCall → List Nat
  | .releasing _ owned => [owned]
  | _ => []

/-- The vnode that the call has marked busy. -/
def busyWith : VnodeCall → List Nat
  | .adding v => [v]
  | .reading v => [v]
  | .failing v _ => [v]
  | .putting v => [v]
  | .removing v => [v]
  | _ => []

/-- The vnode that is in the table and not in the list of its mount, as the call is between the two. -/
def unlisted : VnodeCall → List Nat
  | .adding v => [v]
  | .failing v _ => [v]
  | .removing v => [v]
  | _ => []

end VnodeCall

/-! ## The system -/

/-- `handed` has the vnode of each reference that was handed out and not given back. -/
structure VnodeSystem where
  vfs : Vfs
  calls : List VnodeCall
  handed : List Nat

namespace VnodeSystem

def setCall (s : VnodeSystem) (i : Nat) (call : VnodeCall) : VnodeSystem :=
  { s with calls := s.calls.set i call }

def addCall (s : VnodeSystem) (call : VnodeCall) : VnodeSystem :=
  { s with calls := s.calls ++ [call] }

/-- A reference is handed out. -/
def take (s : VnodeSystem) (v : Nat) : VnodeSystem :=
  { s with vfs := s.vfs.inc_vnode_ref_count v, handed := v :: s.handed }

/-- The first section of `get_vnode`; `memory` says whether `create_new_vnode` gets some. -/
def get_vnode (s : VnodeSystem) (fsid : fs_id) (vnid : vnode_id) (memory : Bool) : VnodeSystem :=
  match s.vfs.lookup_vnode fsid vnid with
  | some v =>
    if s.vfs.busy v then s.addCall (.snoozing v)
    else (s.take v).addCall (.got v (s.vfs.busy v))
  | none =>
    if memory then
      match s.vfs.fsid_to_mount fsid with
      | some m =>
        { s with vfs := s.vfs.insert_vnode fsid vnid m }.addCall (.adding s.vfs.next_vnode)
      | none => s.addCall (.returned (.error .ERR_INVALID_HANDLE))
    else s.addCall (.returned (.error .ENOMEM))

/-- What a call for the vnode `v` becomes in the first section of `dec_vnode_ref_count`. -/
def dec_vnode_ref_count (s : Vfs) (v : Nat) : Vfs × VnodeCall :=
  if s.busy v then (s, .panicked)
  else if s.ref_count v = 1 then ((s.drop_ref v).set_busy v true, .putting v)
  else (s.drop_ref v, .returned (.ok ()))

/-- A caller gives its reference back. -/
def put_vnode (s : VnodeSystem) (v : Nat) : VnodeSystem :=
  let dec := dec_vnode_ref_count s.vfs v
  { s with vfs := dec.1, handed := s.handed.erase v }.addCall dec.2

/-- The caller has a reference to `owned`, and gives the ids of that vnode. -/
def vfs_put_vnode (s : VnodeSystem) (owned : Nat) : VnodeSystem :=
  { s with handed := s.handed.erase owned }.addCall
    (match s.vfs.lookup_vnode (s.vfs.fsid owned) (s.vfs.vnid owned) with
    | some v => .releasing v owned
    | none => .returned (.ok ()))

def vfs_remove_vnode (s : VnodeSystem) (fsid : fs_id) (vnid : vnode_id) : VnodeSystem :=
  match s.vfs.lookup_vnode fsid vnid with
  | some v => { s with vfs := { s.vfs with delete_me := update s.vfs.delete_me v true } }
  | none => s

/-- The next section of a call; `err` is what `fs_getvnode` returns. -/
def goOn (s : VnodeSystem) (i : Nat) (err : Int) : VnodeCall → Option VnodeSystem
  -- `continue` goes to the condition of the loop, which is false
  | .snoozing v => some ((s.take v).setCall i (.got v (s.vfs.busy v)))
  | .adding v =>
    some ({ s with vfs := s.vfs.add_vnode_to_mount_list v (s.vfs.mount v) }.setCall i (.reading v))
  | .reading v =>
    some (if err < 0 then
      { s with vfs := s.vfs.remove_vnode_from_mount_list v (s.vfs.mount v) }.setCall i
        (.failing v err)
    else
      { s with vfs := s.vfs.ready_vnode v, handed := v :: s.handed }.setCall i
        (.got v ((s.vfs.ready_vnode v).busy v)))
  | .failing v _ => some ({ s with vfs := s.vfs.remove_vnode v }.setCall i (.freeing v))
  | .putting v =>
    let vfs := s.vfs.release_vnode v
    some ({ s with vfs := vfs.remove_vnode_from_mount_list v (vfs.mount v) }.setCall i
      (.removing v))
  | .removing v => some ({ s with vfs := s.vfs.remove_vnode v }.setCall i (.freeing v))
  | .freeing v => some ({ s with vfs := s.vfs.free_vnode v }.setCall i (.returned (.ok ())))
  | .releasing v _ =>
    let dec := dec_vnode_ref_count s.vfs v
    some ({ s with vfs := dec.1 }.setCall i dec.2)
  | .got _ _ => none
  | .returned _ => none
  | .panicked => none

/-- `inc` and `put` are made by a caller with a reference. -/
inductive VnodeAction where
  | get_vnode (fsid : fs_id) (vnid : vnode_id) (memory : Bool)
  | inc_vnode_ref_count (v : Nat)
  | put_vnode (v : Nat)
  | vfs_put_vnode (owned : Nat)
  | vfs_remove_vnode (fsid : fs_id) (vnid : vnode_id)
  | go (i : Nat) (err : Int)

def step (s : VnodeSystem) : VnodeAction → Option VnodeSystem
  | .get_vnode fsid vnid memory => some (s.get_vnode fsid vnid memory)
  | .inc_vnode_ref_count v => if v ∈ s.handed then some (s.take v) else none
  | .put_vnode v => if v ∈ s.handed then some (s.put_vnode v) else none
  | .vfs_put_vnode owned => if owned ∈ s.handed then some (s.vfs_put_vnode owned) else none
  | .vfs_remove_vnode fsid vnid => some (s.vfs_remove_vnode fsid vnid)
  | .go i err =>
    match s.calls[i]? with
    | some call => s.goOn i err call
    | none => none

def Step (s : VnodeSystem) (a : VnodeAction) (s' : VnodeSystem) : Prop := s.step a = some s'

/-- There are mounts, and no vnodes. -/
def Init (s : VnodeSystem) : Prop :=
  s.vfs.vnode_table = [] ∧ s.vfs.freed = [] ∧ s.calls = [] ∧ s.handed = [] ∧
    ∀ m, s.vfs.vnodes_head m = none ∧ s.vfs.vnodes_tail m = none

/-- The references to a vnode that were handed out and not given back. -/
def references (s : VnodeSystem) (v : Nat) : Nat :=
  s.handed.count v + (s.calls.map fun call => call.holds.count v).sum

end VnodeSystem

end Kernel
