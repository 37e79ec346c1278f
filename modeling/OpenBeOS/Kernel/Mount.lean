import OpenBeOS.Kernel.Vnode
import OpenBeOS.Lib.Chain

/-! # Mounting

`vfs_mount` and `vfs_unmount` with what they call, in one thread. A call that gets into a `panic` or
follows a null pointer has no result.
-/

namespace Kernel

open Chain Function

abbrev Name := List Char

/-- What `kmalloc` and `fs_getvnode` answer when `get_vnode` makes a vnode. -/
structure Reading where
  memory : Bool
  err : Int

/-- `fs_lookup` of a file system: an error, or the vnode id that it calls `vfs_get_vnode` with. -/
abbrev FsLookup := Vfs → Nat → Name → Except Int (vnode_id × Reading)

namespace Vfs

/-! ## References -/

/-- Without another thread, a snooze changes nothing. -/
def get_vnode (s : Vfs) (fsid : fs_id) (vnid : vnode_id) (reading : Reading) :
    Vfs × Except VfsError Nat :=
  match s.lookup_vnode fsid vnid with
  | some v => (s.inc_vnode_ref_count v, .ok v)
  | none =>
    if reading.memory then
      match s.fsid_to_mount fsid with
      | some m =>
        let v := s.next_vnode
        let s := (s.insert_vnode fsid vnid m).add_vnode_to_mount_list v m
        if reading.err < 0 then
          (((s.remove_vnode_from_mount_list v m).remove_vnode v).free_vnode v,
            .error (.fs reading.err))
        else (s.ready_vnode v, .ok v)
      | none => (s, .error .ERR_INVALID_HANDLE)
    else (s, .error .ENOMEM)

/-- What happens to a vnode that loses its last reference. -/
def let_go (s : Vfs) (v : Nat) : Vfs :=
  let s := ((s.drop_ref v).set_busy v true).release_vnode v
  ((s.remove_vnode_from_mount_list v (s.mount v)).remove_vnode v).free_vnode v

def dec_vnode_ref_count (s : Vfs) (v : Nat) : Option Vfs :=
  if s.busy v then none
  else if s.ref_count v = 1 then some (s.let_go v)
  else some (s.drop_ref v)

/-! ## Paths -/

def components (path : Name) : List Name := (path.splitOn '/').filter (· ≠ [])

/-- `..` at the root of a mount starts from the vnode that is covered. -/
def uncover (s : Vfs) (curr_v : Nat) (name : Name) : Option (Vfs × Nat) :=
  if name = ['.', '.'] ∧ s.mount_root (s.mount curr_v) = some curr_v then
    match s.covers_vnode (s.mount curr_v) with
    | some next_v =>
      ((s.inc_vnode_ref_count next_v).dec_vnode_ref_count curr_v).map fun s => (s, next_v)
    | none => some (s, curr_v)
  else some (s, curr_v)

/-- A vnode that is covered by a mount is exchanged for the root of it. -/
def cover (s : Vfs) (curr_v : Nat) : Option (Vfs × Nat) :=
  match s.covered_by curr_v with
  | some next_v =>
    ((s.inc_vnode_ref_count next_v).dec_vnode_ref_count curr_v).map fun s => (s, next_v)
  | none => some (s, curr_v)

/-- The loop over the components of the path. -/
def lookup_path (fs_lookup : FsLookup) : List Name → Nat → Vfs → Option (Vfs × Except VfsError Nat)
  | [], curr_v, s => some (s, .ok curr_v)
  | name :: names, curr_v, s =>
    (s.uncover curr_v name).bind fun (s, curr_v) =>
    match fs_lookup s curr_v name with
    | .error err => (s.dec_vnode_ref_count curr_v).map fun s => (s, .error (.fs err))
    | .ok (vnid, reading) =>
      match s.get_vnode (s.fsid curr_v) vnid reading with
      | (s, .error err) => (s.dec_vnode_ref_count curr_v).map fun s => (s, .error err)
      | (s, .ok _) =>
        (s.lookup_vnode (s.fsid curr_v) vnid).bind fun next_v =>
        (s.dec_vnode_ref_count curr_v).bind fun s =>
        (s.cover next_v).bind fun (s, next_v) => lookup_path fs_lookup names next_v s

def path_to_vnode (s : Vfs) (fs_lookup : FsLookup) (path : Name) (cwd : Option Nat) :
    Option (Vfs × Except VfsError Nat) :=
  (if path.head? = some '/' then s.root_vnode else cwd).bind fun curr_v =>
    lookup_path fs_lookup (components path) curr_v (s.inc_vnode_ref_count curr_v)

/-! ## Mounting -/

/-- The arguments of `vfs_mount`, the registered file systems, and what `kmalloc` and the file
systems answer: for the mount and its path, and for the root vnode. -/
structure MountCall where
  path : Name
  fs_name : String
  cwd : Option Nat
  fs_list : List String
  mount_memory : Bool
  path_memory : Bool
  fs_lookup : FsLookup
  fs_mount : Except Int vnode_id
  root : Reading

/-- The mount gets its id. -/
def create_mount (s : Vfs) : Vfs :=
  { s with
    id := update s.id s.next_mount s.next_fsid
    unmounting := update s.unmounting s.next_mount false
    next_fsid := s.next_fsid + 1
    next_mount := s.next_mount + 1 }

def set_covers_vnode (s : Vfs) (m : Nat) (v : Option Nat) : Vfs :=
  { s with covers_vnode := update s.covers_vnode m v }

def insert_mount (s : Vfs) (m : Nat) : Vfs := { s with mounts_table := m :: s.mounts_table }

/-- The end of a `vfs_mount` that succeeds. -/
def finish_mount (s : Vfs) (m root : Nat) : Vfs :=
  { s with
    mount_root := update s.mount_root m (some root)
    covered_by := match s.covers_vnode m with
      | some v => update s.covered_by v (some root)
      | none => s.covered_by
    root_vnode := s.root_vnode.or (some root) }

/-- The label `err4`. -/
def mount_err4 (s : Vfs) (m : Nat) (err : VfsError) : Option (Vfs × Except VfsError Unit) :=
  match s.covers_vnode m with
  | some v => (s.dec_vnode_ref_count v).map fun s => (s, .error err)
  | none => some (s, .error err)

/-- `vfs_mount` behind `fs_mount`. The label `err5` has `fs_unmount` before `err4`. -/
def mount_root_vnode (s : Vfs) (m : Nat) (root_id : vnode_id) (root : Reading) :
    Option (Vfs × Except VfsError Unit) :=
  match (s.insert_mount m).get_vnode (s.id m) root_id root with
  | (s, .ok v) => some (s.finish_mount m v, .ok ())
  | (s, .error err) => s.mount_err4 m err

def vfs_mount (s : Vfs) (call : MountCall) : Option (Vfs × Except VfsError Unit) :=
  if ¬ call.mount_memory ∨ ¬ call.path_memory then some (s, .error .ENOMEM)
  else if call.fs_name ∉ call.fs_list then some (s, .error .ERR_VFS_INVALID_FS)
  else
    let m := s.next_mount
    let s := s.create_mount
    match s.root_vnode with
    | none =>
      if call.path ≠ ['/'] then some (s, .error .ERR_VFS_GENERAL)
      else match call.fs_mount with
        | .error _ => some (s, .error .ERR_VFS_GENERAL)
        | .ok root_id => (s.set_covers_vnode m none).mount_root_vnode m root_id call.root
    | some root =>
      (s.path_to_vnode call.fs_lookup call.path call.cwd).bind fun
        | (s, .error err) => some (s, .error err)
        | (s, .ok covered_vnode) =>
          if covered_vnode ≠ root ∧ s.mount_root (s.mount covered_vnode) = some covered_vnode then
            -- `err2` keeps the reference
            some (s, .error .ERR_VFS_ALREADY_MOUNTPOINT)
          else
            let s := s.set_covers_vnode m (some covered_vnode)
            match call.fs_mount with
            | .error err => s.mount_err4 m (.fs err)
            | .ok root_id => s.mount_root_vnode m root_id call.root

/-! ## Unmounting -/

structure UnmountCall where
  path : Name
  cwd : Option Nat
  fs_lookup : FsLookup

def add_refs (s : Vfs) (v : Nat) (n : Int) : Vfs :=
  { s with ref_count := update s.ref_count v (s.ref_count v + n) }

/-- The loop that looks for a vnode of the mount that is in use. It passes at most all vnodes. -/
def find_used (s : Vfs) (m : Nat) : Option (Option Nat × Option Nat) :=
  walk s.mount_next (fun v => s.busy v || s.ref_count v != 0) (s.next_vnode + 1) none
    (s.vnodes_head m)

/-- The loop that marks the vnodes of the mount. -/
def mark_busy (s : Vfs) (root : Nat) : Nat → Option Nat → Vfs
  | 0, _ => s
  | _ + 1, none => s
  | fuel + 1, some v =>
    (if v ≠ root then s.set_busy v true else s).mark_busy root fuel (s.mount_next v)

def remove_mount (s : Vfs) (m : Nat) : Vfs := { s with mounts_table := s.mounts_table.erase m }

/-- The rest of `vfs_unmount` for a mount none of whose vnodes is in use. -/
def finish_unmount (s : Vfs) (m root : Nat) : Option (Vfs × Except VfsError Unit) :=
  let s := s.mark_busy root (s.next_vnode + 1) (s.vnodes_head m)
  let s := { s with unmounting := update s.unmounting m true }
  (s.covers_vnode m).bind fun covered =>
    let s := { s with covered_by := update s.covered_by covered none }
    (s.dec_vnode_ref_count covered).bind fun s =>
      (s.dec_vnode_ref_count root).bind fun s =>
        (s.dec_vnode_ref_count root).map fun s => (s.remove_mount m, .ok ())

def vfs_unmount (s : Vfs) (call : UnmountCall) : Option (Vfs × Except VfsError Unit) :=
  (s.path_to_vnode call.fs_lookup call.path call.cwd).bind fun
    | (s, .error _) => some (s, .error .ERR_VFS_PATH_NOT_FOUND)
    | (s, .ok v) =>
      (s.fsid_to_mount (s.fsid v)).bind fun m =>
      if s.mount_root m ≠ some v then
        (s.dec_vnode_ref_count v).map fun s => (s, .error .ERR_VFS_NOT_MOUNTPOINT)
      else
        let s := s.add_refs v (-2)
        (s.find_used m).bind fun
          | (_, some _) => ((s.add_refs v 2).dec_vnode_ref_count v).map fun s => (s, .error .EBUSY)
          | (_, none) => s.finish_unmount m v

end Vfs

end Kernel
