import OpenBeOS.Lib.Chain
import OpenBeOS.Lib.ParentTree
import OpenBeOS.Lib.Reachable

/-! # The root file system

Directories of `rootfs.c`, linked to their parents and, through `dir_next`, to each other. A vnode is
named by its id, and ids are not used again. All calls hold the lock. Marking a vnode for removal
(`vfs_remove_vnode`) and moving dircookies do not touch the directories.
-/

namespace Kernel

open Reachable List

structure Rootfs where
  next_vnode_id : Nat
  name : Nat → List UInt8
  parent : Nat → Nat
  dir_head : Nat → Option Nat
  dir_next : Nat → Option Nat

namespace Rootfs

abbrev Name := List UInt8

/-- The name ".". -/
def dot : Name := [46]

/-- The name "..". -/
def dotDot : Name := [46, 46]

inductive StreamType where
  | STREAM_TYPE_ANY
  | STREAM_TYPE_FILE
  | STREAM_TYPE_DIR
  | STREAM_TYPE_DEVICE
  deriving DecidableEq

inductive Status where
  | B_NO_ERROR
  | EPERM
  | ENOMEM
  | ERR_VFS_ALREADY_EXISTS
  | ERR_VFS_PATH_NOT_FOUND
  | ERR_VFS_DIR_NOT_EMPTY
  deriving DecidableEq

open Status

def root_vnode : Nat := 0

/-- The file system behind `rootfs_mount`: the root is its own parent. -/
def rootfs_mount : Rootfs where
  next_vnode_id := 1
  name _ := []
  parent _ := root_vnode
  dir_head _ := none
  dir_next _ := none

section Code

variable (fs : Rootfs)

/-- A list that does not end is walked along for ever; one that ends has no more nodes than there have
been vnodes. -/
def walkDir (dir : Nat) (stop : Nat → Bool) : Option (Option Nat × Option Nat) :=
  Chain.walk fs.dir_next stop (fs.next_vnode_id + 1) none (fs.dir_head dir)

def rootfs_find_in_dir (dir : Nat) (path : Name) : Option (Option Nat) :=
  if path = dot then some (some dir)
  else if path = dotDot then some (some (fs.parent dir))
  else (fs.walkDir dir fun v => fs.name v = path).map Prod.snd

def rootfs_insert_in_dir (dir v : Nat) : Rootfs :=
  { fs with
    dir_next := Function.update fs.dir_next v (fs.dir_head dir)
    dir_head := Function.update fs.dir_head dir (some v) }

/-- Its callers do not look at the result. -/
def rootfs_remove_from_dir (dir findit : Nat) : Option Rootfs :=
  match fs.walkDir dir fun v => v = findit with
  | none => none
  | some (_, none) => some fs
  | some (none, some v) =>
    some
      { fs with
        dir_head := Function.update fs.dir_head dir (fs.dir_next v)
        dir_next := Function.update fs.dir_next v none }
  | some (some last_v, some v) =>
    some
      { fs with
        dir_next :=
          Function.update (Function.update fs.dir_next last_v (fs.dir_next v)) v none }

def rootfs_is_dir_empty (dir : Nat) : Bool := (fs.dir_head dir).isNone

/-- `vnodeMem` and `nameMem` say whether there is memory for the vnode and for its name. -/
def rootfs_create (dir : Nat) (name : Name) (st : StreamType) (vnodeMem nameMem : Bool) :
    Option (Status × Rootfs) :=
  if st ≠ .STREAM_TYPE_DIR then some (EPERM, fs)
  else
    match fs.rootfs_find_in_dir dir name with
    | none => none
    | some (some _) => some (ERR_VFS_ALREADY_EXISTS, fs)
    | some none =>
      if vnodeMem then
        let new_vnode := fs.next_vnode_id
        let fs := { fs with next_vnode_id := fs.next_vnode_id + 1 }
        if nameMem then
          let fs :=
            { fs with
              name := Function.update fs.name new_vnode name
              parent := Function.update fs.parent new_vnode dir }
          let fs := fs.rootfs_insert_in_dir dir new_vnode
          some (B_NO_ERROR, { fs with dir_head := Function.update fs.dir_head new_vnode none })
        else some (ENOMEM, fs)
      else some (ENOMEM, fs)

def rootfs_unlink (dir : Nat) (name : Name) : Option (Status × Rootfs) :=
  match fs.rootfs_find_in_dir dir name with
  | none => none
  | some none => some (ERR_VFS_PATH_NOT_FOUND, fs)
  | some (some v) =>
    if ¬ fs.rootfs_is_dir_empty v then some (ERR_VFS_DIR_NOT_EMPTY, fs)
    else (fs.rootfs_remove_from_dir dir v).map fun fs => (B_NO_ERROR, fs)

/-- In another directory, `newname` is only looked for. -/
def rootfs_rename (olddir : Nat) (oldname : Name) (newdir : Nat) (newname : Name)
    (nameMem : Bool) : Option (Status × Rootfs) :=
  match fs.rootfs_find_in_dir olddir oldname with
  | none => none
  | some none => some (ERR_VFS_PATH_NOT_FOUND, fs)
  | some (some v1) =>
    match fs.rootfs_find_in_dir newdir newname with
    | none => none
    | some v2 =>
      if olddir = newdir then
        if v2.isSome then some (ERR_VFS_ALREADY_EXISTS, fs)
        else if oldname.length ≥ newname.length ∨ nameMem then
          some (B_NO_ERROR, { fs with name := Function.update fs.name v1 newname })
        else some (ENOMEM, fs)
      else
        (fs.rootfs_remove_from_dir olddir v1).map fun fs =>
          (B_NO_ERROR, fs.rootfs_insert_in_dir newdir v1)

end Code

inductive RootfsCall where
  | rootfs_create (dir : Nat) (name : Name) (st : StreamType) (vnodeMem nameMem : Bool)
  | rootfs_unlink (dir : Nat) (name : Name)
  | rootfs_rename (olddir : Nat) (oldname : Name) (newdir : Nat) (newname : Name) (nameMem : Bool)

def run (fs : Rootfs) : RootfsCall → Option (Status × Rootfs)
  | .rootfs_create dir name st vnodeMem nameMem => fs.rootfs_create dir name st vnodeMem nameMem
  | .rootfs_unlink dir name => fs.rootfs_unlink dir name
  | .rootfs_rename olddir oldname newdir newname nameMem =>
    fs.rootfs_rename olddir oldname newdir newname nameMem

/-! ## The tree -/

/-- `v` is in the list of `dir`. -/
def InDir (fs : Rootfs) (dir v : Nat) : Prop :=
  ∃ vs, Chain.Leads fs.dir_next (fs.dir_head dir) vs none ∧ v ∈ vs

/-- The vnodes below the root, and the root. -/
inductive Linked (fs : Rootfs) : Nat → Prop
  | root : Linked fs root_vnode
  | child {dir v : Nat} : Linked fs dir → fs.InDir dir v → Linked fs v

/-- The calls are made on linked directories. -/
def OnLinked (fs : Rootfs) : RootfsCall → Prop
  | .rootfs_create dir _ _ _ _ => fs.Linked dir
  | .rootfs_unlink dir _ => fs.Linked dir
  | .rootfs_rename olddir _ newdir _ _ => fs.Linked olddir ∧ fs.Linked newdir

def Step (fs : Rootfs) (c : RootfsCall) (fs' : Rootfs) : Prop :=
  fs.OnLinked c ∧ ∃ status, fs.run c = some (status, fs')

def Init (fs : Rootfs) : Prop := fs = rootfs_mount

/-- A tree of uniquely named directories. -/
structure IsTree (fs : Rootfs) : Prop where
  ends : ∀ dir, fs.Linked dir → ∃ vs, Chain.Leads fs.dir_next (fs.dir_head dir) vs none
  once : ∀ v d, fs.Linked d → fs.InDir d v → ∀ dir, fs.InDir dir v ↔ dir = fs.parent v
  unique : ∀ dir v w, fs.InDir dir v → fs.InDir dir w → fs.name v = fs.name w → v = w
  reaches : ∀ v, fs.Linked v → ParentTree.Reaches fs.parent root_vnode v

/-- What a call does that gives `status`. -/
structure Does (fs : Rootfs) (c : RootfsCall) (status : Status) (fs' : Rootfs) : Prop where
  renamed : ∀ olddir oldname newdir newname nameMem,
    c = .rootfs_rename olddir oldname newdir newname nameMem → status = B_NO_ERROR →
      ∃ v, fs.rootfs_find_in_dir olddir oldname = some (some v) ∧
        fs'.rootfs_find_in_dir newdir newname = some (some v) ∧
        fs'.rootfs_find_in_dir olddir oldname ≠ some (some v)
  failed : status ≠ B_NO_ERROR →
    fs'.name = fs.name ∧ fs'.parent = fs.parent ∧ fs'.dir_head = fs.dir_head ∧
      fs'.dir_next = fs.dir_next

/-- A vnode that is found stays in its directory, and is no "." or ".." that gets another name. -/
def Keeps (fs : Rootfs) : RootfsCall → Prop
  | .rootfs_rename olddir oldname newdir newname nameMem =>
    fs.rootfs_find_in_dir olddir oldname = some none ∨
      olddir = newdir ∧
        (oldname ≠ dot ∧ oldname ≠ dotDot ∨ fs.rootfs_find_in_dir newdir newname ≠ some none ∨
          oldname.length < newname.length ∧ nameMem = false)
  | _ => True

/-! ## The invariant -/

/-- The lists of the directories: a vnode is in the list of its parent only, under a name of its
own. -/
structure Lists (fs : Rootfs) (lists : Nat → List Nat) : Prop where
  chains : Chain.Chains fs.dir_next fs.dir_head lists
  parent : ∀ {dir v}, v ∈ lists dir → fs.parent v = dir
  made : ∀ {dir v}, v ∈ lists dir → v < fs.next_vnode_id
  directory : ∀ {dir v}, v ∈ lists dir → dir < fs.next_vnode_id
  below : ∀ {dir v}, v ∈ lists dir → v ≠ root_vnode
  unique : ∀ {dir v w}, v ∈ lists dir → w ∈ lists dir → fs.name v = fs.name w → v = w
  root_made : root_vnode < fs.next_vnode_id

variable {fs fs' : Rootfs} {lists : Nat → List Nat} {dir v : Nat} {path : Name}

namespace Lists

section

variable (h : Lists fs lists)
include h

theorem inDir_iff : fs.InDir dir v ↔ v ∈ lists dir := by
  constructor
  · rintro ⟨vs, hleads, hv⟩
    rwa [(h.chains.leads dir).unique hleads]
  · exact fun hv => ⟨lists dir, h.chains.leads dir, hv⟩

theorem linked_made (hv : fs.Linked v) : v < fs.next_vnode_id := by
  cases hv with
  | root => exact h.root_made
  | child _ hin => exact h.made (h.inDir_iff.mp hin)

theorem reaches (hv : fs.Linked v) :
    ParentTree.Reaches fs.parent root_vnode v := by
  induction hv with
  | root => exact ParentTree.reaches_root
  | @child dir v _ hin ih =>
    refine ParentTree.Reaches.of_parent ?_
    rwa [h.parent (h.inDir_iff.mp hin)]

theorem isTree : fs.IsTree := by
  refine ⟨fun dir _ => ⟨lists dir, h.chains.leads dir⟩, ?_, ?_, fun v => h.reaches⟩
  · intro v d _ hin dir
    rw [h.inDir_iff] at hin ⊢
    constructor
    · exact fun hv => (h.parent hv).symm
    · rintro rfl
      rwa [h.parent hin]
  · intro dir v w hv hw
    exact h.unique (h.inDir_iff.mp hv) (h.inDir_iff.mp hw)

theorem length_lt : (lists dir).length < fs.next_vnode_id + 1 := by
  have hsub : (lists dir) ⊆ List.range fs.next_vnode_id :=
    fun v hv => mem_range.mpr (h.made hv)
  have hle := ((h.chains.nodup dir).subperm hsub).length_le
  rw [length_range] at hle
  omega

theorem walkDir_eq (stop : Nat → Bool) :
    fs.walkDir dir stop =
      some (((lists dir).takeWhile fun v => !stop v).getLast?,
        ((lists dir).dropWhile fun v => !stop v).head?) := by
  unfold walkDir
  rw [Chain.walk_eq (h.chains.leads dir) h.length_lt, Option.or_none]

theorem find_eq (hdot : path ≠ dot) (hdotDot : path ≠ dotDot) :
    fs.rootfs_find_in_dir dir path = some ((lists dir).find? fun v => fs.name v = path) := by
  unfold rootfs_find_in_dir
  rw [if_neg hdot, if_neg hdotDot, h.walkDir_eq, Option.map_some, List.find?_eq_head?_dropWhile_not]

theorem find_some_iff (hdot : path ≠ dot) (hdotDot : path ≠ dotDot) :
    fs.rootfs_find_in_dir dir path = some (some v) ↔ v ∈ lists dir ∧ fs.name v = path := by
  rw [h.find_eq hdot hdotDot, Option.some_inj]
  constructor
  · intro hfind
    exact ⟨mem_of_find?_eq_some hfind, by simpa using List.find?_some hfind⟩
  · rintro ⟨hmem, hv⟩
    cases hfind : (lists dir).find? fun v => fs.name v = path with
    | none => exact absurd (decide_eq_true hv) (List.find?_eq_none.mp hfind v hmem)
    | some w =>
      have hw : fs.name w = path := by simpa using List.find?_some hfind
      rw [h.unique (mem_of_find?_eq_some hfind) hmem (hw.trans hv.symm)]

theorem find_none (hfind : fs.rootfs_find_in_dir dir path = some none) :
    path ≠ dot ∧ path ≠ dotDot ∧ ∀ v ∈ lists dir, fs.name v ≠ path := by
  have hdot : path ≠ dot := by
    rintro rfl
    cases hfind
  have hdotDot : path ≠ dotDot := by
    rintro rfl
    cases hfind
  refine ⟨hdot, hdotDot, fun v hv hname => ?_⟩
  cases hfind.symm.trans ((h.find_some_iff hdot hdotDot).mpr ⟨hv, hname⟩)

theorem find_exists (dir : Nat) (path : Name) :
    ∃ v, fs.rootfs_find_in_dir dir path = some v := by
  by_cases hdot : path = dot
  · exact ⟨_, if_pos hdot⟩
  · by_cases hdotDot : path = dotDot
    · refine ⟨some (fs.parent dir), ?_⟩
      unfold rootfs_find_in_dir
      rw [if_neg hdot, if_pos hdotDot]
    · exact ⟨_, h.find_eq hdot hdotDot⟩

/-! ## The calls -/

/-- A new vnode in a linked directory. -/
theorem create {name : Name} (hdir : dir < fs.next_vnode_id)
    (hname : ∀ v ∈ lists dir, fs.name v ≠ name) {fs' : Rootfs}
    (hfs' : fs' =
      { next_vnode_id := fs.next_vnode_id + 1
        name := Function.update fs.name fs.next_vnode_id name
        parent := Function.update fs.parent fs.next_vnode_id dir
        dir_head :=
          Function.update (Function.update fs.dir_head dir (some fs.next_vnode_id))
            fs.next_vnode_id none
        dir_next := Function.update fs.dir_next fs.next_vnode_id (fs.dir_head dir) }) :
    Lists fs' (Function.update lists dir (fs.next_vnode_id :: lists dir)) := by
  subst hfs'
  have hnew : ∀ k, fs.next_vnode_id ∉ lists k := fun k hk => Nat.lt_irrefl _ (h.made hk)
  have hold : ∀ {k v}, v ∈ lists k → v ≠ fs.next_vnode_id := fun hv heq => hnew _ (heq ▸ hv)
  -- the list of the new vnode is empty
  have hempty : fs.dir_head fs.next_vnode_id = none := by
    rw [(h.chains.leads _).head, List.head?_eq_none_iff, eq_nil_iff_forall_not_mem]
    exact fun v hv => Nat.lt_irrefl _ (h.directory hv)
  have hmem : ∀ {k v}, v ∈ Function.update lists dir (fs.next_vnode_id :: lists dir) k →
      v = fs.next_vnode_id ∧ k = dir ∨ v ∈ lists k := by
    intro k v hv
    by_cases hk : k = dir
    · subst hk
      rw [Function.update_self] at hv
      exact (mem_cons.mp hv).imp_left fun heq => ⟨heq, rfl⟩
    · rw [Function.update_of_ne hk] at hv
      exact Or.inr hv
  refine ⟨?_, ?_, ?_, ?_, ?_, ?_, ?_⟩
  · have hheads : Function.update (Function.update fs.dir_head dir (some fs.next_vnode_id))
        fs.next_vnode_id none = Function.update fs.dir_head dir (some fs.next_vnode_id) := by
      rw [Function.update_comm (Nat.ne_of_lt hdir), ← hempty, Function.update_eq_self]
    rw [hheads]
    exact h.chains.insert (k := dir) (nil_append _).symm hnew ⟨rfl, rfl⟩
  · intro k v hv
    rcases hmem hv with ⟨rfl, rfl⟩ | hv
    · exact Function.update_self ..
    · exact (Function.update_of_ne (hold hv) ..).trans (h.parent hv)
  · intro k v hv
    show v < fs.next_vnode_id + 1
    rcases hmem hv with ⟨rfl, -⟩ | hv
    · exact Nat.lt_succ_self _
    · exact Nat.lt_succ_of_lt (h.made hv)
  · intro k v hv
    show k < fs.next_vnode_id + 1
    rcases hmem hv with ⟨-, rfl⟩ | hv
    · exact Nat.lt_succ_of_lt hdir
    · exact Nat.lt_succ_of_lt (h.directory hv)
  · intro k v hv
    rcases hmem hv with ⟨rfl, -⟩ | hv
    · exact Nat.ne_of_gt h.root_made
    · exact h.below hv
  · intro k v w hv hw heq
    rcases hmem hv with ⟨rfl, rfl⟩ | hv'
    · rcases hmem hw with ⟨rfl, -⟩ | hw'
      · rfl
      · refine absurd ?_ (hname w hw')
        exact ((Function.update_self ..).symm.trans
          (heq.trans (Function.update_of_ne (hold hw') ..))).symm
    · rcases hmem hw with ⟨rfl, rfl⟩ | hw'
      · refine absurd ?_ (hname v hv')
        exact (Function.update_of_ne (hold hv') ..).symm.trans
          (heq.trans (Function.update_self ..))
      · refine h.unique hv' hw' ?_
        exact (Function.update_of_ne (hold hv') ..).symm.trans
          (heq.trans (Function.update_of_ne (hold hw') ..))
  · exact Nat.lt_succ_of_lt h.root_made

/-- A vnode that has no entries is taken out. -/
theorem remove (hv : v ∈ lists dir) :
    ∃ fs' vs, fs.rootfs_remove_from_dir dir v = some fs' ∧
      Lists fs' (Function.update lists dir vs) := by
  obtain ⟨pre, post, hsplit⟩ := append_of_mem hv
  have hnodup := h.chains.nodup dir
  rw [hsplit] at hnodup
  have hpre : v ∉ pre := fun hmem =>
    (nodup_append.mp hnodup).2.2 v hmem v mem_cons_self rfl
  have hleads := h.chains.leads dir
  rw [hsplit] at hleads
  have hwalk : fs.walkDir dir (fun w => w = v) = some (pre.getLast?, some v) := by
    have heq : fs.walkDir dir (fun w => w = v) = _ := h.walkDir_eq fun w => w = v
    rw [heq]
    exact congrArg some (Chain.walk_find hleads hpre heq)
  have hsub : ∀ {k w}, w ∈ Function.update lists dir (pre ++ post) k → w ∈ lists k := by
    intro k w hw
    by_cases hk : k = dir
    · subst hk
      rw [Function.update_self] at hw
      rw [hsplit]
      exact (List.Sublist.append_left (sublist_cons_self _ _) _).subset hw
    · rwa [Function.update_of_ne hk] at hw
  have hgone : ∀ k, v ∉ Function.update lists dir (pre ++ post) k := by
    intro k hk
    by_cases heq : k = dir
    · subst heq
      rw [Function.update_self] at hk
      exact (nodup_middle.mp hnodup).notMem hk
    · exact h.chains.apart k dir heq v (hsub hk) hv
  -- the rest of the invariant is about the same names and parents
  have hlists : ∀ dir_head dir_next, Chain.Chains dir_next dir_head
      (Function.update lists dir (pre ++ post)) →
      Lists { fs with dir_head, dir_next } (Function.update lists dir (pre ++ post)) := by
    intro dir_head dir_next hchains
    exact ⟨hchains, fun hw => h.parent (hsub hw), fun hw => h.made (hsub hw),
      fun hw => h.directory (hsub hw), fun hw => h.below (hsub hw),
      fun hw hw' => h.unique (hsub hw) (hsub hw'), h.root_made⟩
  unfold rootfs_remove_from_dir
  rw [hwalk]
  cases hlast : pre.getLast? with
  | none | some last =>
    refine ⟨_, pre ++ post, rfl, hlists _ _ (Chain.Chains.update ?_ hgone none)⟩
    exact h.chains.remove hsplit (by rw [hlast]; exact ⟨rfl, rfl⟩)

theorem remove_notMem (hv : v ∉ lists dir) :
    fs.rootfs_remove_from_dir dir v = some fs := by
  have hwalk : fs.walkDir dir (fun w => w = v) = some ((lists dir).getLast?, none) := by
    have heq : fs.walkDir dir (fun w => w = v) = _ := h.walkDir_eq fun w => w = v
    rw [heq]
    exact congrArg some (Chain.walk_find_none (h.chains.leads dir) hv heq)
  unfold rootfs_remove_from_dir
  rw [hwalk]

theorem rename (hv : v ∈ lists dir) {name : Name}
    (hname : ∀ w ∈ lists dir, fs.name w ≠ name) :
    Lists { fs with name := Function.update fs.name v name } lists := by
  refine ⟨h.chains, h.parent, h.made, h.directory, h.below, ?_, h.root_made⟩
  intro k w w' hw hw' heq
  have hdir : ∀ {k}, v ∈ lists k → k = dir := fun hk => (h.parent hk).symm.trans (h.parent hv)
  by_cases hwv : w = v
  · by_cases hwv' : w' = v
    · rw [hwv, hwv']
    · rw [hwv] at hw heq
      obtain rfl := hdir hw
      refine absurd ?_ (hname w' hw')
      exact ((Function.update_self ..).symm.trans (heq.trans (Function.update_of_ne hwv' ..))).symm
  · by_cases hwv' : w' = v
    · rw [hwv'] at hw' heq
      obtain rfl := hdir hw'
      refine absurd ?_ (hname w hw)
      exact (Function.update_of_ne hwv ..).symm.trans (heq.trans (Function.update_self ..))
    · refine h.unique hw hw' ?_
      exact (Function.update_of_ne hwv ..).symm.trans (heq.trans (Function.update_of_ne hwv' ..))

theorem skip :
    Lists { fs with next_vnode_id := fs.next_vnode_id + 1 } lists :=
  ⟨h.chains, h.parent, fun hv => Nat.lt_succ_of_lt (h.made hv),
    fun hv => Nat.lt_succ_of_lt (h.directory hv), h.below, h.unique, Nat.lt_succ_of_lt h.root_made⟩

end

end Lists

/-! ## Runs -/

/-- What a call that keeps the tree does. -/
def Good (fs : Rootfs) (c : RootfsCall) : Prop :=
  ∃ status fs' lists, fs.run c = some (status, fs') ∧ Lists fs' lists ∧ fs.Does c status fs'

section

variable (h : Lists fs lists)
include h

theorem good_of_failed {c : RootfsCall} (status : Status)
    (hrun : fs.run c = some (status, fs)) (hstatus : status ≠ B_NO_ERROR) : fs.Good c :=
  ⟨status, fs, lists, hrun, h, fun _ _ _ _ _ _ hok => absurd hok hstatus,
    fun _ => ⟨rfl, rfl, rfl, rfl⟩⟩

theorem rootfs_create_good (hdir : fs.Linked dir) (name : Name)
    (st : StreamType) (vnodeMem nameMem : Bool) :
    fs.Good (.rootfs_create dir name st vnodeMem nameMem) := by
  by_cases hst : st ≠ .STREAM_TYPE_DIR
  · exact good_of_failed h EPERM (if_pos hst) nofun
  · obtain ⟨found, hfind⟩ := h.find_exists dir name
    cases found with
    | some v =>
      refine good_of_failed h ERR_VFS_ALREADY_EXISTS ?_ nofun
      show fs.rootfs_create dir name st vnodeMem nameMem = _
      rw [rootfs_create, if_neg hst, hfind]
    | none =>
      cases vnodeMem with
      | false =>
        refine good_of_failed h ENOMEM ?_ nofun
        show fs.rootfs_create dir name st false nameMem = _
        rw [rootfs_create, if_neg hst, hfind]
        rfl
      | true =>
        cases nameMem with
        | false =>
          refine ⟨ENOMEM, _, lists, ?_, h.skip, fun _ _ _ _ _ hc => absurd hc nofun,
            fun _ => ⟨rfl, rfl, rfl, rfl⟩⟩
          show fs.rootfs_create dir name st true false = _
          rw [rootfs_create, if_neg hst, hfind]
          rfl
        | true =>
          have hname := (h.find_none hfind).2.2
          refine ⟨B_NO_ERROR, _, _, ?_, h.create (h.linked_made hdir) hname rfl,
            fun _ _ _ _ _ hc => absurd hc nofun, fun herr => absurd rfl herr⟩
          show fs.rootfs_create dir name st true true = _
          rw [rootfs_create, if_neg hst, hfind]
          rfl

theorem rootfs_unlink_good (name : Name) :
    fs.Good (.rootfs_unlink dir name) := by
  obtain ⟨found, hfind⟩ := h.find_exists dir name
  cases found with
  | none =>
    refine good_of_failed h ERR_VFS_PATH_NOT_FOUND ?_ nofun
    show fs.rootfs_unlink dir name = _
    unfold rootfs_unlink
    rw [hfind]
  | some v =>
    by_cases hempty : fs.rootfs_is_dir_empty v = true
    · have hrun : ∀ fs', fs.rootfs_remove_from_dir dir v = some fs' →
          fs.run (.rootfs_unlink dir name) = some (B_NO_ERROR, fs') := by
        intro fs' hremove
        show fs.rootfs_unlink dir name = _
        unfold rootfs_unlink
        rw [hfind]
        dsimp only
        rw [if_neg (not_not_intro hempty), hremove]
        rfl
      by_cases hmem : v ∈ lists dir
      · obtain ⟨fs', vs, hremove, hlists⟩ := h.remove hmem
        exact ⟨B_NO_ERROR, fs', _, hrun fs' hremove, hlists,
          fun _ _ _ _ _ hc => absurd hc nofun, fun herr => absurd rfl herr⟩
      · -- the directory itself, or its parent, is not in its list
        exact ⟨B_NO_ERROR, fs, lists, hrun fs (h.remove_notMem hmem), h,
          fun _ _ _ _ _ hc => absurd hc nofun, fun herr => absurd rfl herr⟩
    · refine good_of_failed h ERR_VFS_DIR_NOT_EMPTY ?_ nofun
      show fs.rootfs_unlink dir name = _
      unfold rootfs_unlink
      rw [hfind]
      dsimp only
      rw [if_pos hempty]

theorem rootfs_rename_good (olddir : Nat) (oldname : Name) (newdir : Nat)
    (newname : Name) (nameMem : Bool)
    (hkeeps : fs.Keeps (.rootfs_rename olddir oldname newdir newname nameMem)) :
    fs.Good (.rootfs_rename olddir oldname newdir newname nameMem) := by
  obtain ⟨found, hfind⟩ := h.find_exists olddir oldname
  cases found with
  | none =>
    refine good_of_failed h ERR_VFS_PATH_NOT_FOUND ?_ nofun
    show fs.rootfs_rename _ _ _ _ _ = _
    unfold rootfs_rename
    rw [hfind]
  | some v1 =>
    obtain ⟨rfl, hcases⟩ := hkeeps.resolve_left (by rw [hfind]; nofun)
    obtain ⟨v2, hfind2⟩ := h.find_exists olddir newname
    cases v2 with
    | some v2 =>
      refine good_of_failed h ERR_VFS_ALREADY_EXISTS ?_ nofun
      show fs.rootfs_rename _ _ _ _ _ = _
      unfold rootfs_rename
      rw [hfind, hfind2]
      dsimp only
      rw [if_pos rfl]
      rfl
    | none =>
      by_cases hmem : oldname.length ≥ newname.length ∨ nameMem = true
      · have hrun : fs.run (.rootfs_rename olddir oldname olddir newname nameMem) =
            some (B_NO_ERROR, { fs with name := Function.update fs.name v1 newname }) := by
          show fs.rootfs_rename _ _ _ _ _ = _
          unfold rootfs_rename
          rw [hfind, hfind2]
          dsimp only
          rw [if_pos rfl]
          exact if_pos hmem
        have hnames : oldname ≠ dot ∧ oldname ≠ dotDot := by
          rcases hcases with hnames | hne | ⟨hlt, hnone⟩
          · exact hnames
          · exact absurd hfind2 hne
          · rcases hmem with hge | hsome
            · omega
            · exact absurd (hnone.symm.trans hsome) Bool.false_ne_true
        obtain ⟨hdot, hdotDot, hnew⟩ := h.find_none hfind2
        obtain ⟨hv1, hname⟩ := (h.find_some_iff hnames.1 hnames.2).mp hfind
        have hlists := h.rename hv1 hnew
        refine ⟨B_NO_ERROR, _, lists, hrun, hlists, ?_, fun herr => absurd rfl herr⟩
        intro od on nd nn mem hc _
        obtain ⟨rfl, rfl, rfl, rfl, rfl⟩ := RootfsCall.rootfs_rename.inj hc
        refine ⟨v1, hfind, ?_, fun hold => ?_⟩
        · exact (hlists.find_some_iff hdot hdotDot).mpr ⟨hv1, Function.update_self ..⟩
        · -- the vnode has the new name only
          have hsame := ((hlists.find_some_iff hnames.1 hnames.2).mp hold).2
          have hgiven : Function.update fs.name v1 newname v1 = newname :=
            Function.update_self v1 newname fs.name
          exact hnew v1 hv1 (hname.trans (hsame.symm.trans hgiven))
      · refine good_of_failed h ENOMEM ?_ nofun
        show fs.rootfs_rename _ _ _ _ _ = _
        unfold rootfs_rename
        rw [hfind, hfind2]
        dsimp only
        rw [if_pos rfl]
        exact if_neg hmem

theorem run_good {c : RootfsCall} (hon : fs.OnLinked c)
    (hkeeps : fs.Keeps c) : fs.Good c := by
  cases c with
  | rootfs_create dir name st vnodeMem nameMem =>
    exact rootfs_create_good h hon name st vnodeMem nameMem
  | rootfs_unlink dir name => exact rootfs_unlink_good h name
  | rootfs_rename olddir oldname newdir newname nameMem =>
    exact rootfs_rename_good h olddir oldname newdir newname nameMem hkeeps

end

theorem lists_of_reachable (h : By Init Keeps Step fs) : ∃ lists, Lists fs lists := by
  refine h.invariant (fun fs => ∃ lists, Lists fs lists) ?_ ?_
  · rintro fs rfl
    refine ⟨fun _ => [], ⟨fun _ => rfl, fun _ => nodup_nil, fun _ _ _ _ => nofun⟩, ?_, ?_, ?_,
      ?_, ?_, Nat.one_pos⟩
    all_goals intros; contradiction
  · rintro fs c fs' ⟨lists, hlists⟩ hkeeps ⟨hon, status, hrun⟩
    obtain ⟨status', fs₁, lists', hrun', hlists', -⟩ := run_good hlists hon hkeeps
    cases hrun.symm.trans hrun'
    exact ⟨lists', hlists'⟩

/-- The directories stay a tree, and every call ends and does what its result says. -/
theorem rootfs_stays_tree (h : By Init Keeps Step fs) :
    fs.IsTree ∧ ∀ c, fs.OnLinked c → fs.Keeps c →
      ∃ status fs', fs.run c = some (status, fs') ∧ fs'.IsTree ∧ fs.Does c status fs' := by
  obtain ⟨lists, hlists⟩ := lists_of_reachable h
  refine ⟨hlists.isTree, fun c hon hkeeps => ?_⟩
  obtain ⟨status, fs', lists', hrun, hlists', hdoes⟩ := run_good hlists hon hkeeps
  exact ⟨status, fs', hrun, hlists'.isTree, hdoes⟩

/-- A directory is made and renamed. -/
theorem rootfs_stays_tree_renamed :
    ∃ fs, By Init Keeps Step fs ∧ fs.rootfs_find_in_dir root_vnode [98] = some (some 1) ∧
      fs.IsTree := by
  have h : ∃ fs₁ fs₂, rootfs_mount.run (.rootfs_create root_vnode [97] .STREAM_TYPE_DIR true true) =
      some (B_NO_ERROR, fs₁) ∧
      fs₁.run (.rootfs_rename root_vnode [97] root_vnode [98] true) = some (B_NO_ERROR, fs₂) ∧
      fs₂.rootfs_find_in_dir root_vnode [98] = some (some 1) := ⟨_, _, rfl, rfl, rfl⟩
  obtain ⟨fs₁, fs₂, hcreate, hrename, hfind⟩ := h
  have hreach : By Init Keeps Step fs₂ := by
    have hfirst : Step rootfs_mount (.rootfs_create root_vnode [97] .STREAM_TYPE_DIR true true) fs₁ :=
      ⟨Linked.root, _, hcreate⟩
    have hsecond : Step fs₁ (.rootfs_rename root_vnode [97] root_vnode [98] true) fs₂ :=
      ⟨⟨Linked.root, Linked.root⟩, _, hrename⟩
    have hkeeps : fs₁.Keeps (.rootfs_rename root_vnode [97] root_vnode [98] true) :=
      Or.inr ⟨rfl, Or.inl ⟨by decide, by decide⟩⟩
    have hcreates : rootfs_mount.Keeps (.rootfs_create root_vnode [97] .STREAM_TYPE_DIR true true) :=
      trivial
    have hinit : By Init Keeps Step rootfs_mount := .init rfl
    exact (hinit.step hcreates hfirst).step hkeeps hsecond
  exact ⟨fs₂, hreach, hfind, (rootfs_stays_tree hreach).1⟩

/-- A directory is moved into another one: it keeps its parent, and its name. -/
theorem rootfs_rename_moves :
    ∃ fs, By Init (fun _ _ => True) Step fs ∧ ¬ fs.IsTree ∧
      fs.rootfs_find_in_dir 2 [99] = some none := by
  have h : ∃ fs₁ fs₂ fs₃,
      rootfs_mount.run (.rootfs_create root_vnode [97] .STREAM_TYPE_DIR true true) =
        some (B_NO_ERROR, fs₁) ∧
      fs₁.run (.rootfs_create root_vnode [98] .STREAM_TYPE_DIR true true) =
        some (B_NO_ERROR, fs₂) ∧
      fs₂.run (.rootfs_rename root_vnode [97] 2 [99] true) = some (B_NO_ERROR, fs₃) ∧
      Chain.Leads fs₂.dir_next (fs₂.dir_head root_vnode) [2, 1] none ∧
      Chain.Leads fs₃.dir_next (fs₃.dir_head root_vnode) [2] none ∧
      Chain.Leads fs₃.dir_next (fs₃.dir_head 2) [1] none ∧ fs₃.parent 1 = root_vnode ∧
      fs₃.rootfs_find_in_dir 2 [99] = some none :=
    ⟨_, _, _, rfl, rfl, rfl, ⟨rfl, rfl, rfl⟩, ⟨rfl, rfl⟩, ⟨rfl, rfl⟩, rfl, rfl⟩
  obtain ⟨fs₁, fs₂, fs₃, hfirst, hsecond, hrename, hroot₂, hroot, hdir, hparent, hfind⟩ := h
  have htwo : fs₂.Linked 2 := .child .root ⟨_, hroot₂, mem_cons_self⟩
  have hstep₁ : Step rootfs_mount (.rootfs_create root_vnode [97] .STREAM_TYPE_DIR true true) fs₁ :=
    ⟨Linked.root, _, hfirst⟩
  have hstep₂ : Step fs₁ (.rootfs_create root_vnode [98] .STREAM_TYPE_DIR true true) fs₂ :=
    ⟨Linked.root, _, hsecond⟩
  have hstep₃ : Step fs₂ (.rootfs_rename root_vnode [97] 2 [99] true) fs₃ :=
    ⟨⟨Linked.root, htwo⟩, _, hrename⟩
  have hinit : By Init (fun _ _ => True) Step rootfs_mount := .init rfl
  have hreach : By Init (fun _ _ => True) Step fs₃ :=
    ((hinit.step trivial hstep₁).step trivial hstep₂).step trivial hstep₃
  refine ⟨fs₃, hreach, fun htree => ?_, hfind⟩
  have hlinked : fs₃.Linked 2 := .child .root ⟨_, hroot, mem_cons_self⟩
  have hin : fs₃.InDir 2 1 := ⟨_, hdir, mem_cons_self⟩
  have hwrong := (htree.once 1 2 hlinked hin 2).mp hin
  rw [hparent] at hwrong
  exact absurd hwrong (by decide)

end Rootfs

end Kernel
