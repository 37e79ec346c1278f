import OpenBeOS.BFS.RenameTree

/-! # A rename that fails

`bfs_rename()` with the name index, and what is left behind when one of its steps behind the first
`Insert()` fails. The ladder at its bottom takes back the entries, the name and the `".."`; it takes
back neither the parent nor the entry of the index.
-/

namespace BFS

open Function Option

/-! ## The name index -/

/-- A volume with the keys and values of its name index, if it has one. -/
structure Indexed where
  volume : Volume
  nameIndex : Option (List (Name × Int))

section

variable (s : Indexed)

/-- `Index::UpdateName()`, whose result nobody looks at; a missing name is `NULL`. -/
def Indexed.UpdateName (oldName newName : Option Name) (id : Int) : Indexed :=
  -- if the two keys are identical, don't do anything
  if oldName = some [] ∨ newName = some [] ∨ oldName = newName then s
  else
    let remove (index : List (Name × Int)) : List (Name × Int) :=
      match oldName with
      | none => index
      | some name => index.erase (name, id)
    let insert (index : List (Name × Int)) : List (Name × Int) :=
      match newName with
      | none => index
      | some name => (name, id) :: index
    { s with nameIndex := s.nameIndex.map fun index => insert (remove index) }

/-- `Inode::Remove()`. -/
def Indexed.Remove (faults : RenameOp → Status) (directory : Int) (name : Name)
    (isDirectory : Bool) : Status × Indexed :=
  match s.volume.Find directory name with
  | .error _ => (.B_ENTRY_NOT_FOUND, s)
  | .ok id =>
    match s.volume.inode id with
    | none => (.B_ENTRY_NOT_FOUND, s)
    | some inode =>
      if ¬ inode.isIndex ∧ inode.isDirectory ≠ isDirectory then
        (if isDirectory then .B_NOT_A_DIRECTORY else .B_IS_A_DIRECTORY, s)
      else if ¬ inode.isIndex ∧ isDirectory ∧ ¬ inode.IsEmpty then (.B_DIRECTORY_NOT_EMPTY, s)
      else if faults .removeVnode ≠ .B_OK then (.B_ERROR, s)
      else
        let removed := s.volume.onTree directory (DirTree.Remove (faults .removeOther) name)
        if removed.1 ≠ .B_OK then (.B_ERROR, s)
        else
          let v := removed.2.modify id fun inode => { inode with deleted := true }
          let s := { s with volume := v }
          let s := if inode.isContainer then s else s.UpdateName (some name) none id
          if faults .writeOther ≠ .B_OK then (.B_ERROR, s) else (.B_OK, s)

/-- The entry is inserted into the new directory, in the place of one that can be removed. -/
def Indexed.insertTarget (faults : RenameOp → Status) (newDir : Int) (newName : Name)
    (id : Int) : Status × Indexed :=
  let inserted := s.volume.onTree newDir (DirTree.Insert (faults .insert) newName id)
  let s := { s with volume := inserted.2 }
  if inserted.1 = .B_NAME_IN_USE then
    match s.volume.Find newDir newName with
    | .error _ => (.B_NAME_IN_USE, s)
    | .ok clobber =>
      if clobber = id then (.B_BAD_VALUE, s)
      else match s.volume.inode clobber with
        | none => (.B_NAME_IN_USE, s)
        | some other =>
          let removed := s.Remove faults newDir newName other.isDirectory
          if removed.1 ≠ .B_OK then removed
          else
            let inserted := removed.2.volume.onTree newDir
              (DirTree.Insert (faults .insertAgain) newName id)
            (inserted.1, { removed.2 with volume := inserted.2 })
  else (inserted.1, s)

/-- The inode moves from the old directory. The index is told of the new name right behind
`SetName()`, and of nothing else. -/
def Indexed.moveInode (faults : RenameOp → Status) (oldDir : Int) (oldName : Name)
    (newDir : Int) (newName : Name) (id : Int) (isDirectory : Bool) : Status × Indexed :=
  let moved := BFS.moveInode s.volume faults oldDir oldName newDir newName id isDirectory
  let s := if oldName ≠ newName ∧ faults .setName = .B_OK then
      s.UpdateName (some oldName) (some newName) id else s
  (moved.1, { s with volume := moved.2 })

/-- `bfs_rename()`; nothing if it still soars up after `fuel` inodes. -/
def Indexed.bfs_rename (faults : RenameOp → Status) (fuel : Nat) (oldDir : Int)
    (oldName : Name) (newDir : Int) (newName : Name) : Option (Status × Indexed) :=
  if oldName = [] ∨ newName = [] ∨ oldName = dot ∨ oldName = dotDot ∨ newName = dot ∨
      newName = dotDot then some (.B_BAD_VALUE, s)
  else if s.volume.GetTree (faults .getOldTree) oldDir ≠ .B_OK then
    some (s.volume.GetTree (faults .getOldTree) oldDir, s)
  else match s.volume.Find oldDir oldName with
    | .error status => some (status, s)
    | .ok id =>
      match s.volume.inode id, s.volume.inode newDir with
      | some inode, some newDirectory =>
        -- don't move a directory into one of its children
        let above := if oldDir ≠ newDir then soarUp s.volume id oldDir fuel newDirectory.parent
          else some .B_OK
        above.map fun status =>
          if status ≠ .B_OK then (status, s)
          else
            let status := if newDir ≠ oldDir then s.volume.GetTree (faults .getNewTree) newDir
              else .B_OK
            if status ≠ .B_OK then (status, s)
            else
              let target := s.insertTarget faults newDir newName id
              if target.1 ≠ .B_OK then target
              else target.2.moveInode faults oldDir oldName newDir newName id inode.isDirectory
      | _, _ => some (.B_IO_ERROR, s)

end

/-! ## What the steps change -/

/-- All but the entries of an inode. -/
def Volume.node (v : Volume) (x : Int) : Option (Int × Name × Bool) :=
  (v.inode x).map fun inode => (inode.parent, inode.name, inode.isDirectory)

/-- Only the entry of a name in a directory has changed. -/
structure EntrySet (v w : Volume) (dir : Int) (name : Name) (entry : Option Int) : Prop where
  lookup : ∀ x n, w.lookup x n = if x = dir ∧ n = name then entry else v.lookup x n
  node : ∀ x, w.node x = v.node x

theorem onTree_node (v : Volume) (dir : Int) (op : DirTree → Status × DirTree) (x : Int) :
    (v.onTree dir op).2.node x = v.node x := by
  rw [Volume.onTree]
  cases hinode : v.inode dir with
  | none => rfl
  | some inode =>
    simp only [Volume.node, Volume.setInode, update_apply]
    by_cases hx : x = dir
    · rw [if_pos hx, hx, hinode]
      rfl
    · rw [if_neg hx]

variable {v : Volume} {dir value : Int} {name : Name}

theorem modify_node {id : Int} {f : Inode → Inode} {g : Int × Name × Bool → Int × Name × Bool}
    (hg : ∀ inode, ((f inode).parent, (f inode).name, (f inode).isDirectory) =
      g (inode.parent, inode.name, inode.isDirectory)) (x : Int) :
    (v.modify id f).node x = if x = id then (v.node x).map g else v.node x := by
  rw [Volume.modify]
  by_cases hx : x = id
  · rw [if_pos hx, hx]
    cases hinode : v.inode id with
    | none => simp [Volume.node, hinode]
    | some inode => simp [Volume.node, Volume.setInode, hinode, hg]
  · rw [if_neg hx]
    cases hinode : v.inode id with
    | none => rfl
    | some inode => simp [Volume.node, Volume.setInode, hx]

theorem exists_of_lookup
    (h : v.lookup dir name = some value) :
    ∃ inode, v.inode dir = some inode ∧ inode.entries.lookup name = some value := by
  rw [Volume.lookup] at h
  exact bind_eq_some_iff.mp h

theorem onTree_insert {dir : Int} (id : Int) (hdir : (v.inode dir).isSome)
    (hlength : keyLengthOk name = true) (hnone : v.lookup dir name = none) :
    (v.onTree dir (DirTree.Insert .B_OK name id)).1 = .B_OK ∧
      EntrySet v (v.onTree dir (DirTree.Insert .B_OK name id)).2 dir name (some id) := by
  have hok : (v.onTree dir (DirTree.Insert .B_OK name id)).1 = .B_OK := by
    obtain ⟨inode, hinode⟩ := isSome_iff_exists.mp hdir
    rw [Volume.lookup, hinode, bind_some] at hnone
    simp [Volume.onTree, hinode, DirTree.Insert, hlength, hnone]
  exact ⟨hok, onTree_lookup (insert_setsEntry _ _ _) hok, onTree_node _ _ _⟩

theorem onTree_remove (hlength : keyLengthOk name = true)
    (hsome : v.lookup dir name = some value) :
    (v.onTree dir (DirTree.Remove .B_OK name)).1 = .B_OK ∧
      EntrySet v (v.onTree dir (DirTree.Remove .B_OK name)).2 dir name none := by
  have hok : (v.onTree dir (DirTree.Remove .B_OK name)).1 = .B_OK := by
    obtain ⟨inode, hinode, hentry⟩ := exists_of_lookup hsome
    simp [Volume.onTree, hinode, DirTree.Remove, hlength, hentry]
  exact ⟨hok, onTree_lookup (remove_setsEntry _ _) hok, onTree_node _ _ _⟩

theorem onTree_replace (id : Int)
    (hlength : keyLengthOk name = true) (hsome : v.lookup dir name = some value) :
    (v.onTree dir (DirTree.Replace .B_OK name id)).1 = .B_OK ∧
      EntrySet v (v.onTree dir (DirTree.Replace .B_OK name id)).2 dir name (some id) := by
  have hok : (v.onTree dir (DirTree.Replace .B_OK name id)).1 = .B_OK := by
    obtain ⟨inode, hinode, hentry⟩ := exists_of_lookup hsome
    simp [Volume.onTree, hinode, DirTree.Replace, hlength, hentry]
  exact ⟨hok, onTree_lookup (replace_setsEntry _ _ _) hok, onTree_node _ _ _⟩

theorem onTree_remove_fault {fault : Status}
    (hlength : keyLengthOk name = true) (hfault : fault ≠ .B_OK)
    (hsome : v.lookup dir name = some value) :
    (v.onTree dir (DirTree.Remove fault name)).1 = fault ∧
      ∀ x n, (v.onTree dir (DirTree.Remove fault name)).2.lookup x n = v.lookup x n := by
  obtain ⟨inode, hinode, hentry⟩ := exists_of_lookup hsome
  refine ⟨by simp [Volume.onTree, hinode, DirTree.Remove, hlength, hfault], fun x n => ?_⟩
  by_cases hx : x = dir
  · simp [Volume.lookup, Volume.onTree, hinode, DirTree.Remove, hlength, hfault, Volume.setInode, hx]
  · simp [Volume.lookup, Volume.onTree, hinode, Volume.setInode, hx]

/-! ## The ladder -/

section

variable (v : Volume) (id : Int) (oldName newName : Name)

/-- The inode with its new name. -/
def Volume.renamed : Volume :=
  if oldName ≠ newName then v.modify id fun inode => { inode with name := newName } else v

theorem renamed_lookup (x : Int) (n : Name) :
    (v.renamed id oldName newName).lookup x n = v.lookup x n := by
  rw [Volume.renamed]
  split
  · exact modify_lookup (f := fun inode => { inode with name := newName }) (fun _ => rfl) x n
  · rfl

theorem renamed_node (x : Int) :
    (v.renamed id oldName newName).node x =
      if x = id ∧ oldName ≠ newName then (v.node x).map fun node => (node.1, newName, node.2.2)
      else v.node x := by
  rw [Volume.renamed]
  by_cases hnames : oldName ≠ newName
  · rw [if_pos hnames, modify_node (g := fun node => (node.1, newName, node.2.2)) fun _ => rfl]
    by_cases hx : x = id
    · rw [if_pos hx, if_pos ⟨hx, hnames⟩]
    · rw [if_neg hx, if_neg fun h => hx h.1]
  · rw [if_neg hnames, if_neg fun h => hnames h.2]

theorem renamed_same :
    SameShape v (v.renamed id oldName newName) := by
  rw [Volume.renamed]
  split
  · exact modify_same fun _ => rfl
  · exact .refl v

end

/-- The ladder leaves the parents alone. -/
theorem bailOut_same (v : Volume) (faults : RenameOp → Status) (bailStatus : Status)
    (nameUpdated : Bool) (newDir id : Int) (oldName newName : Name) :
    SameShape v (bailOut v faults bailStatus nameUpdated newDir id oldName newName) := by
  have hnamed : SameShape v (if bailStatus = .B_OK ∧ nameUpdated = true then
      (faults .bailSetName, if faults .bailSetName = .B_OK then
        v.modify id fun inode => { inode with name := oldName } else v)
      else (bailStatus, v)).2 := by
    split
    · simp only
      split
      · exact modify_same fun _ => rfl
      · exact .refl v
    · exact .refl v
  rw [bailOut]
  simp only
  generalize (if bailStatus = .B_OK ∧ nameUpdated = true then
      (faults .bailSetName, if faults .bailSetName = .B_OK then
        v.modify id fun inode => { inode with name := oldName } else v)
      else (bailStatus, v)) = named at hnamed ⊢
  have hremoved : SameShape v (if named.1 = .B_OK then
      named.2.onTree newDir (DirTree.Remove (faults .bailRemove) newName) else named).2 := by
    split
    · exact hnamed.trans (onTree_same ..)
    · exact hnamed
  generalize (if named.1 = .B_OK then
      named.2.onTree newDir (DirTree.Remove (faults .bailRemove) newName) else named) = removed
    at hremoved ⊢
  split
  · exact ⟨hremoved.root, hremoved.shape⟩
  · exact hremoved

/-- **The lowest rungs**: the name and the new entry are taken back. -/
theorem bailOut_spec {faults : RenameOp → Status} {newDir value : Int} {newName : Name}
    (nameUpdated : Bool) (id : Int) (oldName : Name) (hname : faults .bailSetName = .B_OK)
    (hremove : faults .bailRemove = .B_OK) (hlength : keyLengthOk newName = true)
    (hsome : v.lookup newDir newName = some value) :
    (∀ x n, (bailOut v faults .B_OK nameUpdated newDir id oldName newName).lookup x n =
      if x = newDir ∧ n = newName then none else v.lookup x n) ∧
    ∀ x, (bailOut v faults .B_OK nameUpdated newDir id oldName newName).node x =
      if x = id ∧ nameUpdated = true then (v.node x).map fun node => (node.1, oldName, node.2.2)
      else v.node x := by
  -- the volume with the old name again
  obtain ⟨u, hu, hlookup, hnode⟩ : ∃ u : Volume, (if Status.B_OK = .B_OK ∧ nameUpdated = true then
        (faults .bailSetName, if faults .bailSetName = .B_OK then
          v.modify id fun inode => { inode with name := oldName } else v)
        else (Status.B_OK, v)) = (.B_OK, u) ∧
      (∀ x n, u.lookup x n = v.lookup x n) ∧
      ∀ x, u.node x = if x = id ∧ nameUpdated = true then
        (v.node x).map fun node => (node.1, oldName, node.2.2) else v.node x := by
    cases nameUpdated with
    | false => exact ⟨v, by simp, fun _ _ => rfl, fun x => by simp⟩
    | true =>
      refine ⟨v.modify id fun inode => { inode with name := oldName }, by simp [hname],
        modify_lookup fun _ => rfl, fun x => ?_⟩
      rw [modify_node (g := fun node => (node.1, oldName, node.2.2)) fun _ => rfl]
      simp
  obtain ⟨hok, hentry⟩ := onTree_remove (v := u) hlength ((hlookup ..).trans hsome)
  have hresult : bailOut v faults .B_OK nameUpdated newDir id oldName newName =
      (u.onTree newDir (DirTree.Remove .B_OK newName)).2 := by
    unfold bailOut
    rw [hu, hremove]
    simp only [if_true, hok, ne_eq, not_true_eq_false, if_false]
  rw [hresult]
  refine ⟨fun x n => ?_, fun x => ?_⟩
  · rw [hentry.lookup, hlookup]
  · rw [hentry.node, hnode]

/-- Whatever happens in it, `setParent` sets the parent. -/
theorem setParent_reparented (v : Volume) (faults : RenameOp → Status) (oldDir newDir id : Int)
    (isDirectory : Bool) :
    Reparented v (setParent v faults oldDir newDir id isDirectory).2.2 id newDir := by
  have hparent := modify_reparented v id newDir
  rw [setParent]
  simp only
  generalize (v.modify id fun inode => { inode with parent := newDir }) = w at hparent ⊢
  have hmoved : Reparented v (if oldDir ≠ newDir ∧ isDirectory = true then
      if w.GetTree (faults .getMovedTree) id = .B_OK then
        ((w.onTree id (DirTree.Replace (faults .replaceParent) dotDot newDir)).1, true,
          (w.onTree id (DirTree.Replace (faults .replaceParent) dotDot newDir)).2)
      else (w.GetTree (faults .getMovedTree) id, false, w)
      else (Status.B_OK, false, w)).2.2 id newDir := by
    split
    · split
      · exact hparent.trans_same (onTree_same ..)
      · exact hparent
    · exact hparent
  generalize (if oldDir ≠ newDir ∧ isDirectory = true then
      if w.GetTree (faults .getMovedTree) id = .B_OK then
        ((w.onTree id (DirTree.Replace (faults .replaceParent) dotDot newDir)).1, true,
          (w.onTree id (DirTree.Replace (faults .replaceParent) dotDot newDir)).2)
      else (w.GetTree (faults .getMovedTree) id, false, w)
      else (Status.B_OK, false, w)) = moved at hmoved ⊢
  split
  · exact hmoved
  · exact hmoved

theorem setParent_ok {faults : RenameOp → Status} {oldDir newDir id : Int}
    {isDirectory : Bool} (hmove : oldDir ≠ newDir → isDirectory = true →
      (∃ inode, v.inode id = some inode ∧ inode.isDirectory = true) ∧
      (∃ value, v.lookup id dotDot = some value) ∧ faults .getMovedTree = .B_OK ∧
      faults .replaceParent = .B_OK) :
    (setParent v faults oldDir newDir id isDirectory).1 = faults .writeBack := by
  rw [setParent]
  simp only
  by_cases h : oldDir ≠ newDir ∧ isDirectory = true
  · obtain ⟨⟨inode, hinode, hdir⟩, ⟨value, hdots⟩, htree, hreplace⟩ := hmove h.1 h.2
    have hlookup : (v.modify id fun inode => { inode with parent := newDir }).lookup id dotDot =
        some value :=
      (modify_lookup (f := fun inode => { inode with parent := newDir }) (fun _ => rfl) id
        dotDot).trans hdots
    have hget : (v.modify id fun inode => { inode with parent := newDir }).GetTree
        (faults .getMovedTree) id = .B_OK := by
      simp [Volume.GetTree, Volume.modify, hinode, Volume.setInode, hdir, htree]
    have hok := (onTree_replace newDir (by decide) hlookup).1
    simp only [if_pos h, hget, if_true, hreplace, hok]
  · simp only [if_neg h, if_true]

section

variable {v : Volume} {faults : RenameOp → Status} {oldDir newDir id : Int} {oldName newName : Name}
  {isDirectory : Bool}

theorem moveInode_setName (hnames : oldName ≠ newName) (hfault : faults .setName ≠ .B_OK) :
    moveInode v faults oldDir oldName newDir newName id isDirectory =
      (faults .setName, bailOut v faults .B_OK false newDir id oldName newName) := by
  unfold moveInode
  simp only [hnames, hfault, ne_eq, not_false_eq_true, if_true, and_false, decide_false, if_false,
    Bool.false_eq_true]

/-- `SetName()` has succeeded, if it was called. -/
theorem moveInode_renamed (hname : oldName ≠ newName → faults .setName = .B_OK) :
    moveInode v faults oldDir oldName newDir newName id isDirectory =
      let removed := (v.renamed id oldName newName).onTree oldDir
        (DirTree.Remove (faults .removeOld) oldName)
      if removed.1 ≠ .B_OK then
        (removed.1, bailOut removed.2 faults .B_OK (decide (oldName ≠ newName)) newDir id oldName
          newName)
      else
        let moved := setParent removed.2 faults oldDir newDir id isDirectory
        if moved.1 = .B_OK then (.B_OK, moved.2.2)
        else
          let inserted := moved.2.2.onTree oldDir (DirTree.Insert (faults .bailInsert) oldName id)
          let v := if moved.2.1 then
              (inserted.2.onTree id (DirTree.Replace .B_OK dotDot oldDir)).2 else inserted.2
          (moved.1, bailOut v faults inserted.1 (decide (oldName ≠ newName)) newDir id oldName
            newName) := by
  unfold moveInode Volume.renamed
  by_cases hnames : oldName = newName
  · simp only [hnames, ne_eq, not_true_eq_false, if_false, false_and, decide_false,
      Bool.false_eq_true]
  · simp only [hnames, hname hnames, ne_eq, not_false_eq_true, if_true, and_self, decide_true,
      not_true_eq_false, if_false]

theorem moveInode_reparented (newDir : Int) (isDirectory : Bool) (hname : oldName ≠ newName → faults .setName = .B_OK)
    (hremoved : ((v.renamed id oldName newName).onTree oldDir
      (DirTree.Remove (faults .removeOld) oldName)).1 = .B_OK) :
    Reparented v (moveInode v faults oldDir oldName newDir newName id isDirectory).2 id newDir := by
  rw [moveInode_renamed hname]
  have hsame := (renamed_same v id oldName newName).trans (onTree_same
    (v.renamed id oldName newName) oldDir (DirTree.Remove (faults .removeOld) oldName))
  generalize (v.renamed id oldName newName).onTree oldDir
    (DirTree.Remove (faults .removeOld) oldName) = removed at hremoved hsame ⊢
  simp only [hremoved, ne_eq, not_true_eq_false, if_false]
  have hparent := Reparented.of_same hsame
    (setParent_reparented removed.2 faults oldDir newDir id isDirectory)
  generalize setParent removed.2 faults oldDir newDir id isDirectory = moved at hparent ⊢
  split
  · exact hparent
  · refine hparent.trans_same (SameShape.trans ?_ (bailOut_same ..))
    have hinserted := onTree_same moved.2.2 oldDir (DirTree.Insert (faults .bailInsert) oldName id)
    split
    · exact hinserted.trans (onTree_same ..)
    · exact hinserted

end

/-! ## The steps up to the first `Insert()` -/

/-- The steps behind the first `Insert()`, but the ladder. -/
def laterSteps : List RenameOp := [.setName, .removeOld, .getMovedTree, .replaceParent, .writeBack]

/-- Nothing else fails. -/
def OnlyLater (faults : RenameOp → Status) : Prop := ∀ op, op ∉ laterSteps → faults op = .B_OK

/-- What the call has found and done when `moveInode` begins. -/
structure Entered (s w : Indexed) (oldDir : Int) (oldName : Name) (newDir : Int) (newName : Name)
    (id : Int) (inode : Inode) : Prop where
  found : s.volume.Find oldDir oldName = .ok id
  node : s.volume.inode id = some inode
  names : (oldName ≠ [] ∧ newName ≠ []) ∧ oldName ≠ dot ∧ oldName ≠ dotDot ∧ newName ≠ dotDot
  length : keyLengthOk newName = true
  inserted : EntrySet s.volume w.volume newDir newName (some id)
  index : w.nameIndex = s.nameIndex

/-- Nothing of it has changed. -/
structure Unchanged (s s' : Indexed) : Prop where
  lookup : ∀ x n, s'.volume.lookup x n = s.volume.lookup x n
  node : ∀ x, s'.volume.node x = s.volume.node x
  index : s'.nameIndex = s.nameIndex

theorem Unchanged.refl (s : Indexed) : Unchanged s s := ⟨fun _ _ => rfl, fun _ => rfl, rfl⟩

theorem getTree_directory {v : Volume} {dir : Int} (h : v.IsDirectory dir) :
    v.GetTree .B_OK dir = .B_OK := by
  obtain ⟨inode, hinode, hdir, -⟩ := h
  simp [Volume.GetTree, hinode, hdir]

/-- The call ends in front of `moveInode` with nothing changed, or it gets there, and later failures
make no difference to that. -/
theorem bfs_rename_enters {s : Indexed} {oldDir newDir : Int} {oldName newName : Name} (fuel : Nat)
    (hold : s.volume.IsDirectory oldDir) (hnew : s.volume.IsDirectory newDir)
    (hfree : s.volume.lookup newDir newName = none) :
    (∃ id inode w, Entered s w oldDir oldName newDir newName id inode ∧
      ∀ faults, OnlyLater faults → s.bfs_rename faults fuel oldDir oldName newDir newName =
        some (w.moveInode faults oldDir oldName newDir newName id inode.isDirectory)) ∨
    ∃ r, (∀ faults, OnlyLater faults → s.bfs_rename faults fuel oldDir oldName newDir newName = r) ∧
      ∀ status s', r = some (status, s') → status ≠ .B_OK ∧ Unchanged s s' := by
  have hgetOld := getTree_directory hold
  have hgetNew : (if newDir ≠ oldDir then s.volume.GetTree .B_OK newDir else .B_OK) = .B_OK := by
    rw [getTree_directory hnew, ite_self]
  -- the faults of the early steps
  have hearly : ∀ {faults : RenameOp → Status}, OnlyLater faults → faults .getOldTree = .B_OK ∧
      faults .getNewTree = .B_OK ∧ faults .insert = .B_OK := fun h =>
    ⟨h _ (by decide), h _ (by decide), h _ (by decide)⟩
  by_cases hnames : oldName = [] ∨ newName = [] ∨ oldName = dot ∨ oldName = dotDot ∨
      newName = dot ∨ newName = dotDot
  · refine .inr ⟨some (.B_BAD_VALUE, s), fun faults _ => ?_, fun status s' h => ?_⟩
    · rw [Indexed.bfs_rename, if_pos hnames]
    · cases h
      exact ⟨by simp, .refl s⟩
  cases hfind : s.volume.Find oldDir oldName with
  | error status =>
    refine .inr ⟨some (status, s), fun faults h => ?_, fun status s' h => ?_⟩
    · rw [Indexed.bfs_rename, if_neg hnames, (hearly h).1, hgetOld, if_neg (by simp), hfind]
    · cases h
      refine ⟨fun hok => find_ne_ok (hok ▸ hfind), .refl s⟩
  | ok id =>
    obtain ⟨newDirectory, hnewDirectory, -⟩ := hnew
    cases hinode : s.volume.inode id with
    | none =>
      refine .inr ⟨some (.B_IO_ERROR, s), fun faults h => ?_, fun status s' h => ?_⟩
      · rw [Indexed.bfs_rename, if_neg hnames, (hearly h).1, hgetOld, if_neg (by simp), hfind]
        simp only [hinode]
      · cases h
        exact ⟨by simp, .refl s⟩
    | some inode =>
      have hcall : ∀ faults, OnlyLater faults →
          s.bfs_rename faults fuel oldDir oldName newDir newName =
          (if oldDir ≠ newDir then soarUp s.volume id oldDir fuel newDirectory.parent
            else some .B_OK).map fun status =>
            if status ≠ .B_OK then (status, s)
            else if (s.insertTarget faults newDir newName id).1 ≠ .B_OK then
              s.insertTarget faults newDir newName id
            else (s.insertTarget faults newDir newName id).2.moveInode faults oldDir oldName
              newDir newName id inode.isDirectory := by
        intro faults h
        rw [Indexed.bfs_rename, if_neg hnames, (hearly h).1, hgetOld, if_neg (by simp), hfind]
        simp only [hinode, hnewDirectory, (hearly h).2.1, hgetNew, ne_eq, not_true_eq_false,
          if_false]
      have hinsert : ∀ faults, OnlyLater faults →
          (s.volume.onTree newDir (DirTree.Insert .B_OK newName id)).1 ≠ .B_NAME_IN_USE →
          s.insertTarget faults newDir newName id =
          ((s.volume.onTree newDir (DirTree.Insert .B_OK newName id)).1,
            { s with volume := (s.volume.onTree newDir (DirTree.Insert .B_OK newName id)).2 }) := by
        intro faults h hinUse
        rw [Indexed.insertTarget, (hearly h).2.2]
        simp only [if_neg hinUse]
      cases habove : (if oldDir ≠ newDir then soarUp s.volume id oldDir fuel newDirectory.parent
          else some Status.B_OK) with
      | none =>
        refine .inr ⟨none, fun faults h => ?_, fun status s' h => nomatch h⟩
        rw [hcall faults h, habove]
        rfl
      | some status =>
        by_cases hstatus : status ≠ .B_OK
        · refine .inr ⟨some (status, s), fun faults h => ?_, fun status s' h => ?_⟩
          · rw [hcall faults h, habove, map_some, if_pos hstatus]
          · cases h
            exact ⟨hstatus, .refl s⟩
        by_cases hlength : keyLengthOk newName = true
        · obtain ⟨hok, hentry⟩ := onTree_insert id (by rw [hnewDirectory]; rfl)
            hlength hfree
          have hinUse : (s.volume.onTree newDir (DirTree.Insert .B_OK newName id)).1 ≠
              .B_NAME_IN_USE := by
            rw [hok]
            simp
          refine .inl ⟨id, inode, { s with volume :=
            (s.volume.onTree newDir (DirTree.Insert .B_OK newName id)).2 }, ?_, fun faults h => ?_⟩
          · simp only [not_or] at hnames
            exact ⟨hfind, hinode, ⟨⟨hnames.1, hnames.2.1⟩, hnames.2.2.1, hnames.2.2.2.1,
              hnames.2.2.2.2.2⟩, hlength, hentry, rfl⟩
          · rw [hcall faults h, habove, map_some, if_neg hstatus, hinsert faults h hinUse, hok]
            simp only [ne_eq, not_true_eq_false, if_false]
        · have hbad : (s.volume.onTree newDir (DirTree.Insert .B_OK newName id)).1 =
              .B_BAD_VALUE := by
            simp [Volume.onTree, hnewDirectory, DirTree.Insert, hlength]
          have hinUse : (s.volume.onTree newDir (DirTree.Insert .B_OK newName id)).1 ≠
              .B_NAME_IN_USE := by
            rw [hbad]
            simp
          refine .inr ⟨some (.B_BAD_VALUE, { s with volume :=
            (s.volume.onTree newDir (DirTree.Insert .B_OK newName id)).2 }), fun faults h => ?_,
            fun status s' h => ?_⟩
          · rw [hcall faults h, habove, map_some, if_neg hstatus,
              hinsert faults h hinUse, hbad, if_pos (by simp)]
          · cases h
            refine ⟨by simp, ⟨fun x n => ?_, fun x => onTree_node _ _ _ x, rfl⟩⟩
            exact onTree_failed (by rw [hbad]; simp) x n

/-! ## What a failure leaves behind -/

/-- The entries of the directories say where an inode is and what it is called. -/
structure Volume.Filed (v : Volume) : Prop extends v.Hierarchy where
  filed : ∀ dir name id inode, v.IsDirectory dir → name ≠ dot → name ≠ dotDot →
    v.Find dir name = .ok id → v.inode id = some inode →
      inode.parent = dir ∧ inode.name = name ∧ inode.isContainer = false

/-- The claim about a failed call: both directories' entries, name, parent and `".."` of the inode,
and the name index are the same as before. -/
structure Restored (s s' : Indexed) (oldDir : Int) (oldName : Name) (newDir : Int) : Prop where
  entries : ∀ dir, dir = oldDir ∨ dir = newDir → ∀ n, s'.volume.lookup dir n = s.volume.lookup dir n
  name : ∀ id, s.volume.Find oldDir oldName = .ok id →
    (s'.volume.inode id).map Inode.name = (s.volume.inode id).map Inode.name
  parent : ∀ id, s.volume.Find oldDir oldName = .ok id →
    (s'.volume.inode id).map Inode.parent = (s.volume.inode id).map Inode.parent
  dotDot : ∀ id, s.volume.Find oldDir oldName = .ok id →
    s'.volume.lookup id dotDot = s.volume.lookup id dotDot
  index : s'.nameIndex.map Multiset.ofList = s.nameIndex.map Multiset.ofList

theorem name_eq_of_node {v w : Volume} {x : Int} (h : w.node x = v.node x) :
    (w.inode x).map Inode.name = (v.inode x).map Inode.name := by
  have hname := congrArg (Option.map fun node => node.2.1) h
  rwa [Volume.node, Volume.node, map_map, map_map] at hname

theorem parent_eq_of_node {v w : Volume} {x : Int} (h : w.node x = v.node x) :
    (w.inode x).map Inode.parent = (v.inode x).map Inode.parent := by
  have hparent := congrArg (Option.map fun node => node.1) h
  rwa [Volume.node, Volume.node, map_map, map_map] at hparent

theorem restored_iff {s s' : Indexed} {oldDir newDir : Int} {oldName : Name}
    (hlookup : ∀ x n, s'.volume.lookup x n = s.volume.lookup x n)
    (hnode : ∀ x, s'.volume.node x = s.volume.node x) :
    Restored s s' oldDir oldName newDir ↔
      s'.nameIndex.map Multiset.ofList = s.nameIndex.map Multiset.ofList :=
  ⟨fun h => h.index, fun h => ⟨fun dir _ => hlookup dir, fun id _ => name_eq_of_node (hnode id),
    fun id _ => parent_eq_of_node (hnode id), fun id _ => hlookup id _, h⟩⟩

theorem updateName_index {s : Indexed} {oldName newName : Name} {id : Int}
    (hold : oldName ≠ []) (hnew : newName ≠ []) (hnames : oldName ≠ newName) :
    (s.UpdateName (some oldName) (some newName) id).nameIndex.map Multiset.ofList =
      s.nameIndex.map Multiset.ofList ↔ s.nameIndex = none := by
  rw [Indexed.UpdateName, if_neg (by simp [hold, hnew, hnames])]
  cases hindex : s.nameIndex with
  | none => simp
  | some index =>
    refine ⟨fun h => ?_, nofun⟩
    -- the new key is there once more
    have hperm := Multiset.coe_eq_coe.mp (Option.some.inj h)
    have hcount := hperm.count_eq (newName, id)
    rw [List.count_cons_self, List.count_erase_of_ne (by simp [Ne.symm hnames])] at hcount
    omega

section

variable {s w : Indexed} {oldDir newDir id : Int} {oldName newName : Name} {inode : Inode}

section

variable (h : Entered s w oldDir oldName newDir newName id inode)
include h

theorem Entered.lookupOld :
    s.volume.lookup oldDir oldName = some id ∧ keyLengthOk oldName = true :=
  find_eq_ok h.found

theorem Entered.apart
    (hfree : s.volume.lookup newDir newName = none) : ¬ (oldDir = newDir ∧ oldName = newName) := by
  rintro ⟨rfl, rfl⟩
  rw [h.lookupOld.1] at hfree
  cases hfree

theorem Entered.lookupOld_inserted
    (hfree : s.volume.lookup newDir newName = none) :
    (w.volume.renamed id oldName newName).lookup oldDir oldName = some id := by
  rw [renamed_lookup, h.inserted.lookup, if_neg (h.apart hfree)]
  exact h.lookupOld.1

theorem Entered.node_eq
    (hs : s.volume.Filed) (hold : s.volume.IsDirectory oldDir) :
    s.volume.node id = some (oldDir, oldName, inode.isDirectory) := by
  obtain ⟨hparent, hname, -⟩ := hs.filed oldDir oldName id inode hold h.names.2.1 h.names.2.2.1
    h.found h.node
  rw [Volume.node, h.node, map_some, hparent, hname]

end

variable {faults : RenameOp → Status}

section

variable (h : Entered s w oldDir oldName newDir newName id inode) (hs : s.volume.Filed) (hold : s.volume.IsDirectory oldDir) (hfree : s.volume.lookup newDir newName = none)
include h hs hold hfree

/-- Name and new entry taken back, the volume is the old one. -/
theorem Entered.bailed
    (hfaults : OnlyLater faults) (u : Volume) (nameUpdated : Bool)
    (hlookup : ∀ x n, u.lookup x n = w.volume.lookup x n)
    (hnode : ∀ x, u.node x = if x = id ∧ nameUpdated = true then
      (w.volume.node x).map fun node => (node.1, newName, node.2.2) else w.volume.node x) :
    (∀ x n, (bailOut u faults .B_OK nameUpdated newDir id oldName newName).lookup x n =
      s.volume.lookup x n) ∧
    ∀ x, (bailOut u faults .B_OK nameUpdated newDir id oldName newName).node x =
      s.volume.node x := by
  have hentry : u.lookup newDir newName = some id := by
    rw [hlookup, h.inserted.lookup, if_pos ⟨rfl, rfl⟩]
  obtain ⟨hback, hbacknode⟩ := bailOut_spec nameUpdated id oldName
    (hfaults .bailSetName (by decide)) (hfaults .bailRemove (by decide))
    h.length hentry
  refine ⟨fun x n => ?_, fun x => ?_⟩
  · rw [hback, hlookup, h.inserted.lookup]
    by_cases hx : x = newDir ∧ n = newName
    · rw [if_pos hx, hx.1, hx.2, hfree]
    · rw [if_neg hx, if_neg hx]
  · rw [hbacknode, hnode, h.inserted.node]
    by_cases hx : x = id ∧ nameUpdated = true
    · rw [if_pos hx, if_pos hx, hx.1, h.node_eq hs hold]
      rfl
    · rw [if_neg hx, if_neg hx]

/-- Nothing fails by itself behind the first `Insert()`. -/
theorem Entered.moveInode_ok
    (hname : oldName ≠ newName → faults .setName = .B_OK) (hremove : faults .removeOld = .B_OK)
    (hmove : oldDir ≠ newDir → inode.isDirectory = true →
      faults .getMovedTree = .B_OK ∧ faults .replaceParent = .B_OK)
    (hwrite : faults .writeBack = .B_OK) :
    (w.moveInode faults oldDir oldName newDir newName id inode.isDirectory).1 = .B_OK := by
  obtain ⟨hremoved, hentry⟩ := onTree_remove h.lookupOld.2 (h.lookupOld_inserted hfree)
  have hparent : (setParent ((w.volume.renamed id oldName newName).onTree oldDir
      (DirTree.Remove .B_OK oldName)).2 faults oldDir newDir id inode.isDirectory).1 = .B_OK := by
    rw [setParent_ok, hwrite]
    intro hdirs hdir
    refine ⟨?_, ⟨oldDir, ?_⟩, hmove hdirs hdir⟩
    · -- it is still the directory
      have hnode : ((w.volume.renamed id oldName newName).onTree oldDir
          (DirTree.Remove .B_OK oldName)).2.node id =
          if oldName ≠ newName then some (oldDir, newName, true) else some (oldDir, oldName, true) := by
        rw [hentry.node, renamed_node, h.inserted.node, h.node_eq hs hold, hdir]
        simp
      have hsome : ∃ p n, ((w.volume.renamed id oldName newName).onTree oldDir
          (DirTree.Remove .B_OK oldName)).2.node id = some (p, n, true) := by
        split at hnode
        · exact ⟨_, _, hnode⟩
        · exact ⟨_, _, hnode⟩
      obtain ⟨p, n, hsome⟩ := hsome
      obtain ⟨node, hinode, heq⟩ := map_eq_some_iff.mp hsome
      exact ⟨node, hinode, congrArg (fun t => t.2.2) heq⟩
    · -- and has its `".."`
      have hplain := (hs.filed oldDir oldName id inode hold h.names.2.1 h.names.2.2.1 h.found
        h.node).2.2
      have hdots := (find_eq_ok (hs.entry oldDir oldName id hold ⟨inode, h.node, hdir, hplain⟩
        h.names.2.1 h.names.2.2.1 h.found).2.2).1
      rw [hentry.lookup, if_neg fun hx => h.names.2.2.1 hx.2.symm, renamed_lookup,
        h.inserted.lookup, if_neg fun hx => h.names.2.2.2 hx.2.symm, hdots]
  rw [Indexed.moveInode]
  simp only
  rw [moveInode_renamed hname, hremove]
  simp only [hremoved, hparent, ne_eq, not_true_eq_false, if_false, if_true]

theorem Entered.restored_setName
    (hfaults : OnlyLater faults) (hnames : oldName ≠ newName) (hfault : faults .setName ≠ .B_OK) :
    Restored s (w.moveInode faults oldDir oldName newDir newName id inode.isDirectory).2 oldDir
      oldName newDir := by
  obtain ⟨hlookup, hnode⟩ := h.bailed hs hold hfree hfaults w.volume false
    (fun _ _ => rfl) (fun x => by simp)
  rw [Indexed.moveInode]
  simp only [if_neg fun hc : oldName ≠ newName ∧ faults .setName = .B_OK => hfault hc.2]
  rw [moveInode_setName hnames hfault]
  exact (restored_iff hlookup hnode).mpr (congrArg _ h.index)

end

section

variable (h : Entered s w oldDir oldName newDir newName id inode)
include h

theorem Entered.index_iff (hname : oldName ≠ newName → faults .setName = .B_OK)
    {isDirectory : Bool} :
    (w.moveInode faults oldDir oldName newDir newName id isDirectory).2.nameIndex.map
      Multiset.ofList = s.nameIndex.map Multiset.ofList ↔ oldName = newName ∨ s.nameIndex = none := by
  rw [Indexed.moveInode, ← h.index]
  by_cases hnames : oldName = newName
  · simp [hnames]
  · simp only [ne_eq, hnames, not_false_eq_true, hname hnames, and_self, if_true, false_or]
    exact updateName_index h.names.1.1 h.names.1.2 hnames

/-- The removal of the old entry fails: everything but the index is restored. -/
theorem Entered.restored_removeOld
    (hs : s.volume.Filed) (hold : s.volume.IsDirectory oldDir)
    (hfree : s.volume.lookup newDir newName = none)
    (hfaults : OnlyLater faults) (hname : oldName ≠ newName → faults .setName = .B_OK)
    (hfault : faults .removeOld ≠ .B_OK) :
    Restored s (w.moveInode faults oldDir oldName newDir newName id inode.isDirectory).2 oldDir
      oldName newDir ↔ oldName = newName ∨ s.nameIndex = none := by
  obtain ⟨hfailed, hsame⟩ := onTree_remove_fault h.lookupOld.2 hfault (h.lookupOld_inserted hfree)
  obtain ⟨hlookup, hnode⟩ := h.bailed hs hold hfree hfaults
    ((w.volume.renamed id oldName newName).onTree oldDir
      (DirTree.Remove (faults .removeOld) oldName)).2 (decide (oldName ≠ newName))
    (fun x n => by rw [hsame, renamed_lookup])
    (fun x => by rw [onTree_node, renamed_node]; simp only [decide_eq_true_eq])
  have hmoved : moveInode w.volume faults oldDir oldName newDir newName id inode.isDirectory =
      (faults .removeOld, bailOut ((w.volume.renamed id oldName newName).onTree oldDir
        (DirTree.Remove (faults .removeOld) oldName)).2 faults .B_OK (decide (oldName ≠ newName))
        newDir id oldName newName) := by
    rw [moveInode_renamed hname]
    simp only [hfailed, if_pos hfault]
  rw [restored_iff, h.index_iff hname]
  · intro x n
    rw [Indexed.moveInode]
    simp only [hmoved]
    exact hlookup x n
  · intro x
    rw [Indexed.moveInode]
    simp only [hmoved]
    exact hnode x

/-- Behind the removal of the old entry, a failure leaves the new parent. -/
theorem Entered.parent_moved
    (hs : s.volume.Filed) (hold : s.volume.IsDirectory oldDir)
    (hfree : s.volume.lookup newDir newName = none)
    (hname : oldName ≠ newName → faults .setName = .B_OK) (hremove : faults .removeOld = .B_OK)
    (hrestored : Restored s (w.moveInode faults oldDir oldName newDir newName id
      inode.isDirectory).2 oldDir oldName newDir) : oldDir = newDir := by
  have hremoved : ((w.volume.renamed id oldName newName).onTree oldDir
      (DirTree.Remove (faults .removeOld) oldName)).1 = .B_OK := by
    rw [hremove]
    exact (onTree_remove h.lookupOld.2 (h.lookupOld_inserted hfree)).1
  have hparent := (moveInode_reparented newDir inode.isDirectory hname hremoved).shape id
  simp only [if_true] at hparent
  have hinserted : ∃ node, w.volume.inode id = some node := by
    have hnode := h.inserted.node id
    rw [h.node_eq hs hold] at hnode
    obtain ⟨node, hnode, -⟩ := map_eq_some_iff.mp hnode
    exact ⟨node, hnode⟩
  obtain ⟨node, hnode⟩ := hinserted
  rw [hnode, map_some] at hparent
  obtain ⟨after, hafter, hshape⟩ := map_eq_some_iff.mp hparent
  have hsame := hrestored.parent id h.found
  have hvolume : (w.moveInode faults oldDir oldName newDir newName id inode.isDirectory).2.volume =
      (moveInode w.volume faults oldDir oldName newDir newName id inode.isDirectory).2 := rfl
  rw [hvolume, hafter, h.node, map_some, map_some, Option.some.injEq] at hsame
  obtain ⟨hold', -, -⟩ := hs.filed oldDir oldName id inode hold h.names.2.1 h.names.2.2.1 h.found
    h.node
  rw [← hold', ← hsame]
  exact congrArg Prod.fst hshape

end

/-- `WriteBack()` fails within one directory: everything but the index is restored. -/
theorem Entered.restored_writeBack (h : Entered s w oldDir oldName oldDir newName id inode)
    (hs : s.volume.Filed) (hold : s.volume.IsDirectory oldDir)
    (hfree : s.volume.lookup oldDir newName = none)
    (hfaults : OnlyLater faults) (hname : faults .setName = .B_OK)
    (hremove : faults .removeOld = .B_OK) (hfault : faults .writeBack ≠ .B_OK) :
    Restored s (w.moveInode faults oldDir oldName oldDir newName id inode.isDirectory).2 oldDir
      oldName oldDir ↔ s.nameIndex = none := by
  have hnames : oldName ≠ newName := fun heq => h.apart hfree ⟨rfl, heq⟩
  obtain ⟨hremoved, hentry⟩ := onTree_remove h.lookupOld.2 (h.lookupOld_inserted hfree)
  -- the volume after the removal, with the parent set, and with the entry back again
  obtain ⟨u, hu⟩ : ∃ u, u = ((w.volume.renamed id oldName newName).onTree oldDir
      (DirTree.Remove .B_OK oldName)).2.modify id fun inode => { inode with parent := oldDir } :=
    ⟨_, rfl⟩
  have hulookup : ∀ x n, u.lookup x n = if x = oldDir ∧ n = oldName then none
      else w.volume.lookup x n := by
    intro x n
    rw [hu, modify_lookup (f := fun inode => { inode with parent := oldDir }) fun _ => rfl,
      hentry.lookup, renamed_lookup]
  have hunode : ∀ x, u.node x = if x = id then
      (w.volume.node x).map fun node => (node.1, newName, node.2.2) else w.volume.node x := by
    intro x
    rw [hu, modify_node (g := fun node => (oldDir, node.2)) fun _ => rfl, hentry.node, renamed_node]
    by_cases hx : x = id
    · rw [if_pos hx, if_pos hx, if_pos ⟨hx, hnames⟩, hx, h.inserted.node, h.node_eq hs hold]
      rfl
    · rw [if_neg hx, if_neg hx, if_neg fun hc => hx hc.1]
  have hudir : (u.inode oldDir).isSome := by
    have hsome : (u.node oldDir).isSome := by
      obtain ⟨directory, hdirectory, -⟩ := hold
      have hnode : (w.volume.node oldDir).isSome := by
        rw [h.inserted.node, Volume.node, hdirectory]
        rfl
      rw [hunode]
      split
      · rwa [isSome_map]
      · exact hnode
    rwa [Volume.node, isSome_map] at hsome
  obtain ⟨hinserted, hback⟩ := onTree_insert id hudir h.lookupOld.2
    ((hulookup ..).trans (if_pos ⟨rfl, rfl⟩))
  obtain ⟨hlookup, hnode⟩ := h.bailed hs hold hfree hfaults
    (u.onTree oldDir (DirTree.Insert .B_OK oldName id)).2 true
    (fun x n => by
      rw [hback.lookup, hulookup]
      by_cases hx : x = oldDir ∧ n = oldName
      · rw [if_pos hx, hx.1, hx.2, h.inserted.lookup, if_neg (h.apart hfree), h.lookupOld.1]
      · rw [if_neg hx, if_neg hx])
    (fun x => by rw [hback.node, hunode]; simp)
  have hmoved : moveInode w.volume faults oldDir oldName oldDir newName id inode.isDirectory =
      (faults .writeBack, bailOut (u.onTree oldDir (DirTree.Insert .B_OK oldName id)).2 faults
        .B_OK true oldDir id oldName newName) := by
    have hset : setParent ((w.volume.renamed id oldName newName).onTree oldDir
        (DirTree.Remove .B_OK oldName)).2 faults oldDir oldDir id inode.isDirectory =
        (faults .writeBack, false, u) := by
      rw [hu, setParent]
      simp
    rw [moveInode_renamed fun _ => hname, hremove]
    simp only [hremoved, hset, hfaults .bailInsert (by decide), hinserted, hnames, ne_eq,
      not_true_eq_false, not_false_eq_true, if_false, hfault, decide_true, Bool.false_eq_true]
  rw [restored_iff, h.index_iff fun _ => hname, or_iff_right hnames]
  · intro x n
    rw [Indexed.moveInode]
    simp only [hmoved]
    exact hlookup x n
  · intro x
    rw [Indexed.moveInode]
    simp only [hmoved]
    exact hnode x

end

/-- One failure. -/
def oneFault (op : RenameOp) (fault : Status) : RenameOp → Status :=
  update (fun _ => .B_OK) op fault

theorem oneFault_onlyLater {op : RenameOp} (h : op ∈ laterSteps) (fault : Status) :
    OnlyLater (oneFault op fault) := by
  intro op' hop'
  have hne : op' ≠ op := by
    rintro rfl
    exact hop' h
  rw [oneFault, update_of_ne hne]

theorem oneFault_ne {op op' : RenameOp} (h : op' ≠ op) (fault : Status) :
    oneFault op fault op' = .B_OK := update_of_ne h ..

/-- **A failing rename restores the state** exactly if it would have failed anyway, the failing step
is `SetName()`, or it is the removal of the old entry and the name stays the same. In a volume
without a name index, it may also be the removal with a new name, and `WriteBack()` within one
directory. -/
theorem Indexed.bfs_rename_restores_iff {s s' : Indexed} {op : RenameOp} {fault status : Status}
    {fuel : Nat} {oldDir newDir : Int} {oldName newName : Name} (hs : s.volume.Filed)
    (hold : s.volume.IsDirectory oldDir) (hnew : s.volume.IsDirectory newDir)
    (hfree : s.volume.lookup newDir newName = none) (hop : op ∈ laterSteps) (hfault : fault ≠ .B_OK)
    (h : s.bfs_rename (oneFault op fault) fuel oldDir oldName newDir newName = some (status, s'))
    (hstatus : status ≠ .B_OK) :
    Restored s s' oldDir oldName newDir ↔
      ((∃ s'', s.bfs_rename (fun _ => .B_OK) fuel oldDir oldName newDir newName = some (.B_OK, s'')) →
        op = .setName ∨ op = .removeOld ∧ (oldName = newName ∨ s.nameIndex = none) ∨
          op = .writeBack ∧ oldDir = newDir ∧ s.nameIndex = none) := by
  have honly := oneFault_onlyLater hop fault
  have hself : oneFault op fault op = fault := update_self ..
  rcases bfs_rename_enters fuel hold hnew hfree with ⟨id, inode, w, hw, hcall⟩ | ⟨r, hcall, hr⟩
  · rw [hcall _ honly] at h
    obtain rfl : (w.moveInode (oneFault op fault) oldDir oldName newDir newName id
        inode.isDirectory).2 = s' := congrArg Prod.snd (Option.some.inj h)
    have hfails : (w.moveInode (oneFault op fault) oldDir oldName newDir newName id
        inode.isDirectory).1 ≠ .B_OK := by
      rw [congrArg Prod.fst (Option.some.inj h)]
      exact hstatus
    -- without the failure the call succeeds
    have hsucceeds : ∃ s'', s.bfs_rename (fun _ => .B_OK) fuel oldDir oldName newDir newName =
        some (.B_OK, s'') := by
      have hok : (w.moveInode (fun _ => .B_OK) oldDir oldName newDir newName id
          inode.isDirectory).1 = .B_OK :=
        hw.moveInode_ok hs hold hfree (fun _ => rfl) rfl (fun _ _ => ⟨rfl, rfl⟩) rfl
      rw [hcall _ fun _ _ => rfl]
      exact ⟨_, congrArg some (Prod.ext hok rfl)⟩
    rw [forall_prop_of_true hsucceeds]
    by_cases hset : op = .setName
    · subst hset
      have hnames : oldName ≠ newName := by
        intro heq
        exact hfails (hw.moveInode_ok hs hold hfree (fun hne => absurd heq hne)
          (oneFault_ne (by decide) fault) (fun _ _ => ⟨oneFault_ne (by decide) fault,
            oneFault_ne (by decide) fault⟩) (oneFault_ne (by decide) fault))
      exact ⟨fun _ => .inl rfl, fun _ => hw.restored_setName hs hold hfree honly hnames
        (by rw [hself]; exact hfault)⟩
    have hname : oneFault op fault .setName = .B_OK := oneFault_ne (Ne.symm hset) fault
    by_cases hremove : op = .removeOld
    · subst hremove
      rw [hw.restored_removeOld hs hold hfree honly (fun _ => hname) (by rw [hself]; exact hfault)]
      simp
    have hremoved : oneFault op fault .removeOld = .B_OK := oneFault_ne (Ne.symm hremove) fault
    -- from here on, the parent is lost if it has changed
    have hparent := hw.parent_moved hs hold hfree (fun _ => hname) hremoved
    by_cases hwrite : op = .writeBack
    · subst hwrite
      by_cases hdirs : oldDir = newDir
      · subst hdirs
        rw [hw.restored_writeBack hs hold hfree honly hname hremoved (by rw [hself]; exact hfault)]
        simp
      · exact ⟨fun hrestored => absurd (hparent hrestored) hdirs, fun hc => by simp [hdirs] at hc⟩
    · have hmoved : oldDir ≠ newDir := by
        intro heq
        exact hfails (hw.moveInode_ok hs hold hfree (fun _ => hname) hremoved
          (fun hne => absurd heq hne) (oneFault_ne (Ne.symm hwrite) fault))
      exact ⟨fun hrestored => absurd (hparent hrestored) hmoved,
        fun hc => by simp [hset, hremove, hwrite] at hc⟩
  · rw [hcall _ honly] at h
    obtain ⟨-, hlookup, hnode, hindex⟩ := hr status s' h
    refine ⟨fun _ hsucceeds => ?_, fun _ => (restored_iff hlookup hnode).mpr (congrArg _ hindex)⟩
    obtain ⟨s'', hs''⟩ := hsucceeds
    rw [hcall _ fun _ _ => rfl] at hs''
    exact absurd rfl (hr _ _ hs'').1

/-- A hierarchy stays one if only names change. -/
theorem Volume.Hierarchy.of_same {v w : Volume} (h : v.Hierarchy) (hsame : SameShape v w)
    (hlookup : ∀ x n, w.lookup x n = v.lookup x n) : w.Hierarchy := by
  have hparent : w.parent = v.parent := by
    funext x
    have hx := congrArg (Option.map Prod.fst) (hsame.shape x)
    rw [map_map, map_map] at hx
    exact congrArg (fun p => Option.getD p x) hx
  have hdirectory : ∀ x, w.IsDirectory x → v.IsDirectory x := by
    intro x hx
    obtain ⟨inode, hinode, hdir, hplain⟩ := hx
    have hshape := hsame.shape x
    rw [hinode] at hshape
    obtain ⟨inode', hinode', heq⟩ := map_eq_some_iff.mp hshape.symm
    rw [Inode.shape, Inode.shape, Prod.mk.injEq, Prod.mk.injEq] at heq
    exact ⟨inode', hinode', heq.2.1.trans hdir, heq.2.2.trans hplain⟩
  have hdirectory' : ∀ x, v.IsDirectory x → w.IsDirectory x := by
    intro x hx
    obtain ⟨inode, hinode, hdir, hplain⟩ := hx
    have hshape := hsame.shape x
    rw [hinode] at hshape
    obtain ⟨inode', hinode', heq⟩ := map_eq_some_iff.mp hshape
    rw [Inode.shape, Inode.shape, Prod.mk.injEq, Prod.mk.injEq] at heq
    exact ⟨inode', hinode', heq.2.1.trans hdir, heq.2.2.trans hplain⟩
  have hsome : ∀ x, w.IsDirectory x → (w.inode x).isSome := by
    rintro x ⟨inode, hinode, -⟩
    rw [hinode]
    rfl
  have hsome' : ∀ x, v.IsDirectory x → (v.inode x).isSome := by
    rintro x ⟨inode, hinode, -⟩
    rw [hinode]
    rfl
  have hfind : ∀ x n, w.IsDirectory x → ∀ value, w.Find x n = .ok value ↔ v.Find x n = .ok value := by
    intro x n hx value
    constructor
    · intro hf
      obtain ⟨hl, hlength⟩ := find_eq_ok hf
      rw [find_of_lookup (hsome' x (hdirectory x hx)) hlength, ← hlookup, hl]
    · intro hf
      obtain ⟨hl, hlength⟩ := find_eq_ok hf
      rw [find_of_lookup (hsome x hx) hlength, hlookup, hl]
  refine ⟨fun x hx => ?_, fun x hx => ?_, fun dir name x hdir hx hdot hdots hf => ?_⟩
  · rw [hparent, hsame.root]
    exact h.reaches x (hdirectory x hx)
  · rw [hparent]
    exact hdirectory' _ (h.parent x (hdirectory x hx))
  · rw [hparent, hsame.root, hfind x dotDot hx]
    exact h.entry dir name x (hdirectory dir hdir) (hdirectory x hx) hdot hdots
      ((hfind dir name hdir x).mp hf)

/-- The two directories with their names in their inodes. -/
def namedDirectories : Volume := (twoDirectories.renamed 2 [] [97]).renamed 3 [] [98]

theorem namedDirectories_filed : namedDirectories.Filed where
  toHierarchy := twoDirectories_hierarchy.of_same
    ((renamed_same ..).trans (renamed_same ..))
    fun x n => (renamed_lookup ..).trans (renamed_lookup ..)
  filed := by
    intro dir name id inode hdir hdot hdots hfound hinode
    have hlookup := (find_eq_ok hfound).1
    rw [namedDirectories, renamed_lookup, renamed_lookup] at hlookup
    have hdirs : dir = 1 ∨ dir = 2 ∨ dir = 3 := by
      by_contra hnot
      simp only [not_or] at hnot
      obtain ⟨node, hnode, -⟩ := exists_of_lookup hlookup
      rw [twoDirectories] at hnode
      simp [hnot.1, hnot.2.1, hnot.2.2] at hnode
    rcases hdirs with rfl | rfl | rfl
    · have hentry : List.lookup name [([97], 2), ([98], 3)] = some id := by
        rw [← hlookup]
        exact (plainDirectory_lookup hdot hdots).symm
      simp only [List.lookup_cons, List.lookup_nil] at hentry
      split at hentry
      · rename_i heq
        cases hentry
        cases hinode
        exact ⟨rfl, (eq_of_beq heq).symm, rfl⟩
      · split at hentry
        · rename_i heq
          cases hentry
          cases hinode
          exact ⟨rfl, (eq_of_beq heq).symm, rfl⟩
        · cases hentry
    all_goals
      have hentry : List.lookup name ([] : DirTree) = some id := by
        rw [← hlookup]
        exact (plainDirectory_lookup hdot hdots).symm
      cases hentry

/-- The volume with the index of the names. -/
def indexedDirectories : Indexed := ⟨namedDirectories, some [([97], 2), ([98], 3)]⟩

theorem indexed_isDirectory {id : Int} (h : id = 1 ∨ id = 3) :
    indexedDirectories.volume.IsDirectory id := by
  rcases h with rfl | rfl <;> exact ⟨_, rfl, rfl, rfl⟩

theorem Indexed.exists_rename_fails : ∃ s',
    indexedDirectories.bfs_rename (oneFault .writeBack .B_IO_ERROR) 2 1 [97] 3 [97] =
      some (.B_IO_ERROR, s') ∧ (s'.volume.inode 2).map Inode.parent = some 3 := by
  have hresult : (indexedDirectories.bfs_rename (oneFault .writeBack .B_IO_ERROR) 2 1 [97] 3
      [97]).map (fun r => (r.1, (r.2.volume.inode 2).map Inode.parent)) =
      some (.B_IO_ERROR, some 3) := by decide
  obtain ⟨⟨status, s'⟩, hs', heq⟩ := map_eq_some_iff.mp hresult
  rw [Prod.mk.injEq] at heq
  exact ⟨s', by rw [hs', show status = .B_IO_ERROR from heq.1], heq.2⟩

theorem Indexed.bfs_rename_restores_iff_two : ∃ s', Restored indexedDirectories s' 1 [97] 3 ↔
      ((∃ s'', indexedDirectories.bfs_rename (fun _ => .B_OK) 2 1 [97] 3 [97] = some (.B_OK, s'')) →
        RenameOp.writeBack = .setName ∨ RenameOp.writeBack = .removeOld ∧
            (([97] : Name) = [97] ∨ indexedDirectories.nameIndex = none) ∨
          RenameOp.writeBack = .writeBack ∧ (1 : Int) = 3 ∧ indexedDirectories.nameIndex = none) := by
  obtain ⟨s', hs', -⟩ := Indexed.exists_rename_fails
  exact ⟨s', Indexed.bfs_rename_restores_iff namedDirectories_filed (indexed_isDirectory (.inl rfl))
    (indexed_isDirectory (.inr rfl)) (by decide) (by decide) (by decide) hs' (by decide)⟩

/-- The inode that could not be written back has the new directory as its parent. -/
theorem Indexed.bfs_rename_leaves_parent : ¬ ∀ (s s' : Indexed) (op : RenameOp)
    (fault status : Status) (fuel : Nat) (oldDir newDir : Int) (oldName newName : Name),
    s.volume.Filed → s.volume.IsDirectory oldDir → s.volume.IsDirectory newDir →
    s.volume.lookup newDir newName = none → op ∈ laterSteps → fault ≠ .B_OK →
    s.bfs_rename (oneFault op fault) fuel oldDir oldName newDir newName = some (status, s') →
    status ≠ .B_OK → Restored s s' oldDir oldName newDir := by
  intro hclaim
  obtain ⟨s', hs', hparent⟩ := Indexed.exists_rename_fails
  have hrestored := hclaim _ _ _ _ _ _ _ _ _ _ namedDirectories_filed
    (indexed_isDirectory (.inl rfl)) (indexed_isDirectory (.inr rfl)) (by decide) (by decide)
    (by decide) hs' (by decide)
  have hsame := hrestored.parent 2 rfl
  rw [hparent] at hsame
  exact absurd hsame (by decide)

end BFS
