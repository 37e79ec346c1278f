import OpenBeOS.BFS.Rename
import OpenBeOS.Lib.ParentTree

/-! # Renaming keeps the directory tree a tree

What `bfs_rename()` has done when it is successful: the entries that have changed, and the parent
of the inode. The directories still form a tree if and only if the new directory is not the inode
itself.
-/

namespace BFS

open ParentTree Function List Option

/-! ## What the operations change -/

/-- The entry of a directory, whatever its length. -/
def Volume.lookup (v : Volume) (id : Int) (name : Name) : Option Int :=
  (v.inode id).bind fun inode => inode.entries.lookup name

/-- What of an inode makes up the tree. -/
def Inode.shape (inode : Inode) : Int × Bool × Bool :=
  (inode.parent, inode.isDirectory, inode.isContainer)

/-- The inodes are the same but for names, flags and entries. -/
structure SameShape (v v' : Volume) : Prop where
  root : v'.root = v.root
  shape : ∀ id, (v'.inode id).map Inode.shape = (v.inode id).map Inode.shape

theorem SameShape.refl (v : Volume) : SameShape v v := ⟨rfl, fun _ => rfl⟩

theorem SameShape.trans {v v' v'' : Volume} (h : SameShape v v') (h' : SameShape v' v'') :
    SameShape v v'' := ⟨h'.root.trans h.root, fun id => (h'.shape id).trans (h.shape id)⟩

theorem lookup_filter_ne (name : Name) : ∀ (tree : DirTree) (n : Name),
      (tree.filter fun entry => entry.1 ≠ name).lookup n =
        if n = name then none else tree.lookup n
  | [], n => by simp
  | (key, value) :: tree, n => by
    have ih := lookup_filter_ne name tree n
    by_cases hkey : key = name
    · rw [filter_cons_of_neg (by simp [hkey]), ih]
      by_cases hn : n = name
      · rw [if_pos hn, if_pos hn]
      · have hne : (n == key) = false := by rw [hkey]; simpa using hn
        rw [if_neg hn, if_neg hn, lookup_cons, hne]
    · rw [filter_cons_of_pos (by simp [hkey]), lookup_cons, lookup_cons, ih]
      by_cases hn : n = name
      · have hne : (name == key) = false := by simpa using Ne.symm hkey
        simp [hn, hne]
      · rw [if_neg hn, if_neg hn]

theorem lookup_map_replace (name : Name) (id : Int) : ∀ (tree : DirTree) (n : Name),
      (tree.map fun entry => if entry.1 = name then (name, id) else entry).lookup n =
        if n = name then (tree.lookup name).map fun _ => id else tree.lookup n
  | [], n => by simp
  | (key, value) :: tree, n => by
    have ih := lookup_map_replace name id tree n
    rw [map_cons]
    by_cases hkey : key = name
    · rw [if_pos hkey, lookup_cons, ih, hkey, lookup_cons, lookup_cons]
      by_cases hn : n = name
      · simp [hn]
      · have hne : (n == name) = false := by simpa using hn
        simp [hn, hne]
    · have hne : (name == key) = false := by simpa using Ne.symm hkey
      rw [if_neg hkey, lookup_cons, ih, lookup_cons, lookup_cons, hne]
      by_cases hn : n = name
      · simp [hn, hne]
      · rw [if_neg hn, if_neg hn]

/-- An operation that sets or removes the entry of a name, if it is successful. -/
def SetsEntry (op : DirTree → Status × DirTree) (name : Name) (entry : Option Int) : Prop :=
  ∀ tree, (op tree).1 = .B_OK →
    ∀ n, (op tree).2.lookup n = if n = name then entry else tree.lookup n

theorem guarded_eq {fault : Status} {name : Name} {tree : DirTree} {r : Status × DirTree}
    (h : (if ¬ keyLengthOk name then (Status.B_BAD_VALUE, tree)
      else if fault ≠ .B_OK then (fault, tree) else r).1 = .B_OK) :
    (if ¬ keyLengthOk name then (Status.B_BAD_VALUE, tree)
      else if fault ≠ .B_OK then (fault, tree) else r) = r := by
  by_cases hlength : keyLengthOk name = true
  · rw [if_neg (not_not.mpr hlength)] at h ⊢
    by_cases hfault : fault = .B_OK
    · rw [if_neg (not_not.mpr hfault)]
    · rw [if_pos hfault] at h
      exact absurd h hfault
  · rw [if_pos hlength] at h
    cases h

theorem insert_setsEntry (fault : Status) (name : Name) (id : Int) :
    SetsEntry (DirTree.Insert fault name id) name (some id) := by
  intro tree hok n
  rw [DirTree.Insert, guarded_eq hok]
  rw [DirTree.Insert, guarded_eq hok] at hok
  cases hlookup : tree.lookup name with
  | some value => rw [hlookup] at hok; cases hok
  | none =>
    show List.lookup n ((name, id) :: tree) = _
    by_cases hn : n = name
    · simp [hn]
    · have hne : (n == name) = false := by simpa using hn
      simp [lookup_cons, hn, hne]

theorem remove_setsEntry (fault : Status) (name : Name) :
    SetsEntry (DirTree.Remove fault name) name none := by
  intro tree hok n
  rw [DirTree.Remove, guarded_eq hok]
  rw [DirTree.Remove, guarded_eq hok] at hok
  cases hlookup : tree.lookup name with
  | none => rw [hlookup] at hok; cases hok
  | some value => exact lookup_filter_ne name tree n

theorem replace_setsEntry (fault : Status) (name : Name) (id : Int) :
    SetsEntry (DirTree.Replace fault name id) name (some id) := by
  intro tree hok n
  rw [DirTree.Replace, guarded_eq hok]
  rw [DirTree.Replace, guarded_eq hok] at hok
  cases hlookup : tree.lookup name with
  | none => rw [hlookup] at hok; cases hok
  | some value =>
    refine (lookup_map_replace name id tree n).trans ?_
    rw [hlookup]
    rfl

theorem onTree_lookup {v : Volume} {id : Int} {op : DirTree → Status × DirTree} {name : Name}
    {entry : Option Int} (h : SetsEntry op name entry) (hok : (v.onTree id op).1 = .B_OK) :
    ∀ x n, (v.onTree id op).2.lookup x n = if x = id ∧ n = name then entry else v.lookup x n := by
  intro x n
  rw [Volume.onTree] at hok ⊢
  cases hinode : v.inode id with
  | none => rw [hinode] at hok; cases hok
  | some inode =>
    rw [hinode] at hok
    simp only [Volume.lookup, Volume.setInode, update_apply]
    by_cases hx : x = id
    · rw [if_pos hx, hx, hinode]
      simpa using h inode.entries hok n
    · rw [if_neg hx, if_neg (fun hc => hx hc.1)]

theorem setInode_same {v : Volume} {id : Int} {inode inode' : Inode} (h : v.inode id = some inode)
    (hshape : inode'.shape = inode.shape) : SameShape v (v.setInode id inode') := by
  refine ⟨rfl, fun x => ?_⟩
  simp only [Volume.setInode, update_apply]
  by_cases hx : x = id
  · rw [if_pos hx, hx, h]
    exact congrArg some hshape
  · rw [if_neg hx]

theorem onTree_same (v : Volume) (id : Int) (op : DirTree → Status × DirTree) :
    SameShape v (v.onTree id op).2 := by
  rw [Volume.onTree]
  cases hinode : v.inode id with
  | none => exact .refl v
  | some inode => exact setInode_same hinode rfl

theorem modify_same {v : Volume} {id : Int} {f : Inode → Inode}
    (hshape : ∀ inode, (f inode).shape = inode.shape) : SameShape v (v.modify id f) := by
  rw [Volume.modify]
  cases hinode : v.inode id with
  | none => exact .refl v
  | some inode => exact setInode_same hinode (hshape inode)

theorem modify_lookup {v : Volume} {id : Int} {f : Inode → Inode}
    (hentries : ∀ inode, (f inode).entries = inode.entries) (x : Int) (n : Name) :
    (v.modify id f).lookup x n = v.lookup x n := by
  rw [Volume.modify]
  cases hinode : v.inode id with
  | none => rfl
  | some inode =>
    simp only [Volume.lookup, Volume.setInode, update_apply]
    by_cases hx : x = id
    · rw [if_pos hx, hx, hinode]
      exact congrArg (List.lookup n) (hentries inode)
    · rw [if_neg hx]

/-! ## Making room in the new directory -/

theorem find_eq_ok {v : Volume} {id value : Int} {name : Name} (h : v.Find id name = .ok value) :
    v.lookup id name = some value ∧ keyLengthOk name = true := by
  rw [Volume.Find] at h
  rw [Volume.lookup]
  cases hinode : v.inode id with
  | none => rw [hinode] at h; cases h
  | some inode =>
    rw [hinode] at h
    simp only [DirTree.Find] at h
    by_cases hlength : keyLengthOk name = true
    · rw [if_neg (not_not.mpr hlength)] at h
      cases hlookup : inode.entries.lookup name with
      | none => rw [hlookup] at h; cases h
      | some value' =>
        rw [hlookup] at h
        cases h
        exact ⟨hlookup, hlength⟩
    · rw [if_pos hlength] at h
      cases h

theorem find_ne_ok {v : Volume} {id : Int} {name : Name} : v.Find id name ≠ .error .B_OK := by
  rw [Volume.Find]
  cases v.inode id with
  | none => exact nofun
  | some inode =>
    simp only [DirTree.Find]
    split
    · exact nofun
    · cases inode.entries.lookup name <;> exact nofun

theorem find_of_lookup {v : Volume} {id : Int} {name : Name} (hinode : (v.inode id).isSome)
    (hlength : keyLengthOk name = true) :
    v.Find id name = match v.lookup id name with
      | none => .error .B_ENTRY_NOT_FOUND
      | some value => .ok value := by
  obtain ⟨inode, h⟩ := isSome_iff_exists.mp hinode
  rw [Volume.Find, Volume.lookup, h]
  cases hlookup : inode.entries.lookup name with
  | none | some value => simp [DirTree.Find, hlength, hlookup]

theorem insert_inUse {fault : Status} {name : Name} {id : Int} {tree : DirTree}
    (h : (DirTree.Insert fault name id tree).1 ≠ .B_OK) :
    (DirTree.Insert fault name id tree).2 = tree := by
  rw [DirTree.Insert] at h ⊢
  split
  · rfl
  · split
    · rfl
    · cases hlookup : tree.lookup name with
      | some value => rfl
      | none => simp_all

section

variable {v : Volume} {id value : Int} {name : Name} {fault : Status}

theorem insert_fresh
    (hok : (v.onTree id (DirTree.Insert fault name value)).1 = .B_OK) :
    v.lookup id name = none := by
  rw [Volume.onTree] at hok
  rw [Volume.lookup]
  cases hinode : v.inode id with
  | none => rfl
  | some inode =>
    rw [hinode] at hok
    rw [bind_some]
    cases hlookup : inode.entries.lookup name with
    | none => rfl
    | some value' =>
      simp only [DirTree.Insert] at hok
      rw [guarded_eq hok, hlookup] at hok
      cases hok

theorem insert_length
    (hok : (v.onTree id (DirTree.Insert fault name value)).1 = .B_OK) : keyLengthOk name = true := by
  rw [Volume.onTree] at hok
  cases hinode : v.inode id with
  | none => rw [hinode] at hok; cases hok
  | some inode =>
    rw [hinode] at hok
    by_contra hlength
    simp only [DirTree.Insert] at hok
    rw [if_pos hlength] at hok
    cases hok

theorem onTree_failed
    (h : (v.onTree id (DirTree.Insert fault name value)).1 ≠ .B_OK) (x : Int) (n : Name) :
    (v.onTree id (DirTree.Insert fault name value)).2.lookup x n = v.lookup x n := by
  rw [Volume.onTree] at h ⊢
  cases hinode : v.inode id with
  | none => rfl
  | some inode =>
    rw [hinode] at h
    simp only [Volume.lookup, Volume.setInode, update_apply]
    by_cases hx : x = id
    · rw [if_pos hx, hx, hinode]
      exact congrArg (List.lookup n) (insert_inUse h)
    · rw [if_neg hx]

end

/-- **`Inode::Remove()`** removes the entry, and nothing of the tree above. -/
theorem remove_spec {v : Volume} {faults : RenameOp → Status} {directory : Int} {name : Name}
    {isDirectory : Bool} (hok : (v.Remove faults directory name isDirectory).1 = .B_OK) :
    SameShape v (v.Remove faults directory name isDirectory).2 ∧
      ∀ x n, (v.Remove faults directory name isDirectory).2.lookup x n =
        if x = directory ∧ n = name then none else v.lookup x n := by
  rw [Volume.Remove] at hok ⊢
  cases hfind : v.Find directory name with
  | error status => rw [hfind] at hok; cases hok
  | ok id =>
    rw [hfind] at hok
    simp only at hok ⊢
    cases hinode : v.inode id with
    | none => rw [hinode] at hok; cases hok
    | some inode =>
      rw [hinode] at hok
      simp only at hok ⊢
      split at hok
      · split at hok <;> cases hok
      split at hok
      · cases hok
      split at hok
      · cases hok
      split at hok
      · cases hok
      split at hok
      · cases hok
      rename_i htype hempty hvnode hremoved hwrite
      rw [if_neg htype, if_neg hempty, if_neg hvnode, if_neg hremoved, if_neg hwrite]
      have hsame := onTree_same v directory (DirTree.Remove (faults .removeOther) name)
      have hlookup := onTree_lookup (remove_setsEntry (faults .removeOther) name)
        (not_not.mp hremoved)
      -- the flag changes nothing of the tree
      refine ⟨hsame.trans (modify_same fun _ => rfl), fun x n => ?_⟩
      exact (@modify_lookup _ _ (fun inode => { inode with deleted := true }) (fun _ => rfl)
        x n).trans (hlookup x n)

/-- **The new entry**: it was not there before, and it is the only change. -/
theorem insertTarget_spec {v : Volume} {faults : RenameOp → Status} {newDir id : Int}
    {newName : Name} (hok : (insertTarget v faults newDir newName id).1 = .B_OK) :
    v.lookup newDir newName ≠ some id ∧ keyLengthOk newName = true ∧
      SameShape v (insertTarget v faults newDir newName id).2 ∧
      ∀ x n, (insertTarget v faults newDir newName id).2.lookup x n =
        if x = newDir ∧ n = newName then some id else v.lookup x n := by
  rw [insertTarget] at hok ⊢
  simp only at hok ⊢
  have hsame := onTree_same v newDir (DirTree.Insert (faults .insert) newName id)
  by_cases hinUse : (v.onTree newDir (DirTree.Insert (faults .insert) newName id)).1 = .B_NAME_IN_USE
  · have hfailed := @onTree_failed v newDir id newName (faults .insert) (by rw [hinUse]; exact nofun)
    rw [if_pos hinUse] at hok ⊢
    generalize (v.onTree newDir (DirTree.Insert (faults .insert) newName id)).2 = w
      at hok hsame hfailed ⊢
    cases hfind : w.Find newDir newName with
    | error status => rw [hfind] at hok; cases hok
    | ok clobber =>
      rw [hfind] at hok
      simp only at hok ⊢
      by_cases hclobber : clobber = id
      · rw [if_pos hclobber] at hok
        cases hok
      rw [if_neg hclobber] at hok ⊢
      cases hother : w.inode clobber with
      | none => rw [hother] at hok; cases hok
      | some other =>
        rw [hother] at hok
        simp only at hok ⊢
        by_cases hremoved : (w.Remove faults newDir newName other.isDirectory).1 = .B_OK
        swap
        · rw [if_pos hremoved] at hok
          exact absurd hok hremoved
        rw [if_neg (not_not.mpr hremoved)] at hok ⊢
        obtain ⟨hshape, hlookup⟩ := remove_spec hremoved
        refine ⟨?_, insert_length hok, hsame.trans (hshape.trans (onTree_same ..)), fun x n => ?_⟩
        · rw [← hfailed, (find_eq_ok hfind).1]
          exact fun h => hclobber (Option.some.inj h)
        · rw [onTree_lookup (insert_setsEntry _ _ _) hok, hlookup, hfailed]
          split <;> rfl
  · rw [if_neg hinUse] at hok ⊢
    refine ⟨?_, insert_length hok, hsame, onTree_lookup (insert_setsEntry _ _ _) hok⟩
    rw [insert_fresh hok]
    exact nofun

/-! ## Moving the inode -/

/-- One inode has another parent, otherwise the inodes are the same but for names and entries. -/
structure Reparented (v v' : Volume) (id newDir : Int) : Prop where
  root : v'.root = v.root
  shape : ∀ x, (v'.inode x).map Inode.shape = (v.inode x).map fun inode =>
    if x = id then (newDir, inode.isDirectory, inode.isContainer) else inode.shape

theorem Reparented.trans_same {v v' v'' : Volume} {id newDir : Int} (h : Reparented v v' id newDir)
    (h' : SameShape v' v'') : Reparented v v'' id newDir :=
  ⟨h'.root.trans h.root, fun x => (h'.shape x).trans (h.shape x)⟩

theorem Reparented.of_same {v v' v'' : Volume} {id newDir : Int} (h : SameShape v v')
    (h' : Reparented v' v'' id newDir) : Reparented v v'' id newDir := by
  refine ⟨h'.root.trans h.root, fun x => (h'.shape x).trans ?_⟩
  have hx := h.shape x
  cases hv : v.inode x with
  | none =>
    rw [hv] at hx
    rw [map_eq_none_iff.mp hx]
  | some inode =>
    rw [hv] at hx
    obtain ⟨inode', hv', hshape⟩ := map_eq_some_iff.mp hx
    rw [hv']
    simp only [Inode.shape, Prod.mk.injEq] at hshape
    simp only [map_some, Inode.shape, hshape]

theorem modify_reparented (v : Volume) (id newDir : Int) :
    Reparented v (v.modify id fun inode => { inode with parent := newDir }) id newDir := by
  rw [Volume.modify]
  cases hinode : v.inode id with
  | none =>
    refine ⟨rfl, fun x => ?_⟩
    by_cases hx : x = id
    · rw [hx, hinode]
      rfl
    · simp only [if_neg hx]
  | some inode =>
    refine ⟨rfl, fun x => ?_⟩
    simp only [Volume.setInode, update_apply]
    by_cases hx : x = id
    · rw [if_pos hx, hx, hinode]
      simp [Inode.shape]
    · simp only [if_neg hx]

/-- **The new parent**, in the inode and in its tree. -/
theorem setParent_spec {v : Volume} {faults : RenameOp → Status} {oldDir newDir id : Int}
    {isDirectory : Bool} (hok : (setParent v faults oldDir newDir id isDirectory).1 = .B_OK) :
    Reparented v (setParent v faults oldDir newDir id isDirectory).2.2 id newDir ∧
      ∀ x n, (setParent v faults oldDir newDir id isDirectory).2.2.lookup x n =
        if (x = id ∧ n = dotDot) ∧ oldDir ≠ newDir ∧ isDirectory = true then some newDir
        else v.lookup x n := by
  rw [setParent] at hok ⊢
  simp only at hok ⊢
  have hparent := modify_reparented v id newDir
  have hlookup : ∀ x n, (v.modify id fun inode => { inode with parent := newDir }).lookup x n =
      v.lookup x n := modify_lookup fun _ => rfl
  generalize (v.modify id fun inode => { inode with parent := newDir }) = w at hok hparent hlookup ⊢
  by_cases hmove : oldDir ≠ newDir ∧ isDirectory = true
  · simp only [if_pos hmove] at hok ⊢
    by_cases htree : w.GetTree (faults .getMovedTree) id = .B_OK
    swap
    · simp only [if_neg htree] at hok
      exact absurd hok htree
    simp only [if_pos htree] at hok ⊢
    by_cases hreplaced :
        (w.onTree id (DirTree.Replace (faults .replaceParent) dotDot newDir)).1 = .B_OK
    swap
    · rw [if_neg hreplaced] at hok
      exact absurd hok hreplaced
    rw [if_pos hreplaced] at hok ⊢
    refine ⟨hparent.trans_same (onTree_same ..), fun x n => ?_⟩
    rw [onTree_lookup (replace_setsEntry _ _ _) hreplaced, hlookup]
    by_cases hx : x = id ∧ n = dotDot
    · rw [if_pos hx, if_pos ⟨hx, hmove⟩]
    · rw [if_neg hx, if_neg fun hc => hx hc.1]
  · simp only [if_neg hmove, if_pos] at hok ⊢
    refine ⟨hparent, fun x n => ?_⟩
    rw [if_neg fun hc => hmove hc.2]
    exact hlookup x n

/-- **Moving the inode**: the old entry is gone, and the inode has its new parent. -/
theorem moveInode_spec {v : Volume} {faults : RenameOp → Status} {oldDir newDir id : Int}
    {oldName newName : Name} {isDirectory : Bool}
    (hok : (moveInode v faults oldDir oldName newDir newName id isDirectory).1 = .B_OK) :
    Reparented v (moveInode v faults oldDir oldName newDir newName id isDirectory).2 id newDir ∧
      ∀ x n, (moveInode v faults oldDir oldName newDir newName id isDirectory).2.lookup x n =
        if (x = id ∧ n = dotDot) ∧ oldDir ≠ newDir ∧ isDirectory = true then some newDir
        else if x = oldDir ∧ n = oldName then none else v.lookup x n := by
  rw [moveInode] at hok ⊢
  simp only at hok ⊢
  by_cases hstatus : (if oldName ≠ newName then faults .setName else Status.B_OK) = .B_OK
  swap
  · rw [if_pos hstatus] at hok
    exact absurd hok hstatus
  rw [if_neg (not_not.mpr hstatus)] at hok ⊢
  -- the new name of the inode does not matter
  have hnamed : ∀ b : Bool, SameShape v
      (if b = true then v.modify id fun inode => { inode with name := newName } else v) ∧
      ∀ x n, (if b = true then v.modify id fun inode => { inode with name := newName }
        else v).lookup x n = v.lookup x n := by
    intro b
    cases b with
    | false => exact ⟨.refl v, fun _ _ => rfl⟩
    | true => exact ⟨modify_same fun _ => rfl, modify_lookup fun _ => rfl⟩
  obtain ⟨hsame, hlookup⟩ := hnamed (decide (oldName ≠ newName ∧
    (if oldName ≠ newName then faults .setName else Status.B_OK) = .B_OK))
  generalize (if decide (oldName ≠ newName ∧
    (if oldName ≠ newName then faults .setName else Status.B_OK) = .B_OK) = true then
      v.modify id fun inode => { inode with name := newName } else v) = w at hok hsame hlookup ⊢
  by_cases hremoved : (w.onTree oldDir (DirTree.Remove (faults .removeOld) oldName)).1 = .B_OK
  swap
  · rw [if_pos hremoved] at hok
    exact absurd hok hremoved
  rw [if_neg (not_not.mpr hremoved)] at hok ⊢
  have hgone := onTree_lookup (remove_setsEntry _ _) hremoved
  have hsame' := hsame.trans (onTree_same w oldDir (DirTree.Remove (faults .removeOld) oldName))
  generalize (w.onTree oldDir (DirTree.Remove (faults .removeOld) oldName)).2 = u
    at hok hgone hsame' ⊢
  by_cases hmoved : (setParent u faults oldDir newDir id isDirectory).1 = .B_OK
  swap
  · rw [if_neg hmoved] at hok
    exact absurd hok hmoved
  rw [if_pos hmoved] at hok ⊢
  obtain ⟨hparent, hentries⟩ := setParent_spec hmoved
  refine ⟨.of_same hsame' hparent, fun x n => ?_⟩
  rw [hentries, hgone, hlookup]

/-! ## The whole call -/

/-- What a successful call has found and done. -/
structure Renamed (v v' : Volume) (fuel : Nat) (oldDir : Int) (oldName : Name) (newDir : Int)
    (newName : Name) (id : Int) (inode : Inode) : Prop where
  found : v.Find oldDir oldName = .ok id
  node : v.inode id = some inode
  names : oldName ≠ dot ∧ oldName ≠ dotDot ∧ newName ≠ dotDot
  length : keyLengthOk newName = true
  /-- It did not meet the inode on its way up. -/
  soared : oldDir ≠ newDir → ∃ newDirectory, v.inode newDir = some newDirectory ∧
    soarUp v id oldDir fuel newDirectory.parent = some .B_OK
  fresh : v.lookup newDir newName ≠ some id
  reparented : Reparented v v' id newDir
  lookup : ∀ x n, v'.lookup x n =
    if (x = id ∧ n = dotDot) ∧ oldDir ≠ newDir ∧ inode.isDirectory = true then some newDir
    else if x = oldDir ∧ n = oldName then none
    else if x = newDir ∧ n = newName then some id
    else v.lookup x n

theorem bfs_rename_spec {v v' : Volume} {faults : RenameOp → Status} {fuel : Nat}
    {oldDir newDir : Int} {oldName newName : Name}
    (h : bfs_rename v faults fuel oldDir oldName newDir newName = some (.B_OK, v')) :
    ∃ id inode, Renamed v v' fuel oldDir oldName newDir newName id inode := by
  rw [bfs_rename] at h
  split at h
  · cases h
  rename_i hnames
  simp only [not_or] at hnames
  split at h
  · rename_i htree
    injection h with h
    exact absurd (congrArg Prod.fst h) htree
  cases hfind : v.Find oldDir oldName with
  | error status =>
    rw [hfind] at h
    injection h with h
    rw [Prod.mk.injEq] at h
    rw [h.1] at hfind
    exact absurd hfind find_ne_ok
  | ok id =>
    rw [hfind] at h
    simp only at h
    cases hinode : v.inode id with
    | none => rw [hinode] at h; cases h
    | some inode =>
      cases hnew : v.inode newDir with
      | none => rw [hinode, hnew] at h; cases h
      | some newDirectory =>
        rw [hinode, hnew] at h
        simp only at h
        obtain ⟨status, habove, h⟩ := map_eq_some_iff.mp h
        -- every early return has another status
        by_cases hstatus : status = .B_OK
        swap
        · rw [if_pos hstatus, Prod.mk.injEq] at h
          exact absurd h.1 hstatus
        rw [if_neg (not_not.mpr hstatus)] at h
        by_cases htree : (if newDir ≠ oldDir then v.GetTree (faults .getNewTree) newDir
            else Status.B_OK) = .B_OK
        swap
        · rw [if_pos htree, Prod.mk.injEq] at h
          exact absurd h.1 htree
        rw [if_neg (not_not.mpr htree)] at h
        by_cases htarget : (insertTarget v faults newDir newName id).1 = .B_OK
        swap
        · rw [if_pos htarget] at h
          exact absurd (congrArg Prod.fst h) htarget
        rw [if_neg (not_not.mpr htarget)] at h
        obtain ⟨hfresh, hlength, hsame, hlookup⟩ := insertTarget_spec htarget
        obtain ⟨hparent, hentries⟩ := moveInode_spec (congrArg Prod.fst h)
        rw [h] at hparent hentries
        refine ⟨id, inode, hfind, hinode, ⟨hnames.2.2.1, hnames.2.2.2.1, hnames.2.2.2.2.2⟩,
          hlength, fun hne => ⟨newDirectory, hnew, ?_⟩, hfresh, .of_same hsame hparent, ?_⟩
        · rw [if_pos hne] at habove
          rw [habove, hstatus]
        · intro x n
          rw [hentries, hlookup]

/-! ## The directory tree -/

/-- The parent field of an inode. -/
def Volume.parent (v : Volume) (id : Int) : Int := ((v.inode id).map Inode.parent).getD id

/-- It is a directory for files. -/
def Volume.IsDirectory (v : Volume) (id : Int) : Prop :=
  ∃ inode, v.inode id = some inode ∧ inode.isDirectory = true ∧ inode.isContainer = false

/-- The directories form a tree: each parent field leads to the root, and a directory that is found
in another one has it as its parent. -/
structure Volume.Hierarchy (v : Volume) : Prop where
  reaches : ∀ id, v.IsDirectory id → Reaches v.parent v.root id
  parent : ∀ id, v.IsDirectory id → v.IsDirectory (v.parent id)
  entry : ∀ dir name id, v.IsDirectory dir → v.IsDirectory id → name ≠ dot → name ≠ dotDot →
    v.Find dir name = .ok id → id ≠ v.root ∧ v.parent id = dir ∧ v.Find id dotDot = .ok dir

/-- The claim about a call that leaves `v'`: all directories reach the root, the moved directory
names its new parent, and the entry has moved. -/
structure Volume.Kept (v v' : Volume) (oldDir : Int) (oldName : Name) (newDir : Int)
    (newName : Name) : Prop where
  reaches : ∀ id, v'.IsDirectory id → Reaches v'.parent v'.root id
  moved : ∀ id, v.Find oldDir oldName = .ok id → v'.IsDirectory id →
    v'.parent id = newDir ∧ v'.Find id dotDot = .ok newDir
  target : ∀ id, v.Find oldDir oldName = .ok id → v'.Find newDir newName = .ok id
  source : v'.Find oldDir oldName = .error .B_ENTRY_NOT_FOUND

theorem parent_eq_of_shape {v v' : Volume} {id newDir : Int} {inode : Inode}
    (h : Reparented v v' id newDir) (hinode : v.inode id = some inode) :
    v'.parent = update v.parent id newDir := by
  funext x
  have hx := h.shape x
  rw [Volume.parent, update_apply]
  by_cases hid : x = id
  · rw [hid, hinode] at hx
    simp only [map_some, if_pos] at hx
    obtain ⟨inode', hv', hshape⟩ := map_eq_some_iff.mp hx
    rw [if_pos hid, hid, hv']
    exact congrArg Prod.fst hshape
  · simp only [if_neg hid] at hx
    rw [if_neg hid, Volume.parent]
    cases hv : v.inode x with
    | none =>
      rw [hv] at hx
      rw [map_eq_none_iff.mp hx]
    | some node =>
      rw [hv] at hx
      obtain ⟨node', hv', hshape⟩ := map_eq_some_iff.mp hx
      rw [hv']
      exact congrArg Prod.fst hshape

theorem isDirectory_iff {v v' : Volume} {id newDir : Int} (h : Reparented v v' id newDir) (x : Int) :
    v'.IsDirectory x ↔ v.IsDirectory x := by
  have hx := h.shape x
  rw [Volume.IsDirectory, Volume.IsDirectory]
  cases hv : v.inode x with
  | none =>
    rw [hv] at hx
    rw [map_eq_none_iff.mp hx]
  | some node =>
    rw [hv] at hx
    obtain ⟨node', hv', hshape⟩ := map_eq_some_iff.mp hx
    rw [hv']
    have hflags : node'.isDirectory = node.isDirectory ∧ node'.isContainer = node.isContainer := by
      split at hshape <;> simp_all [Inode.shape]
    simp [hflags.1, hflags.2]

/-- The loop's way up is a walk that does not meet the inode. -/
theorem soarUp_walk {v : Volume} {id oldDir : Int} :
    ∀ {fuel : Nat} {x : Int}, soarUp v id oldDir fuel x = some .B_OK →
      Walk v.parent id (fun y => y = v.root ∨ y = oldDir) x
  | 0, _, h => nomatch h
  | fuel + 1, x, h => by
    rw [soarUp] at h
    split at h
    · cases h
    rename_i hid
    split at h
    · rename_i hstop
      exact .stop hid hstop
    · cases hinode : v.inode x with
      | none => rw [hinode] at h; cases h
      | some node =>
        rw [hinode] at h
        have hparent : v.parent x = node.parent := by
          rw [Volume.parent, hinode]
          rfl
        refine .next hid ?_
        rw [hparent]
        exact soarUp_walk h

/-- In a tree, the loop ends. -/
theorem soarUp_ends {v : Volume} (h : v.Hierarchy) {x : Int} (hx : v.IsDirectory x) :
    ∃ n, ∀ id oldDir fuel, n < fuel → (soarUp v id oldDir fuel x).isSome := by
  obtain ⟨n, hreach⟩ := h.reaches x hx
  refine ⟨n, fun id oldDir fuel hfuel => ?_⟩
  induction hreach generalizing fuel with
  | root =>
    cases fuel with
    | zero => omega
    | succ fuel =>
      rw [soarUp]
      split
      · rfl
      · rw [if_pos (Or.inl rfl)]
        rfl
  | @step n d _ _ ih =>
    cases fuel with
    | zero => omega
    | succ fuel =>
      rw [soarUp]
      split
      · rfl
      · split
        · rfl
        · have hrest := ih (h.parent d hx) fuel (by omega)
          obtain ⟨node, hnode, -⟩ := hx
          have hparent : v.parent d = node.parent := by
            rw [Volume.parent, hnode]
            rfl
          rw [hparent] at hrest
          rw [hnode]
          exact hrest

theorem reaches_file {v : Volume} (h : v.Hierarchy) {id newDir d : Int} (hid : ¬ v.IsDirectory id)
    (hd : v.IsDirectory d) : Reaches (update v.parent id newDir) v.root d := by
  obtain ⟨n, hreach⟩ := h.reaches d hd
  induction hreach with
  | root => exact reaches_root
  | @step n d _ _ ih =>
    have hne : d ≠ id := fun heq => hid (heq ▸ hd)
    refine .of_parent ?_
    rw [update_of_ne hne]
    exact ih (h.parent d hd)

/-- **The tree stays a tree** when the walk has not met the inode, and the new directory is not the
inode itself. -/
theorem Renamed.reaches {v v' : Volume} {fuel : Nat} {oldDir newDir : Int} {oldName newName : Name}
    {id : Int} {inode : Inode} (h : Renamed v v' fuel oldDir oldName newDir newName id inode)
    (hv : v.Hierarchy) (hold : v.IsDirectory oldDir) (hne : id ≠ newDir) {d : Int} (hd : v.IsDirectory d) :
    Reaches (update v.parent id newDir) v.root d := by
  by_cases hid : v.IsDirectory id
  swap
  · exact reaches_file hv hid hd
  obtain ⟨hroot, hparent, -⟩ := hv.entry oldDir oldName id hold hid h.names.1 h.names.2.1 h.found
  refine (hv.reaches d hd).move ?_
  -- the old directory is above the inode
  have hold' : Reaches (update v.parent id newDir) v.root oldDir := by
    have habove := @Reaches.move_parent _ _ _ _ _ newDir (hv.reaches id hid) hroot
    rwa [hparent] at habove
  by_cases hsame : oldDir = newDir
  · rw [← hsame] at hold' ⊢
    exact hold'
  · obtain ⟨newDirectory, hnode, hsoar⟩ := h.soared hsame
    have hp : v.parent newDir = newDirectory.parent := by
      rw [Volume.parent, hnode]
      rfl
    refine .of_parent ?_
    rw [update_of_ne (Ne.symm hne), hp]
    refine (soarUp_walk hsoar).reaches (fun y hy => update_of_ne hy ..) ?_
    rintro y (hy | hy)
    · rw [hy]
      exact reaches_root
    · rw [hy]
      exact hold'

theorem Renamed.not_kept {v v' : Volume} {fuel : Nat} {oldDir newDir : Int} {oldName newName : Name}
    {id : Int} {inode : Inode} (h : Renamed v v' fuel oldDir oldName newDir newName id inode)
    (hv : v.Hierarchy) (hold : v.IsDirectory oldDir) (hnew : v.IsDirectory newDir)
    (hfound : v.Find oldDir oldName = .ok newDir) :
    ¬ v.Kept v' oldDir oldName newDir newName := by
  intro hkept
  have hparent := parent_eq_of_shape h.reparented h.node
  have hid : id = newDir := by
    have := h.found
    rw [hfound] at this
    cases this
    rfl
  rw [← hid] at hnew hparent
  have hreach := hkept.reaches id ((isDirectory_iff h.reparented id).mpr hnew)
  rw [hparent, h.reparented.root] at hreach
  exact not_reaches_self (hv.entry oldDir oldName id hold hnew h.names.1 h.names.2.1 h.found).1 hreach

/-- **`bfs_rename()` keeps the tree a tree** if and only if the old name is not that of the new
directory, for every call that is successful. -/
theorem bfs_rename_keeps {v v' : Volume} {faults : RenameOp → Status} {fuel : Nat}
    {oldDir newDir : Int} {oldName newName : Name} (hv : v.Hierarchy)
    (hold : v.IsDirectory oldDir) (hnew : v.IsDirectory newDir)
    (h : bfs_rename v faults fuel oldDir oldName newDir newName = some (.B_OK, v')) :
    v.Kept v' oldDir oldName newDir newName ↔ v.Find oldDir oldName ≠ .ok newDir := by
  obtain ⟨id, inode, hr⟩ := bfs_rename_spec h
  have hparent := parent_eq_of_shape hr.reparented hr.node
  have hdirectory := isDirectory_iff hr.reparented
  have hroot := hr.reparented.root
  have hsome : ∀ x, v.IsDirectory x → (v'.inode x).isSome := by
    intro x hx
    obtain ⟨node, hnode, -⟩ := (hdirectory x).mpr hx
    rw [hnode]
    rfl
  constructor
  · intro hkept hfound
    exact hr.not_kept hv hold hnew hfound hkept
  · intro hfound
    have hne : id ≠ newDir := fun heq => hfound (heq ▸ hr.found)
    refine ⟨?_, ?_, ?_, ?_⟩
    · intro x hx
      rw [hparent, hroot]
      exact hr.reaches hv hold hne ((hdirectory x).mp hx)
    · intro x hx hxdir
      rw [hr.found] at hx
      cases hx
      have hiddir := (hdirectory id).mp hxdir
      refine ⟨by rw [hparent, update_self], ?_⟩
      rw [find_of_lookup (hsome id hiddir) (by decide), hr.lookup]
      by_cases hsame : oldDir = newDir
      · -- the directory already has the right parent
        obtain ⟨-, -, hdots⟩ := hv.entry oldDir oldName id hold hiddir hr.names.1 hr.names.2.1
          hr.found
        rw [if_neg (fun hc => hc.2.1 hsame), if_neg (fun hc => hr.names.2.1 hc.2.symm),
          if_neg (fun hc => hr.names.2.2 hc.2.symm), (find_eq_ok hdots).1, hsame]
      · have hflag : inode.isDirectory = true := by
          obtain ⟨node, hnode, hflag, -⟩ := hiddir
          rw [hr.node] at hnode
          cases hnode
          exact hflag
        rw [if_pos ⟨⟨rfl, rfl⟩, hsame, hflag⟩]
    · intro x hx
      rw [hr.found] at hx
      cases hx
      rw [find_of_lookup (hsome newDir hnew) hr.length, hr.lookup,
        if_neg (fun hc => hr.names.2.2 hc.1.2)]
      by_cases hplace : newDir = oldDir ∧ newName = oldName
      · have hfresh := hr.fresh
        rw [hplace.1, hplace.2, (find_eq_ok hr.found).1] at hfresh
        exact absurd rfl hfresh
      · rw [if_neg hplace, if_pos ⟨rfl, rfl⟩]
    · rw [find_of_lookup (hsome oldDir hold) (find_eq_ok hr.found).2, hr.lookup,
        if_neg (fun hc => hr.names.2.1 hc.1.2), if_pos ⟨rfl, rfl⟩]

/-- A directory with its entries for itself and its parent. -/
def plainDirectory (id parent : Int) (entries : DirTree) : Inode where
  parent := parent
  isDirectory := true
  isIndex := false
  isContainer := false
  name := []
  deleted := false
  entries := (dot, id) :: (dotDot, parent) :: entries

theorem plainDirectory_lookup {id parent : Int} {entries : DirTree} {name : Name} (h : name ≠ dot)
    (h' : name ≠ dotDot) : (plainDirectory id parent entries).entries.lookup name =
      entries.lookup name := by
  have hdot : (name == dot) = false := by simpa using h
  have hdots : (name == dotDot) = false := by simpa using h'
  simp only [plainDirectory, lookup_cons, hdot, hdots]

/-- The root directory 1 with the directories `"a"` and `"b"`. -/
def twoDirectories : Volume where
  root := 1
  inode := fun id =>
    if id = 1 then some (plainDirectory 1 1 [([97], 2), ([98], 3)])
    else if id = 2 then some (plainDirectory 2 1 [])
    else if id = 3 then some (plainDirectory 3 1 [])
    else none
  panicked := false

theorem twoDirectories_cases {id : Int} (h : twoDirectories.IsDirectory id) :
    id = 1 ∨ id = 2 ∨ id = 3 := by
  obtain ⟨inode, hinode, -⟩ := h
  by_contra hnot
  simp only [not_or] at hnot
  have hnone : twoDirectories.inode id = none := by
    show (if id = 1 then _ else if id = 2 then _ else if id = 3 then _ else none) = none
    rw [if_neg hnot.1, if_neg hnot.2.1, if_neg hnot.2.2]
  rw [hnone] at hinode
  cases hinode

theorem twoDirectories_isDirectory {id : Int} (h : id = 1 ∨ id = 2 ∨ id = 3) :
    twoDirectories.IsDirectory id := by
  rcases h with rfl | rfl | rfl <;> exact ⟨_, rfl, rfl, rfl⟩

theorem twoDirectories_hierarchy : twoDirectories.Hierarchy where
  reaches := by
    intro id h
    refine .of_parent ?_
    have hparent : twoDirectories.parent id = 1 := by
      rcases twoDirectories_cases h with rfl | rfl | rfl <;> rfl
    rw [hparent]
    exact reaches_root
  parent := by
    intro id h
    have hparent : twoDirectories.parent id = 1 := by
      rcases twoDirectories_cases h with rfl | rfl | rfl <;> rfl
    rw [hparent]
    exact twoDirectories_isDirectory (Or.inl rfl)
  entry := by
    intro dir name id hdir hid hdot hdots hfound
    have hlookup := (find_eq_ok hfound).1
    rcases twoDirectories_cases hdir with rfl | rfl | rfl
    · have hentry : List.lookup name [([97], 2), ([98], 3)] = some id := by
        rw [← hlookup]
        exact (plainDirectory_lookup hdot hdots).symm
      simp only [lookup_cons, lookup_nil] at hentry
      split at hentry
      · cases hentry
        exact ⟨by decide, rfl, rfl⟩
      · split at hentry
        · cases hentry
          exact ⟨by decide, rfl, rfl⟩
        · cases hentry
    all_goals
      have hentry : List.lookup name ([] : DirTree) = some id := by
        rw [← hlookup]
        exact (plainDirectory_lookup hdot hdots).symm
      cases hentry

theorem exists_of_status {r : Option (Status × Volume)} {status : Status}
    (h : r.map Prod.fst = some status) : ∃ v, r = some (status, v) := by
  obtain ⟨⟨status', v⟩, hr, hs⟩ := map_eq_some_iff.mp h
  cases hs
  exact ⟨v, hr⟩

theorem bfs_rename_keeps_two : ∃ v',
    bfs_rename twoDirectories (fun _ => .B_OK) 2 1 [97] 3 [99] = some (.B_OK, v') ∧
      (twoDirectories.Kept v' 1 [97] 3 [99] ↔ twoDirectories.Find 1 [97] ≠ .ok 3) := by
  have hok : (bfs_rename twoDirectories (fun _ => .B_OK) 2 1 [97] 3 [99]).map Prod.fst =
      some .B_OK := by decide
  obtain ⟨v', hv'⟩ := exists_of_status hok
  exact ⟨v', hv', bfs_rename_keeps twoDirectories_hierarchy
    (twoDirectories_isDirectory (by decide)) (twoDirectories_isDirectory (by decide)) hv'⟩

/-- `"b"` is moved into itself. -/
theorem bfs_rename_into_itself : ¬ ∀ (v v' : Volume) (faults : RenameOp → Status) (fuel : Nat)
    (oldDir newDir : Int) (oldName newName : Name), v.Hierarchy → v.IsDirectory oldDir →
    v.IsDirectory newDir →
    bfs_rename v faults fuel oldDir oldName newDir newName = some (.B_OK, v') →
    v.Kept v' oldDir oldName newDir newName := by
  intro hall
  have hok : (bfs_rename twoDirectories (fun _ => .B_OK) 2 1 [98] 3 [99]).map Prod.fst =
      some .B_OK := by decide
  obtain ⟨v', hv'⟩ := exists_of_status hok
  have hold : twoDirectories.IsDirectory 1 := twoDirectories_isDirectory (by decide)
  have hnew : twoDirectories.IsDirectory 3 := twoDirectories_isDirectory (by decide)
  obtain ⟨id, inode, hr⟩ := bfs_rename_spec hv'
  exact hr.not_kept twoDirectories_hierarchy hold hnew rfl
    (hall _ _ _ _ _ _ _ _ twoDirectories_hierarchy hold hnew hv')

end BFS
