import OpenBeOS.Kernel.Mount
import OpenBeOS.Kernel.VnodeRun

/-! # Mount and unmount change all or nothing

`Holding` compares a state with the one before a call: the same vnodes and mounts, but for the
references that the call has. What a path leads to is a reference more; an error should give it
back.
-/

namespace Kernel

open Function List Option

namespace Vfs

variable {s s₀ s' : Vfs} {refs : Nat → Nat} {v w m : Nat}

/-! ## States between calls -/

/-- Nothing is under way, and the pointers are to vnodes in the table. -/
structure Valid (s : Vfs) : Prop where
  nodup : s.vnode_table.Nodup
  made : ∀ v ∈ s.vnode_table, v < s.next_vnode
  idle : ∀ v ∈ s.vnode_table, s.busy v = false
  counted : ∀ v ∈ s.vnode_table, 1 ≤ s.ref_count v
  fsid : ∀ v ∈ s.vnode_table, s.fsid_to_mount (s.fsid v) = some (s.mount v)
  covered_by : ∀ v ∈ s.vnode_table, ∀ w, s.covered_by v = some w → w ∈ s.vnode_table
  covers_vnode : ∀ m ∈ s.mounts_table, ∀ w, s.covers_vnode m = some w → w ∈ s.vnode_table
  mount_root : ∀ m ∈ s.mounts_table, ∀ v, s.mount_root m = some v →
    v ∈ s.vnode_table ∧ s.mount v = m
  root_vnode : ∀ v, s.root_vnode = some v → v ∈ s.vnode_table
  mounts : ∀ m ∈ s.mounts_table, m < s.next_mount

/-- The mounts table, what covers a vnode and its references are the same. -/
structure Unchanged (s s' : Vfs) : Prop where
  mounts_table : s'.mounts_table = s.mounts_table
  vnode_table : s'.vnode_table = s.vnode_table
  covered_by : ∀ v ∈ s.vnode_table, s'.covered_by v = s.covered_by v
  ref_count : ∀ v ∈ s.vnode_table, s'.ref_count v = s.ref_count v

/-- How often the vnode was given back to its file system. -/
def releases (s : Vfs) (v : Nat) : Nat := (s.released.map Prod.fst).count v

/-- `s` is `s₀` with `refs` more references; vnodes that were not there before have no others. -/
structure Holding (s₀ s : Vfs) (refs : Nat → Nat) : Prop where
  table : ∃ new, s.vnode_table = new ++ s₀.vnode_table
  nodup : s.vnode_table.Nodup
  made : ∀ v ∈ s.vnode_table, v < s.next_vnode
  idle : ∀ v ∈ s.vnode_table, s.busy v = false
  old : ∀ v ∈ s₀.vnode_table, s.ref_count v = s₀.ref_count v + refs v
  new : ∀ v ∈ s.vnode_table, v ∉ s₀.vnode_table → s.ref_count v = refs v ∧ 0 < refs v
  held : ∀ v, 0 < refs v → v ∈ s.vnode_table
  covered_old : ∀ v ∈ s₀.vnode_table, s.covered_by v = s₀.covered_by v
  covered_new : ∀ v ∈ s.vnode_table, v ∉ s₀.vnode_table → s.covered_by v = none
  fsid : ∀ v ∈ s.vnode_table, s.fsid_to_mount (s.fsid v) = some (s.mount v)
  mounts_table : s.mounts_table = s₀.mounts_table
  covers_vnode : ∀ m ∈ s.mounts_table, s.covers_vnode m = s₀.covers_vnode m
  mount_root : ∀ m ∈ s.mounts_table, s.mount_root m = s₀.mount_root m
  released : ∀ v ∈ s₀.vnode_table, s.releases v = s₀.releases v
  root_vnode : s.root_vnode = s₀.root_vnode

theorem Holding.refl (h : s.Valid) : s.Holding s fun _ => 0 where
  table := ⟨[], rfl⟩
  nodup := h.nodup
  made := h.made
  idle := h.idle
  old := fun _ _ => (Int.add_zero _).symm
  new := fun _ hv hout => absurd hv hout
  held := fun _ hv => absurd hv (Nat.lt_irrefl 0)
  covered_old := fun _ _ => rfl
  covered_new := fun _ hv hout => absurd hv hout
  fsid := h.fsid
  mounts_table := rfl
  covers_vnode := fun _ _ => rfl
  mount_root := fun _ _ => rfl
  released := fun _ _ => rfl
  root_vnode := rfl

theorem Holding.congr (h : s₀.Holding s refs) {refs' : Nat → Nat}
    (hrefs : ∀ v, refs' v = refs v) : s₀.Holding s refs' := by
  have hsame : refs' = refs := funext hrefs
  exact hsame ▸ h

theorem Holding.mem_old (h : s₀.Holding s refs) (hv : v ∈ s₀.vnode_table) : v ∈ s.vnode_table := by
  obtain ⟨new, htable⟩ := h.table
  rw [htable]
  exact mem_append_right _ hv

theorem Holding.unchanged (h : s₀.Holding s fun _ => 0) : Unchanged s₀ s := by
  refine ⟨h.mounts_table, ?_, h.covered_old, fun v hv => ?_⟩
  · obtain ⟨new, htable⟩ := h.table
    cases new with
    | nil => exact htable
    | cons v new =>
      have hv : v ∈ s.vnode_table := by
        rw [htable]
        exact mem_cons_self ..
      have hout : v ∉ s₀.vnode_table := by
        have hnodup := h.nodup
        rw [htable, cons_append, nodup_cons] at hnodup
        exact fun hin => hnodup.1 (mem_append_right _ hin)
      exact absurd (h.new v hv hout).2 (Nat.lt_irrefl 0)
  · rw [h.old v hv]
    exact Int.add_zero _

section

variable (h : s₀.Holding s refs)
include h

theorem Holding.changed (hv : 0 < refs v) : ¬ Unchanged s₀ s := by
  intro hsame
  have hmem := h.held v hv
  rw [hsame.vnode_table] at hmem
  have hcount := hsame.ref_count v hmem
  rw [h.old v hmem] at hcount
  omega

/-! ## References come and go -/

theorem Holding.inc (hv : v ∈ s.vnode_table) :
    s₀.Holding (s.inc_vnode_ref_count v) fun w => refs w + [v].count w := by
  have hself : (s.inc_vnode_ref_count v).ref_count v = s.ref_count v + 1 := update_self ..
  have hother : ∀ w, w ≠ v → (s.inc_vnode_ref_count v).ref_count w = s.ref_count w := fun w hwv =>
    update_of_ne hwv ..
  refine { h with old := fun w hw => ?_, new := fun w hw hout => ?_, held := fun w hw => ?_ }
  · have hcount := h.old w hw
    by_cases hwv : w = v
    · subst hwv
      rw [hself, count_self]
      omega
    · rw [hother w hwv, count_of_ne hwv]
      omega
  · obtain ⟨hcount, hpos⟩ := h.new w hw hout
    by_cases hwv : w = v
    · subst hwv
      rw [hself, count_self]
      omega
    · rw [hother w hwv, count_of_ne hwv]
      exact ⟨hcount, hpos⟩
  · by_cases hwv : w = v
    · subst hwv
      exact hv
    · rw [count_of_ne hwv] at hw
      exact h.held w hw

/-- The call gives a reference back; a vnode that was not there before goes with its last one. -/
theorem Holding.dec (hvalid : s₀.Valid) (hv : 0 < refs v) :
    ∃ s', s.dec_vnode_ref_count v = some s' ∧ s₀.Holding s' fun w => refs w - [v].count w := by
  have hmem := h.held v hv
  have hself : (s.drop_ref v).ref_count v = s.ref_count v - 1 := update_self ..
  have hother : ∀ w, w ≠ v → (s.drop_ref v).ref_count w = s.ref_count w := fun w hwv =>
    update_of_ne hwv ..
  have hold : ∀ w ∈ s₀.vnode_table,
      (s.drop_ref v).ref_count w = s₀.ref_count w + ((refs w - [v].count w : Nat) : Int) := by
    intro w hw
    have hcount := h.old w hw
    by_cases hwv : w = v
    · subst hwv
      rw [hself, count_self]
      omega
    · rw [hother w hwv, count_of_ne hwv]
      omega
  unfold dec_vnode_ref_count
  rw [if_neg (by rw [h.idle v hmem]; exact nofun)]
  split
  · rename_i hlast
    have hout : v ∉ s₀.vnode_table := by
      intro hin
      have hcount := h.old v hin
      have hpos := hvalid.counted v hin
      omega
    obtain ⟨hcount, -⟩ := h.new v hmem hout
    have herase : ∀ w, w ∈ s.vnode_table.erase v ↔ w ≠ v ∧ w ∈ s.vnode_table := fun w =>
      h.nodup.mem_erase_iff
    refine ⟨_, rfl, ?_⟩
    refine
      { table := ?_, nodup := h.nodup.erase v, made := fun w hw => h.made w ((herase w).mp hw).2
        idle := fun w hw => ?_, old := hold, new := fun w hw hnew => ?_, held := fun w hw => ?_
        covered_old := h.covered_old
        covered_new := fun w hw => h.covered_new w ((herase w).mp hw).2
        fsid := fun w hw => h.fsid w ((herase w).mp hw).2, mounts_table := h.mounts_table
        covers_vnode := h.covers_vnode, mount_root := h.mount_root
        released := fun w hw => ?_, root_vnode := h.root_vnode }
    · obtain ⟨new, htable⟩ := h.table
      rw [htable] at hmem
      have hin : v ∈ new := (mem_append.mp hmem).resolve_right hout
      refine ⟨new.erase v, ?_⟩
      show s.vnode_table.erase v = _
      rw [htable, erase_append_left _ hin]
    · obtain ⟨hwv, hw⟩ := (herase w).mp hw
      show update s.busy v true w = false
      rw [update_of_ne hwv]
      exact h.idle w hw
    · obtain ⟨hwv, hw⟩ := (herase w).mp hw
      show (s.drop_ref v).ref_count w = _ ∧ _
      rw [hother w hwv, count_of_ne hwv]
      exact h.new w hw hnew
    · refine (herase w).mpr ⟨?_, h.held w (Nat.lt_of_lt_of_le hw (Nat.sub_le ..))⟩
      rintro rfl
      rw [count_self] at hw
      omega
    · refine Eq.trans ?_ (h.released w hw)
      apply count_cons_of_ne
      rintro rfl
      exact hout hw
  · rename_i hmore
    refine ⟨_, rfl, { h with old := hold, new := fun w hw hnew => ?_, held := fun w hw => ?_ }⟩
    · obtain ⟨hcount, hpos⟩ := h.new w hw hnew
      by_cases hwv : w = v
      · subst hwv
        rw [hself, count_self]
        omega
      · rw [hother w hwv, count_of_ne hwv]
        exact ⟨hcount, hpos⟩
    · exact h.held w (Nat.lt_of_lt_of_le hw (Nat.sub_le ..))

/-- What `Holding` says only depends on the table, the vnodes in it and the mounts. -/
theorem Holding.frame (htable : s'.vnode_table = s.vnode_table)
    (hnext : s.next_vnode ≤ s'.next_vnode)
    (hcount : ∀ v ∈ s.vnode_table, s'.ref_count v = s.ref_count v)
    (hbusy : ∀ v ∈ s.vnode_table, s'.busy v = s.busy v)
    (hcovered : ∀ v ∈ s.vnode_table, s'.covered_by v = s.covered_by v)
    (hmount : ∀ v ∈ s.vnode_table, s'.fsid_to_mount (s'.fsid v) = some (s'.mount v))
    (hmounts : s'.mounts_table = s.mounts_table)
    (hcovers : ∀ m ∈ s.mounts_table, s'.covers_vnode m = s.covers_vnode m)
    (hmount_root : ∀ m ∈ s.mounts_table, s'.mount_root m = s.mount_root m)
    (hreleased : s'.released = s.released) (hroot : s'.root_vnode = s.root_vnode) : s₀.Holding s' refs := by
  refine ⟨htable ▸ h.table, htable ▸ h.nodup, fun v hv => ?_, fun v hv => ?_, fun v hv => ?_,
    fun v hv hout => ?_, fun v hv => htable ▸ h.held v hv, fun v hv => ?_, fun v hv hout => ?_,
    fun v hv => hmount v (htable ▸ hv), hmounts.trans h.mounts_table, fun m hm => ?_,
    fun m hm => ?_, fun v hv => ?_, hroot.trans h.root_vnode⟩
  · exact Nat.lt_of_lt_of_le (h.made v (htable ▸ hv)) hnext
  · rw [hbusy v (htable ▸ hv)]
    exact h.idle v (htable ▸ hv)
  · rw [hcount v (h.mem_old hv)]
    exact h.old v hv
  · rw [hcount v (htable ▸ hv)]
    exact h.new v (htable ▸ hv) hout
  · rw [hcovered v (h.mem_old hv)]
    exact h.covered_old v hv
  · rw [hcovered v (htable ▸ hv)]
    exact h.covered_new v (htable ▸ hv) hout
  · rw [hcovers m (hmounts ▸ hm)]
    exact h.covers_vnode m (hmounts ▸ hm)
  · rw [hmount_root m (hmounts ▸ hm)]
    exact h.mount_root m (hmounts ▸ hm)
  · unfold releases
    rw [hreleased]
    exact h.released v hv

theorem Holding.made_not (fsid : fs_id) (vnid : vnode_id) (m : Nat) :
    s₀.Holding (((((s.insert_vnode fsid vnid m).add_vnode_to_mount_list s.next_vnode
      m).remove_vnode_from_mount_list s.next_vnode m).remove_vnode s.next_vnode).free_vnode
        s.next_vnode) refs := by
  have hne : ∀ w ∈ s.vnode_table, w ≠ s.next_vnode := fun w hw => Nat.ne_of_lt (h.made w hw)
  refine h.frame (erase_cons_head ..) (Nat.le_succ _)
    (fun w hw => update_of_ne (hne w hw) ..)
    (fun w hw => update_of_ne (hne w hw) ..)
    (fun w hw => update_of_ne (hne w hw) ..) (fun w hw => ?_) rfl (fun _ _ => rfl)
    (fun _ _ => rfl) rfl rfl
  show s.fsid_to_mount (update s.fsid s.next_vnode fsid w) = some (update s.mount s.next_vnode m w)
  rw [update_of_ne (hne w hw), update_of_ne (hne w hw)]
  exact h.fsid w hw

/-- A vnode that was read in, with the first reference. -/
theorem Holding.made_ready {fsid : fs_id} (vnid : vnode_id)
    (hm : s.fsid_to_mount fsid = some m) :
    s₀.Holding (((s.insert_vnode fsid vnid m).add_vnode_to_mount_list s.next_vnode
      m).ready_vnode s.next_vnode) fun w => refs w + [s.next_vnode].count w := by
  have hnew : s.next_vnode ∉ s.vnode_table := fun hmem => Nat.lt_irrefl _ (h.made _ hmem)
  have hne : ∀ w ∈ s.vnode_table, w ≠ s.next_vnode := fun w hw heq => hnew (heq ▸ hw)
  have hne₀ : ∀ w ∈ s₀.vnode_table, w ≠ s.next_vnode := fun w hw => hne w (h.mem_old hw)
  have hcount : ∀ w, w ≠ s.next_vnode →
      update (update s.ref_count s.next_vnode 0) s.next_vnode 1 w = s.ref_count w := fun w hwv => by
    rw [update_of_ne hwv, update_of_ne hwv]
  refine
    { table := ?_, nodup := nodup_cons.mpr ⟨hnew, h.nodup⟩, made := fun w hw => ?_
      idle := fun w hw => ?_, old := fun w hw => ?_, new := fun w hw hout => ?_
      held := fun w hw => ?_
      covered_old := fun w hw => ?_, covered_new := fun w hw hout => ?_, fsid := fun w hw => ?_
      mounts_table := h.mounts_table, covers_vnode := h.covers_vnode, mount_root := h.mount_root
      released := h.released, root_vnode := h.root_vnode }
  · obtain ⟨new, htable⟩ := h.table
    exact ⟨s.next_vnode :: new, congrArg (List.cons s.next_vnode) htable⟩
  · rcases mem_cons.mp hw with rfl | hw
    · exact Nat.lt_succ_self _
    · exact Nat.lt_succ_of_lt (h.made w hw)
  · show update (update s.busy s.next_vnode true) s.next_vnode false w = false
    rcases mem_cons.mp hw with rfl | hw
    · exact update_self ..
    · rw [update_of_ne (hne w hw), update_of_ne (hne w hw)]
      exact h.idle w hw
  · show update (update s.ref_count s.next_vnode 0) s.next_vnode 1 w = _
    rw [hcount w (hne₀ w hw), count_of_ne (hne₀ w hw)]
    exact h.old w hw
  · show update (update s.ref_count s.next_vnode 0) s.next_vnode 1 w = _ ∧ _
    rcases mem_cons.mp hw with rfl | hw
    · have hnone : ¬ 0 < refs s.next_vnode := fun hpos => hnew (h.held _ hpos)
      rw [update_self, count_self]
      omega
    · rw [hcount w (hne w hw), count_of_ne (hne w hw)]
      exact h.new w hw hout
  · by_cases hwv : w = s.next_vnode
    · rw [hwv]
      exact mem_cons_self ..
    · rw [count_of_ne hwv] at hw
      exact mem_cons_of_mem _ (h.held w hw)
  · exact (update_of_ne (hne₀ w hw) ..).trans (h.covered_old w hw)
  · show update s.covered_by s.next_vnode none w = none
    rcases mem_cons.mp hw with rfl | hw
    · exact update_self ..
    · rw [update_of_ne (hne w hw)]
      exact h.covered_new w hw hout
  · show s.fsid_to_mount (update s.fsid s.next_vnode fsid w) =
      some (update s.mount s.next_vnode m w)
    rcases mem_cons.mp hw with rfl | hw
    · rw [update_self, update_self]
      exact hm
    · rw [update_of_ne (hne w hw), update_of_ne (hne w hw)]
      exact h.fsid w hw

/-- `get_vnode` succeeds with a reference more, or fails without any. -/
theorem Holding.get_vnode (fsid : fs_id) (vnid : vnode_id)
    (reading : Reading) :
    (∃ s' v, s.get_vnode fsid vnid reading = (s', .ok v) ∧
      s₀.Holding s' (fun w => refs w + [v].count w) ∧ s'.lookup_vnode fsid vnid = some v ∧
      ∀ w ∈ s.vnode_table, s'.fsid w = s.fsid w) ∨
    ∃ s' err, s.get_vnode fsid vnid reading = (s', .error err) ∧ s₀.Holding s' refs := by
  unfold Vfs.get_vnode
  cases hlookup : s.lookup_vnode fsid vnid with
  | some v => exact Or.inl ⟨_, v, rfl, h.inc (lookup_vnode_some hlookup).1, hlookup, fun _ _ => rfl⟩
  | none =>
    dsimp only
    split
    · cases hm : s.fsid_to_mount fsid with
      | none => exact Or.inr ⟨_, _, rfl, h⟩
      | some m =>
        dsimp only
        split
        · exact Or.inr ⟨_, _, rfl, h.made_not fsid vnid m⟩
        · refine Or.inl ⟨_, _, rfl, h.made_ready vnid hm, ?_, fun w hw => ?_⟩
          · apply List.find?_cons_of_pos
            simp [insert_vnode, add_vnode_to_mount_list, ready_vnode]
          · exact update_of_ne (Nat.ne_of_lt (h.made w hw)) ..
    · exact Or.inr ⟨_, _, rfl, h⟩

end

/-! ## Paths -/

/-- The call has a reference to the vnode, and to no other. -/
def HoldingOne (s₀ s : Vfs) (v : Nat) : Prop := s₀.Holding s fun w => [v].count w

theorem HoldingOne.dec (h : s₀.HoldingOne s v) (hvalid : s₀.Valid) :
    ∃ s', s.dec_vnode_ref_count v = some s' ∧ s₀.Holding s' fun _ => 0 := by
  obtain ⟨s', hdec, hnone⟩ := Holding.dec h hvalid (v := v) (by rw [count_self]; exact Nat.one_pos)
  exact ⟨s', hdec, hnone.congr fun w => (Nat.sub_self _).symm⟩

theorem HoldingOne.dec_next (h : s₀.Holding s fun x => [v].count x + [w].count x)
    (hvalid : s₀.Valid) :
    ∃ s', s.dec_vnode_ref_count v = some s' ∧ s₀.HoldingOne s' w := by
  obtain ⟨s', hdec, hone⟩ := h.dec hvalid (v := v) (by rw [count_self]; omega)
  exact ⟨s', hdec, hone.congr fun x => (Nat.add_sub_cancel_left ..).symm⟩

theorem HoldingOne.move (h : s₀.HoldingOne s v) (hvalid : s₀.Valid) (hw : w ∈ s.vnode_table) :
    ∃ s', (s.inc_vnode_ref_count w).dec_vnode_ref_count v = some s' ∧ s₀.HoldingOne s' w :=
  HoldingOne.dec_next (Holding.inc h hw) hvalid

theorem HoldingOne.mem (h : s₀.HoldingOne s v) : v ∈ s.vnode_table :=
  Holding.held h v (by rw [count_self]; exact Nat.one_pos)

theorem HoldingOne.uncover (h : s₀.HoldingOne s v) (hvalid : s₀.Valid) (name : Name) :
    ∃ s' w, s.uncover v name = some (s', w) ∧ s₀.HoldingOne s' w := by
  unfold Vfs.uncover
  split
  · cases hcovers : s.covers_vnode (s.mount v) with
    | none => exact ⟨s, v, rfl, h⟩
    | some w =>
      have hm : s.mount v ∈ s.mounts_table := mem_of_find?_eq_some (h.fsid v h.mem)
      have hw : w ∈ s₀.vnode_table := by
        rw [h.covers_vnode _ hm] at hcovers
        exact hvalid.covers_vnode _ (h.mounts_table ▸ hm) w hcovers
      obtain ⟨s', hdec, hone⟩ := h.move hvalid (Holding.mem_old h hw)
      exact ⟨s', w, by dsimp only; rw [hdec]; rfl, hone⟩
  · exact ⟨s, v, rfl, h⟩

theorem HoldingOne.cover (h : s₀.HoldingOne s v) (hvalid : s₀.Valid) :
    ∃ s' w, s.cover v = some (s', w) ∧ s₀.HoldingOne s' w := by
  unfold Vfs.cover
  cases hcovered : s.covered_by v with
  | none => exact ⟨s, v, rfl, h⟩
  | some w =>
    have hold : v ∈ s₀.vnode_table := by
      by_contra hout
      rw [h.covered_new v h.mem hout] at hcovered
      cases hcovered
    rw [h.covered_old v hold] at hcovered
    have hw := hvalid.covered_by v hold w hcovered
    obtain ⟨s', hdec, hone⟩ := h.move hvalid (Holding.mem_old h hw)
    exact ⟨s', w, by dsimp only; rw [hdec]; rfl, hone⟩

/-- A path leads to a vnode with a reference more, or nowhere and nothing is changed. -/
theorem HoldingOne.lookup_path (hvalid : s₀.Valid) (fs_lookup : FsLookup) :
    ∀ (names : List Name) {s : Vfs} {v : Nat}, s₀.HoldingOne s v →
      (∃ s' w, lookup_path fs_lookup names v s = some (s', .ok w) ∧ s₀.HoldingOne s' w) ∨
      ∃ s' err, lookup_path fs_lookup names v s = some (s', .error err) ∧ s₀.Holding s' fun _ => 0
  | [], s, v, h => Or.inl ⟨s, v, rfl, h⟩
  | name :: names, s, v, h => by
    obtain ⟨s₁, v₁, huncover, h₁⟩ := h.uncover hvalid name
    rw [Vfs.lookup_path, huncover, bind_some]
    dsimp only
    cases hlookup : fs_lookup s₁ v₁ name with
    | error err =>
      obtain ⟨s', hdec, hnone⟩ := h₁.dec hvalid
      exact Or.inr ⟨s', .fs err, by rw [hdec]; rfl, hnone⟩
    | ok found =>
      obtain ⟨vnid, reading⟩ := found
      dsimp only
      rcases Holding.get_vnode h₁ (s₁.fsid v₁) vnid reading with
        ⟨s₂, w, hget, h₂, hfind, hfsid⟩ | ⟨s₂, err, hget, h₂⟩
      · rw [hget]
        dsimp only
        rw [hfsid v₁ h₁.mem, hfind, bind_some]
        obtain ⟨s₃, hdec, h₃⟩ := HoldingOne.dec_next h₂ hvalid
        rw [hdec, bind_some]
        obtain ⟨s₄, w₄, hcover, h₄⟩ := h₃.cover hvalid
        rw [hcover, bind_some]
        exact HoldingOne.lookup_path hvalid fs_lookup names h₄
      · rw [hget]
        obtain ⟨s', hdec, hnone⟩ := HoldingOne.dec h₂ hvalid
        exact Or.inr ⟨s', err, by dsimp only; rw [hdec]; rfl, hnone⟩

theorem Holding.path_to_vnode (h : s₀.Holding s fun _ => 0) (hvalid : s₀.Valid)
    (fs_lookup : FsLookup) (path : Name) {cwd : Option Nat}
    (hcwd : ∀ v, cwd = some v → v ∈ s₀.vnode_table) :
    s.path_to_vnode fs_lookup path cwd = none ∨
    (∃ s' v, s.path_to_vnode fs_lookup path cwd = some (s', .ok v) ∧ s₀.HoldingOne s' v) ∨
    ∃ s' err, s.path_to_vnode fs_lookup path cwd = some (s', .error err) ∧
      s₀.Holding s' fun _ => 0 := by
  unfold Vfs.path_to_vnode
  obtain ⟨start, hstart⟩ : ∃ start, start = if path.head? = some '/' then s.root_vnode else cwd :=
    ⟨_, rfl⟩
  rw [← hstart]
  cases start with
  | none => exact Or.inl rfl
  | some v =>
    have hv : v ∈ s₀.vnode_table := by
      split at hstart
      · exact hvalid.root_vnode v (h.root_vnode.symm.trans hstart.symm)
      · exact hcwd v hstart.symm
    have hone : s₀.HoldingOne (s.inc_vnode_ref_count v) v :=
      (h.inc (h.mem_old hv)).congr fun w => (Nat.zero_add _).symm
    exact Or.inr (HoldingOne.lookup_path hvalid fs_lookup (components path) hone)

/-! ## Mounting -/

/-- The file system and the memory for the mount are there. -/
def MountCall.Begun (call : MountCall) : Prop :=
  call.mount_memory ∧ call.path_memory ∧ call.fs_name ∈ call.fs_list

/-- With `root` mounted, the path of the call leads to `covered_vnode`. -/
def Covering (s : Vfs) (call : MountCall) (root : Nat) (s₁ : Vfs) (covered_vnode : Nat) : Prop :=
  s.root_vnode = some root ∧
    s.create_mount.path_to_vnode call.fs_lookup call.path call.cwd = some (s₁, .ok covered_vnode)

/-- The vnode is the root of a mount that is not the first one. -/
def OtherRoot (s : Vfs) (root v : Nat) : Prop := v ≠ root ∧ s.mount_root (s.mount v) = some v

/-- The path leads to what another file system is mounted on. -/
def AlreadyMountpoint (s : Vfs) (call : MountCall) : Prop :=
  call.Begun ∧ ∃ root s₁ v, s.Covering call root s₁ v ∧ s₁.OtherRoot root v

/-- The file system is mounted, and `get_vnode` is called for its root. -/
def GetsRoot (s : Vfs) (call : MountCall) : Prop :=
  call.Begun ∧ (∃ root_id, call.fs_mount = .ok root_id) ∧ (s.root_vnode = none ∧ call.path = ['/'] ∨
      ∃ root s₁ v, s.Covering call root s₁ v ∧ ¬ s₁.OtherRoot root v)

theorem Holding.create_mount (h : s.Valid) : s.Holding s.create_mount fun _ => 0 := by
  refine (Holding.refl h).frame rfl (Nat.le_refl _) (fun _ _ => rfl) (fun _ _ => rfl)
    (fun _ _ => rfl) (fun v hv => ?_) rfl (fun _ _ => rfl) (fun _ _ => rfl) rfl rfl
  refine Eq.trans ?_ (h.fsid v hv)
  apply List.find?_congr
  intro m hm
  show decide (update s.id s.next_mount s.next_fsid m = _) = _
  rw [update_of_ne (Nat.ne_of_lt (h.mounts m hm))]
  rfl

theorem Holding.set_covers_vnode (h : s₀.Holding s refs) (hm : m ∉ s₀.mounts_table)
    (covered : Option Nat) : s₀.Holding (s.set_covers_vnode m covered) refs := by
  refine h.frame rfl (Nat.le_refl _) (fun _ _ => rfl) (fun _ _ => rfl) (fun _ _ => rfl) h.fsid rfl
    (fun m' hm' => ?_) (fun _ _ => rfl) rfl rfl
  refine update_of_ne ?_ ..
  rintro rfl
  exact hm (h.mounts_table ▸ hm')

theorem dec_mounts_table (h : s.dec_vnode_ref_count v = some s') :
    s'.mounts_table = s.mounts_table := by
  unfold dec_vnode_ref_count at h
  split at h
  · cases h
  · split at h <;> exact Option.some.inj h ▸ rfl

theorem get_vnode_mounts_table (s : Vfs) (fsid : fs_id) (vnid : vnode_id) (reading : Reading) :
    (s.get_vnode fsid vnid reading).1.mounts_table = s.mounts_table := by
  unfold get_vnode
  split
  · rfl
  · split
    · split
      · dsimp only
        split <;> rfl
      · rfl
    · rfl

theorem mount_err4_mounts_table {err err' : VfsError}
    (h : s.mount_err4 m err = some (s', .error err')) : s'.mounts_table = s.mounts_table := by
  unfold mount_err4 at h
  split at h
  · obtain ⟨s₁, hdec, hs₁⟩ := map_eq_some_iff.mp h
    cases hs₁
    exact dec_mounts_table hdec
  · cases h
    rfl

variable {err : VfsError} {call : UnmountCall}

theorem mount_root_vnode_error {root_id : vnode_id} {root : Reading}
    (h : s.mount_root_vnode m root_id root = some (s', .error err)) :
    s'.mounts_table = m :: s.mounts_table := by
  unfold mount_root_vnode at h
  have hsame := get_vnode_mounts_table (s.insert_mount m) (s.id m) root_id root
  split at h
  · cases Option.some.inj h
  · rename_i s₁ err₁ hget
    rw [hget] at hsame
    exact (mount_err4_mounts_table h).trans hsame

theorem not_unchanged (h : s'.mounts_table = m :: s.mounts_table) : ¬ Unchanged s s' := by
  intro hsame
  have hlength := congrArg List.length (h.symm.trans hsame.mounts_table)
  rw [length_cons] at hlength
  omega

theorem HoldingOne.mount_err4 (h : s₀.HoldingOne s v) (hvalid : s₀.Valid)
    (hcovers : s.covers_vnode m = some v) {err err' : VfsError}
    (hmount : s.mount_err4 m err = some (s', .error err')) : Unchanged s₀ s' := by
  obtain ⟨s₁, hdec, hnone⟩ := h.dec hvalid
  unfold Vfs.mount_err4 at hmount
  rw [hcovers] at hmount
  dsimp only at hmount
  rw [hdec] at hmount
  cases hmount
  exact hnone.unchanged

/-- The call of the first mount. -/
theorem Valid.vfs_mount_first (h : s.Valid) {call : MountCall} (hbegun : call.Begun)
    (hroot : s.root_vnode = none)
    (hmount : s.vfs_mount call = some (s', .error err)) :
    Unchanged s s' ↔ ¬ s.AlreadyMountpoint call ∧ ¬ s.GetsRoot call := by
  have hnone : s.Holding s.create_mount fun _ => 0 := Holding.create_mount h
  have hother : ∀ {root s₁ v}, ¬ s.Covering call root s₁ v := fun hcovering => by
    rw [hcovering.1] at hroot
    cases hroot
  have hnot : ¬ s.AlreadyMountpoint call := by
    rintro ⟨-, root, s₁, v, hcovering, -⟩
    exact hother hcovering
  have hgets : s.GetsRoot call ↔ (∃ root_id, call.fs_mount = .ok root_id) ∧ call.path = ['/'] := by
    constructor
    · rintro ⟨-, hfs, ⟨-, hpath⟩ | ⟨root, s₁, v, hcovering, -⟩⟩
      · exact ⟨hfs, hpath⟩
      · exact absurd hcovering hother
    · exact fun hgets => ⟨hbegun, hgets.1, Or.inl ⟨hroot, hgets.2⟩⟩
  rw [hgets, and_iff_right hnot]
  obtain ⟨hmemory, hpath_memory, hfs⟩ := hbegun
  unfold vfs_mount at hmount
  rw [if_neg (by simp [hmemory, hpath_memory]), if_neg (not_not.mpr hfs)] at hmount
  dsimp only at hmount
  rw [show s.create_mount.root_vnode = none from hroot] at hmount
  dsimp only at hmount
  split at hmount
  · rename_i hpath
    cases hmount
    exact iff_of_true hnone.unchanged fun hgets => hpath hgets.2
  · rename_i hpath
    split at hmount
    · rename_i err₁ hfs_mount
      cases hmount
      refine iff_of_true hnone.unchanged fun hgets => ?_
      obtain ⟨root_id, hroot_id⟩ := hgets.1
      rw [hfs_mount] at hroot_id
      cases hroot_id
    · rename_i root_id hfs_mount
      have hmounts := mount_root_vnode_error hmount
      rw [show (s.create_mount.set_covers_vnode s.next_mount none).mounts_table = s.mounts_table
        from rfl] at hmounts
      refine iff_of_false (not_unchanged hmounts) ?_
      exact not_not.mpr ⟨⟨root_id, hfs_mount⟩, not_not.mp hpath⟩

/-- A call of a further mount. -/
theorem Valid.vfs_mount_next (h : s.Valid) {call : MountCall} (hbegun : call.Begun)
    (hcwd : ∀ v, call.cwd = some v → v ∈ s.vnode_table) {root : Nat}
    (hroot : s.root_vnode = some root)
    (hmount : s.vfs_mount call = some (s', .error err)) :
    Unchanged s s' ↔ ¬ s.AlreadyMountpoint call ∧ ¬ s.GetsRoot call := by
  have hnew : s.next_mount ∉ s.mounts_table := fun hmem => Nat.lt_irrefl _ (h.mounts _ hmem)
  have hbegun' := hbegun
  obtain ⟨hmemory, hpath_memory, hfs⟩ := hbegun'
  unfold vfs_mount at hmount
  rw [if_neg (by simp [hmemory, hpath_memory]), if_neg (not_not.mpr hfs)] at hmount
  dsimp only at hmount
  rw [show s.create_mount.root_vnode = some root from hroot] at hmount
  dsimp only at hmount
  rcases (Holding.create_mount h).path_to_vnode h call.fs_lookup call.path hcwd with
    hpath | ⟨s₁, v, hpath, hone⟩ | ⟨s₁, err₁, hpath, hnone⟩
  · rw [hpath] at hmount
    cases hmount
  · -- the path leads to `v`, whatever the rest of the call does
    have hcovering : s.Covering call root s₁ v := ⟨hroot, hpath⟩
    have hunique : ∀ {root' s₂ w}, s.Covering call root' s₂ w → root' = root ∧ s₂ = s₁ ∧ w = v := by
      rintro root' s₂ w ⟨hroot', hpath'⟩
      rw [hpath] at hpath'
      obtain ⟨rfl, hv⟩ := Prod.mk.inj (Option.some.inj hpath')
      exact ⟨Option.some.inj (hroot'.symm.trans hroot), rfl, (Except.ok.inj hv).symm⟩
    rw [hpath, bind_some] at hmount
    dsimp only at hmount
    split at hmount
    · rename_i hother
      obtain ⟨rfl, -⟩ := Prod.mk.inj (Option.some.inj hmount)
      have hpos : 0 < [v].count v := by rw [count_self]; exact Nat.one_pos
      refine iff_of_false (Holding.changed hone hpos) fun hright => ?_
      exact hright.1 ⟨hbegun, root, s₁, v, hcovering, hother⟩
    · rename_i hother
      have hnot : ¬ s.AlreadyMountpoint call := by
        rintro ⟨-, root', s₂, w, hcovering', hother'⟩
        obtain ⟨rfl, rfl, rfl⟩ := hunique hcovering'
        exact hother hother'
      rw [and_iff_right hnot]
      split at hmount
      · rename_i err₁ hfs_mount
        refine iff_of_true ?_ fun hgets => ?_
        · have hset : s.HoldingOne (s₁.set_covers_vnode s.next_mount (some v)) v :=
            Holding.set_covers_vnode hone hnew (some v)
          exact hset.mount_err4 h (update_self ..) hmount
        · obtain ⟨root_id, hroot_id⟩ := hgets.2.1
          rw [hfs_mount] at hroot_id
          cases hroot_id
      · rename_i root_id hfs_mount
        have hmounts := mount_root_vnode_error hmount
        rw [show (s₁.set_covers_vnode s.next_mount (some v)).mounts_table = s.mounts_table from
          hone.mounts_table] at hmounts
        refine iff_of_false (not_unchanged hmounts) (not_not.mpr ?_)
        exact ⟨hbegun, ⟨root_id, hfs_mount⟩, Or.inr ⟨root, s₁, v, hcovering, hother⟩⟩
  · have hnot : ∀ {root' s₂ w}, ¬ s.Covering call root' s₂ w := by
      rintro root' s₂ w ⟨-, hpath'⟩
      rw [hpath] at hpath'
      exact absurd (Prod.mk.inj (Option.some.inj hpath')).2 nofun
    rw [hpath, bind_some] at hmount
    cases hmount
    refine iff_of_true hnone.unchanged ⟨?_, ?_⟩
    · rintro ⟨-, root', s₂, w, hcovering, -⟩
      exact hnot hcovering
    · rintro ⟨-, -, ⟨hroot', -⟩ | ⟨root', s₂, w, hcovering, -⟩⟩
      · rw [hroot] at hroot'
        cases hroot'
      · exact hnot hcovering

theorem Valid.vfs_mount (h : s.Valid) {call : MountCall}
    (hcwd : ∀ v, call.cwd = some v → v ∈ s.vnode_table)
    (hmount : s.vfs_mount call = some (s', .error err)) :
    Unchanged s s' ↔ ¬ s.AlreadyMountpoint call ∧ ¬ s.GetsRoot call := by
  by_cases hbegun : call.Begun
  · cases hroot : s.root_vnode with
    | none => exact h.vfs_mount_first hbegun hroot hmount
    | some root => exact h.vfs_mount_next hbegun hcwd hroot hmount
  · have hsame : s' = s := by
      unfold Vfs.vfs_mount at hmount
      split at hmount
      · exact (Prod.mk.inj (Option.some.inj hmount)).1.symm
      · rename_i hmemory
        obtain ⟨hmount_memory, hpath_memory⟩ := not_or.mp hmemory
        rw [if_pos fun hfs => hbegun ⟨not_not.mp hmount_memory, not_not.mp hpath_memory, hfs⟩]
          at hmount
        exact (Prod.mk.inj (Option.some.inj hmount)).1.symm
    subst hsame
    exact iff_of_true (Holding.refl h).unchanged ⟨fun hno => hbegun hno.1, fun hno => hbegun hno.1⟩

/-! ## Unmounting -/

/-- A vnode of the mount has a reference other than the one of the mount to its root. -/
def InUse (s : Vfs) (m : Nat) : Prop :=
  ∃ v ∈ s.vnode_table, s.mount v = m ∧ s.ref_count v ≠ if s.mount_root m = some v then 1 else 0

/-- What is done to unmount a file system. -/
structure Unmounted (s s' : Vfs) (m : Nat) : Prop where
  released : ∀ v ∈ s.vnode_table, s.mount v = m → s'.releases v = s.releases v + 1
  covered_by : ∀ v, s.covers_vnode m = some v → s'.covered_by v = none
  ref_count : ∀ v, s.covers_vnode m = some v → s'.ref_count v = s.ref_count v - 1
  mounts_table : s'.mounts_table = s.mounts_table.erase m

/-- A call for the mount fails if it is in use, and unmounts it otherwise. -/
def UnmountAtomic (s : Vfs) (m : Nat) (result : Option (Vfs × Except VfsError Unit)) : Prop :=
  (s.InUse m → ∃ s', result = some (s', .error .EBUSY) ∧ Unchanged s s') ∧
    (¬ s.InUse m → ∃ s', result = some (s', .ok ()) ∧ Unmounted s s' m)

theorem dec_releases (h : s.dec_vnode_ref_count v = some s') (hw : s.ref_count w ≤ 0) :
    s'.releases w = s.releases w ∧ s'.ref_count w ≤ 0 := by
  unfold dec_vnode_ref_count at h
  have hdrop : update s.ref_count v (s.ref_count v - 1) w ≤ 0 := by
    by_cases hwv : w = v
    · subst hwv
      rw [update_self]
      omega
    · rw [update_of_ne hwv]
      exact hw
  split at h
  · cases h
  · split at h
    · rename_i hlast
      cases h
      refine ⟨count_cons_of_ne fun hvw : v = w => ?_, hdrop⟩
      rw [hvw] at hlast
      omega
    · cases h
      exact ⟨rfl, hdrop⟩

theorem mark_busy_same (root : Nat) : ∀ (fuel : Nat) (p : Option Nat) (s : Vfs),
    (s.mark_busy root fuel p).releases = s.releases ∧
      (s.mark_busy root fuel p).ref_count = s.ref_count
  | 0, _, _ => ⟨rfl, rfl⟩
  | _ + 1, none, _ => ⟨rfl, rfl⟩
  | fuel + 1, some v, s => by
    unfold mark_busy
    obtain ⟨hreleases, hcount⟩ :=
      mark_busy_same root fuel (s.mount_next v) (if v ≠ root then s.set_busy v true else s)
    rw [hreleases, hcount]
    split <;> exact ⟨rfl, rfl⟩

theorem finish_unmount_releases {result : Except VfsError Unit} (hv : s.ref_count v ≤ 0)
    (h : s.finish_unmount m v = some (s', result)) :
    s'.releases v = s.releases v ∧ result = .ok () := by
  obtain ⟨hreleases, hcount⟩ := mark_busy_same v (s.next_vnode + 1) (s.vnodes_head m) s
  unfold finish_unmount at h
  obtain ⟨covered, -, h⟩ := bind_eq_some_iff.mp h
  obtain ⟨s₁, hdec₁, h⟩ := bind_eq_some_iff.mp h
  obtain ⟨s₂, hdec₂, h⟩ := bind_eq_some_iff.mp h
  obtain ⟨s₃, hdec₃, h⟩ := map_eq_some_iff.mp h
  cases h
  have h₁ := dec_releases (w := v) hdec₁ (le_of_eq_of_le (congrFun hcount v) hv)
  have h₂ := dec_releases hdec₂ h₁.2
  have h₃ := dec_releases hdec₃ h₂.2
  refine ⟨?_, rfl⟩
  calc s₃.releases v = s₂.releases v := h₃.1
    _ = s₁.releases v := h₂.1
    _ = (s.mark_busy v (s.next_vnode + 1) (s.vnodes_head m)).releases v := h₁.1
    _ = s.releases v := congrFun hreleases v

theorem HoldingOne.add_refs (h : s₀.HoldingOne s v) :
    s₀.HoldingOne ((s.add_refs v (-2)).add_refs v 2) v := by
  refine Holding.frame h rfl (Nat.le_refl _) (fun w _ => ?_) (fun _ _ => rfl) (fun _ _ => rfl)
    h.fsid rfl (fun _ _ => rfl) (fun _ _ => rfl) rfl rfl
  show update (update s.ref_count v (s.ref_count v + -2)) v
    (update s.ref_count v (s.ref_count v + -2) v + 2) w = s.ref_count w
  by_cases hwv : w = v
  · subst hwv
    rw [update_self, update_self]
    omega
  · rw [update_of_ne hwv, update_of_ne hwv]

theorem vfs_unmount_root
    (hpath : s₀.path_to_vnode call.fs_lookup call.path call.cwd = some (s, .ok v))
    (hone : s₀.HoldingOne s v) (hroot : s.mount_root (s.mount v) = some v) :
    s₀.vfs_unmount call = ((s.add_refs v (-2)).find_used (s.mount v)).bind fun
      | (_, some _) => (((s.add_refs v (-2)).add_refs v 2).dec_vnode_ref_count v).map fun s =>
        (s, .error .EBUSY)
      | (_, none) => (s.add_refs v (-2)).finish_unmount (s.mount v) v := by
  unfold vfs_unmount
  rw [hpath, bind_some]
  dsimp only
  rw [hone.fsid v hone.mem, bind_some]
  exact if_neg (not_not.mpr hroot)

/-- Behind the check, the call does not fail. -/
theorem finish_unmount_ok {m root : Nat}
    (h : s.finish_unmount m root = some (s', .error err)) : False := by
  unfold finish_unmount at h
  obtain ⟨_, -, h⟩ := bind_eq_some_iff.mp h
  obtain ⟨_, -, h⟩ := bind_eq_some_iff.mp h
  obtain ⟨_, -, h⟩ := bind_eq_some_iff.mp h
  obtain ⟨_, -, h⟩ := map_eq_some_iff.mp h
  cases h

theorem Valid.vfs_unmount_error (h : s₀.Valid)
    (hcwd : ∀ v, call.cwd = some v → v ∈ s₀.vnode_table)
    (hunmount : s₀.vfs_unmount call = some (s', .error err)) : Unchanged s₀ s' := by
  rcases (Holding.refl h).path_to_vnode h call.fs_lookup call.path hcwd with
    hpath | ⟨s, v, hpath, hone⟩ | ⟨s, err₁, hpath, hnone⟩
  · unfold vfs_unmount at hunmount
    rw [hpath] at hunmount
    cases hunmount
  · by_cases hroot : s.mount_root (s.mount v) = some v
    · rw [vfs_unmount_root hpath hone hroot] at hunmount
      obtain ⟨⟨last, used⟩, -, hunmount⟩ := bind_eq_some_iff.mp hunmount
      cases used with
      | some w =>
        obtain ⟨s₁, hdec, hnone⟩ := hone.add_refs.dec h
        rw [hdec] at hunmount
        cases hunmount
        exact hnone.unchanged
      | none => exact (finish_unmount_ok hunmount).elim
    · obtain ⟨s₁, hdec, hnone⟩ := hone.dec h
      unfold vfs_unmount at hunmount
      rw [hpath, bind_some] at hunmount
      dsimp only at hunmount
      rw [hone.fsid v hone.mem, bind_some, if_pos hroot, hdec] at hunmount
      cases hunmount
      exact hnone.unchanged
  · unfold vfs_unmount at hunmount
    rw [hpath, bind_some] at hunmount
    cases hunmount
    exact hnone.unchanged

theorem Valid.vfs_unmount_iff (h : s₀.Valid)
    (hcwd : ∀ v, call.cwd = some v → v ∈ s₀.vnode_table)
    (hpath : s₀.path_to_vnode call.fs_lookup call.path call.cwd = some (s, .ok v))
    (hroot : s.mount_root (s.mount v) = some v) :
    UnmountAtomic s₀ (s.mount v) (s₀.vfs_unmount call) ↔ s₀.InUse (s.mount v) ∧
      ∃ last w, (s.add_refs v (-2)).find_used (s.mount v) = some (last, some w) := by
  have hone : s₀.HoldingOne s v := by
    rcases (Holding.refl h).path_to_vnode h call.fs_lookup call.path hcwd with
      hno | ⟨s₁, v₁, hpath₁, hone⟩ | ⟨s₁, err₁, hpath₁, -⟩
    · rw [hpath] at hno
      cases hno
    · rw [hpath] at hpath₁
      obtain ⟨rfl, hv⟩ := Prod.mk.inj (Option.some.inj hpath₁)
      cases hv
      exact hone
    · rw [hpath] at hpath₁
      exact absurd (Prod.mk.inj (Option.some.inj hpath₁)).2 nofun
  have hm : s.mount v ∈ s.mounts_table := mem_of_find?_eq_some (hone.fsid v hone.mem)
  have hroot₀ : s₀.mount_root (s.mount v) = some v := by
    rw [← hone.mount_root _ hm]
    exact hroot
  obtain ⟨hv, hmount⟩ := h.mount_root _ (hone.mounts_table ▸ hm) v hroot₀
  have hcall := vfs_unmount_root hpath hone hroot
  constructor
  · rintro ⟨hused, hunused⟩
    have hinuse : s₀.InUse (s.mount v) := by
      by_contra hnot
      obtain ⟨s', hok, hunmounted⟩ := hunused hnot
      rw [hcall] at hok
      obtain ⟨⟨last, used⟩, -, hok⟩ := bind_eq_some_iff.mp hok
      cases used with
      | some w =>
        obtain ⟨_, -, hok⟩ := map_eq_some_iff.mp hok
        exact absurd (Prod.mk.inj hok).2 nofun
      | none =>
        -- the only reference to the root is the one of the mount
        have hcount : s₀.ref_count v = 1 := by
          by_contra hne
          exact hnot ⟨v, hv, hmount, by rwa [if_pos hroot₀]⟩
        have hzero : (s.add_refs v (-2)).ref_count v ≤ 0 := by
          have hold := hone.old v hv
          rw [count_self] at hold
          show update s.ref_count v (s.ref_count v + -2) v ≤ 0
          rw [update_self]
          omega
        have hsame := (finish_unmount_releases hzero hok).1
        have hone_more := hunmounted.released v hv hmount
        have hpath_same : s.releases v = s₀.releases v := hone.released v hv
        change s'.releases v = s.releases v at hsame
        omega
    refine ⟨hinuse, ?_⟩
    obtain ⟨s', hbusy, -⟩ := hused hinuse
    rw [hcall] at hbusy
    obtain ⟨⟨last, used⟩, hfind, hbusy⟩ := bind_eq_some_iff.mp hbusy
    cases used with
    | some w => exact ⟨last, w, hfind⟩
    | none => exact (finish_unmount_ok hbusy).elim
  · rintro ⟨hinuse, last, w, hfind⟩
    refine ⟨fun _ => ?_, fun hnot => absurd hinuse hnot⟩
    obtain ⟨s', hdec, hnone⟩ := hone.add_refs.dec h
    exact ⟨s', by rw [hcall, hfind, bind_some]; dsimp only; rw [hdec]; rfl, hnone.unchanged⟩

/-! ## The calls -/

/-- The root file system has the vnodes 0, its root, and 1, which the root 2 of a second one covers. -/
def twoMounts : Vfs where
  mount_prev := fun v => if v = 0 then some 1 else none
  mount_next := fun v => if v = 1 then some 0 else none
  fsid := fun v => if v = 2 then 1 else 0
  vnid := fun v => if v = 1 then 1 else 0
  mount := fun v => if v = 2 then 1 else 0
  covered_by := fun v => if v = 1 then some 2 else none
  ref_count := fun _ => 1
  delete_me := fun _ => false
  busy := fun _ => false
  id := fun m => m
  mount_root := fun m => if m = 0 then some 0 else some 2
  covers_vnode := fun m => if m = 1 then some 1 else none
  vnodes_head := fun m => if m = 0 then some 1 else some 2
  vnodes_tail := fun m => if m = 0 then some 0 else some 2
  unmounting := fun _ => false
  vnode_table := [2, 1, 0]
  mounts_table := [1, 0]
  root_vnode := some 0
  next_fsid := 2
  next_vnode := 3
  next_mount := 2
  released := []
  freed := []

theorem valid_twoMounts : twoMounts.Valid := by
  refine ⟨by decide, by decide, by decide, by decide, by decide, ?_, ?_, ?_, ?_, by decide⟩
  · intro v hv w hw
    have hvw : v = 1 ∧ w = 2 := by
      change (if v = 1 then some 2 else none) = some w at hw
      split at hw
      · exact ⟨‹_›, (Option.some.inj hw).symm⟩
      · cases hw
    rw [hvw.2]
    decide
  · intro m hm w hw
    have hw : w = 1 := by
      change (if m = 1 then some 1 else none) = some w at hw
      split at hw
      · exact (Option.some.inj hw).symm
      · cases hw
    rw [hw]
    decide
  · intro m hm v hv
    change (if m = 0 then some 0 else some 2) = some v at hv
    rcases mem_cons.mp hm with rfl | hm
    · cases hv
      decide
    · obtain rfl := mem_singleton.mp hm
      cases hv
      decide
  · intro v hv
    cases hv
    decide

def mnt : Name := ['/', 'm', 'n', 't']

/-- `mnt` is the vnode 1 of the root file system. -/
def lookupMnt : FsLookup := fun s v name =>
  if s.fsid v = 0 ∧ s.vnid v = 0 ∧ name = ['m', 'n', 't'] then .ok (1, ⟨true, 0⟩) else .error (-1)

/-- A call that mounts a file system whose `fs_mount` has the given result. -/
def mountOn (path : Name) (fs_mount : Except Int vnode_id) : MountCall where
  path := path
  fs_name := "bootfs"
  cwd := none
  fs_list := ["bootfs"]
  mount_memory := true
  path_memory := true
  fs_lookup := lookupMnt
  fs_mount := fs_mount
  root := ⟨true, 0⟩

/-- The second file system with a file of it open. -/
def oneOpen : Vfs := { twoMounts with ref_count := fun v => if v = 2 then 2 else 1 }

theorem valid_oneOpen : oneOpen.Valid := { valid_twoMounts with counted := by decide }

end Vfs

end Kernel
