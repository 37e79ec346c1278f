import OpenBeOS.Kernel.VnodeRun
import OpenBeOS.Lib.Chain

/-! # The lists of the vnodes of a mount

`remove_vnode_from_mount_list` takes a vnode out of a doubly linked list wherever it is, but
`add_vnode_to_mount_list` leaves the old head without a pointer back. So the lists are right as
long as a vnode only gets into an empty one.
-/

namespace Kernel

open Chain RefCount Reachable Function List

namespace Vfs

variable {s : Vfs} {lists : Nat → List Nat} {v m : Nat}

/-- The list of the mount consists of the vnodes `vs`. -/
structure MountList (s : Vfs) (m : Nat) (vs : List Nat) : Prop where
  next : Leads s.mount_next (s.vnodes_head m) vs none
  prev : Leads s.mount_prev (s.vnodes_tail m) vs.reverse none
  nodup : vs.Nodup

/-- The lists of all mounts. -/
def MountLists (s : Vfs) (lists : Nat → List Nat) : Prop :=
  DoublyLinked s.mount_next s.mount_prev s.vnodes_head s.vnodes_tail lists

theorem MountLists.mountList (h : s.MountLists lists) (m : Nat) : s.MountList m (lists m) :=
  ⟨h.forward.leads m, h.backward.leads m, h.forward.nodup m⟩

theorem MountLists.insert (h : s.MountLists lists) (hempty : s.vnodes_head m = none)
    (hv : ∀ m', v ∉ lists m') :
    (s.add_vnode_to_mount_list v m).MountLists (update lists m [v]) := by
  have hlist : lists m = [] := by
    rw [(h.forward.leads m).head] at hempty
    exact List.head?_eq_none_iff.mp hempty
  have htail : s.vnodes_tail m = none := by
    rw [(h.backward.leads m).head, hlist, reverse_nil, List.head?_nil]
  have hinsert := DoublyLinked.insert_empty h hlist hv
  unfold MountLists add_vnode_to_mount_list
  rw [if_pos htail, hempty]
  exact hinsert

theorem MountLists.remove (h : s.MountLists lists) (hv : v ∈ lists m) :
    (s.remove_vnode_from_mount_list v m).MountLists
      (update lists m ((lists m).erase v)) := by
  obtain ⟨xs, ys, hlist⟩ := append_of_mem hv
  have hnodup := h.forward.nodup m
  have herase : (lists m).erase v = xs ++ ys := by
    rw [hlist] at hnodup ⊢
    obtain ⟨-, hcons, hdisj⟩ := nodup_append.mp hnodup
    have hxs : v ∉ xs := fun hmem => hdisj v hmem v (mem_cons_self ..) rfl
    rw [erase_append_right _ hxs, erase_cons_head]
  rw [herase]
  have hout : ∀ m', v ∉ update lists m (xs ++ ys) m' := by
    intro m'
    by_cases hm : m' = m
    · rw [hm, update_self, ← herase]
      exact hnodup.not_mem_erase
    · rw [update_of_ne hm]
      exact h.forward.apart m m' (Ne.symm hm) v hv
  refine DoublyLinked.update ?_ hout none none
  apply DoublyLinked.remove h hlist
  · cases hprev : s.mount_prev v <;> simp only [remove_vnode_from_mount_list, hprev, and_self]
  · cases hnext : s.mount_next v <;> simp only [remove_vnode_from_mount_list, hnext, and_self]

/-- The old head does not point back. -/
theorem MountList.add_not {vs : List Nat} (h : s.MountList m vs) (hv : v ∉ vs)
    (hhead : s.vnodes_head m ≠ none) (ws : List Nat) :
    ¬ (s.add_vnode_to_mount_list v m).MountList m ws := by
  intro hnew
  cases vs with
  | nil => exact hhead h.next.head
  | cons w rest =>
    have hwv : w ≠ v := fun hwv => hv (hwv ▸ mem_cons_self ..)
    have hfirst : s.mount_prev w = none := by
      have hprev := h.prev
      rw [reverse_cons, leads_snoc] at hprev
      exact hprev.2
    have hnext := hnew.next
    have hprev := hnew.prev
    -- the new list begins with `v` and `w`
    obtain ⟨xs, rfl⟩ : ∃ xs, ws = v :: w :: xs := by
      cases ws with
      | nil =>
        change update s.vnodes_head m (some v) m = none at hnext
        rw [update_self] at hnext
        cases hnext
      | cons x xs =>
        obtain ⟨hx, hrest⟩ := hnext
        change update s.vnodes_head m (some v) m = some x at hx
        rw [update_self] at hx
        cases hx
        change Leads _ (update s.mount_next v (s.vnodes_head m) v) xs none at hrest
        rw [update_self, h.next.1] at hrest
        cases xs with
        | nil => cases hrest
        | cons y ys => exact ⟨ys, by rw [Option.some.inj hrest.1]⟩
    rw [reverse_cons, leads_snoc, reverse_cons, leads_snoc] at hprev
    have hback := hprev.1.2
    change update s.mount_prev v none w = some v at hback
    rw [update_of_ne hwv, hfirst] at hback
    cases hback

end Vfs

namespace VnodeSystem

variable {s s' : VnodeSystem} {i v m : Nat} {call : VnodeCall} {lists : Nat → List Nat}

/-! ## The vnodes of a list -/

/-- The calls that are between the table and the list of the vnode. -/
def between (s : VnodeSystem) (v : Nat) : Nat := (s.calls.map fun call => call.unlisted.count v).sum

/-- The calls that have the vnode busy, and in its list. -/
def listedBusy : VnodeCall → List Nat
  | .reading v => [v]
  | .putting v => [v]
  | _ => []

theorem window_eq (s : VnodeSystem) (v : Nat) :
    s.window v = s.between v + (s.calls.map fun call => (listedBusy call).count v).sum := by
  unfold window between
  rw [← sum_map_add]
  congr 1
  apply map_congr_left
  intro call _
  cases call <;> simp [VnodeCall.busyWith, VnodeCall.unlisted, listedBusy]

theorem between_eq_zero : s.between v = 0 ↔ ∀ call ∈ s.calls, v ∉ call.unlisted := by
  unfold between
  rw [sum_eq_zero_iff]
  simp [count_eq_zero]

/-- The vnode should be in the list of the mount. -/
def Listed (s : VnodeSystem) (m v : Nat) : Prop :=
  v ∈ s.vfs.vnode_table ∧ s.vfs.mount v = m ∧ s.between v = 0

structure Listing (s : VnodeSystem) (lists : Nat → List Nat) : Prop where
  chains : s.vfs.MountLists lists
  mem : ∀ m v, v ∈ lists m ↔ s.Listed m v

theorem Sound.unlisted (h : s.Sound) (hcall : s.calls[i]? = some call) (hv : call.unlisted = [v]) :
    v ∈ s.vfs.vnode_table ∧ s.between v = 1 := by
  have hle : call.unlisted.count v ≤ s.between v :=
    le_sum_map_of_mem (g := fun call : VnodeCall => call.unlisted.count v)
      (mem_of_getElem? hcall)
  rw [hv, Vfs.count_self] at hle
  have hwindow := window_eq s v
  obtain ⟨hmem, -, hone, -⟩ := h.tracked.busy_of_window (v := v) (by omega)
  exact ⟨hmem, by omega⟩

theorem Sound.listed (h : s.Sound) (hcall : s.calls[i]? = some call) (hv : listedBusy call = [v]) :
    v ∈ s.vfs.vnode_table ∧ s.between v = 0 := by
  have hle : (listedBusy call).count v ≤ (s.calls.map fun call => (listedBusy call).count v).sum :=
    le_sum_map_of_mem (g := fun call : VnodeCall => (listedBusy call).count v)
      (mem_of_getElem? hcall)
  rw [hv, Vfs.count_self] at hle
  have hwindow := window_eq s v
  obtain ⟨hmem, -, hone, -⟩ := h.tracked.busy_of_window (v := v) (by omega)
  exact ⟨hmem, by omega⟩

/-! ## The sections -/

theorem between_setCall (hcall : s.calls[i]? = some call) (new : VnodeCall) (vfs : Vfs)
    (handed : List Nat) (w : Nat) :
    (setCall { s with vfs, handed } i new).between w + call.unlisted.count w =
      s.between w + new.unlisted.count w :=
  sum_map_set hcall new

theorem between_addCall (new : VnodeCall) (vfs : Vfs) (handed : List Nat) (w : Nat) :
    (addCall { s with vfs, handed } new).between w = s.between w + new.unlisted.count w :=
  sum_map_append_singleton s.calls new

section

variable (h : s.Listing lists)
include h

theorem Listing.congr (hchains : s'.vfs.MountLists lists)
    (hlisted : ∀ m v, s'.Listed m v ↔ s.Listed m v) : s'.Listing lists :=
  ⟨hchains, fun m v => (h.mem m v).trans (hlisted m v).symm⟩

theorem Listing.setCall (hcall : s.calls[i]? = some call) (new : VnodeCall)
    (vfs : Vfs) (handed : List Nat) (hunlisted : new.unlisted = call.unlisted)
    (hchains : vfs.MountLists lists) (htable : vfs.vnode_table = s.vfs.vnode_table)
    (hmount : vfs.mount = s.vfs.mount) :
    (VnodeSystem.setCall { s with vfs, handed } i new).Listing lists := by
  refine h.congr hchains fun m w => ?_
  have hw := between_setCall hcall new vfs handed w
  rw [hunlisted] at hw
  unfold Listed
  rw [Nat.add_right_cancel hw]
  show w ∈ vfs.vnode_table ∧ vfs.mount w = m ∧ _ ↔ _
  rw [htable, hmount]

theorem Listing.addCall (new : VnodeCall) (vfs : Vfs) (handed : List Nat)
    (hunlisted : new.unlisted = []) (hchains : vfs.MountLists lists)
    (htable : vfs.vnode_table = s.vfs.vnode_table) (hmount : vfs.mount = s.vfs.mount) :
    (VnodeSystem.addCall { s with vfs, handed } new).Listing lists := by
  refine h.congr hchains fun m w => ?_
  have hw := between_addCall (s := s) new vfs handed w
  rw [hunlisted, count_nil, Nat.add_zero] at hw
  unfold Listed
  rw [hw]
  show w ∈ vfs.vnode_table ∧ vfs.mount w = m ∧ _ ↔ _
  rw [htable, hmount]

theorem Listing.insert (hsound : s.Sound) (fsid : fs_id) (vnid : vnode_id)
    (m : Nat) :
    (VnodeSystem.addCall { s with vfs := s.vfs.insert_vnode fsid vnid m }
      (.adding s.vfs.next_vnode)).Listing lists := by
  have hnew : s.vfs.next_vnode ∉ s.vfs.vnode_table := fun hmem =>
    Nat.lt_irrefl _ (hsound.tracked.made _ hmem)
  have hout : ∀ m', s.vfs.next_vnode ∉ lists m' := fun m' hmem => hnew ((h.mem m' _).mp hmem).1
  refine h.congr (h.chains.update hout none none) fun m' w => ?_
  have hw := between_addCall (s := s) (.adding s.vfs.next_vnode) (s.vfs.insert_vnode fsid vnid m)
    s.handed w
  unfold Listed
  rw [hw]
  show w ∈ s.vfs.next_vnode :: s.vfs.vnode_table ∧ update s.vfs.mount s.vfs.next_vnode m w = m' ∧
      s.between w + [s.vfs.next_vnode].count w = 0 ↔ _
  by_cases hwv : w = s.vfs.next_vnode
  · subst hwv
    rw [Vfs.count_self]
    exact iff_of_false (fun hin => Nat.succ_ne_zero _ hin.2.2) fun hin => hnew hin.1
  · rw [update_of_ne hwv, Vfs.count_of_ne hwv, mem_cons, or_iff_right hwv, Nat.add_zero]

/-- The vnode gets into its list. -/
theorem Listing.goOn_add (hsound : s.Sound)
    (hcall : s.calls[i]? = some (.adding v)) (hempty : s.vfs.vnodes_head (s.vfs.mount v) = none) :
    (VnodeSystem.setCall { s with vfs := s.vfs.add_vnode_to_mount_list v (s.vfs.mount v) } i
      (.reading v)).Listing (update lists (s.vfs.mount v) [v]) := by
  obtain ⟨hmem, hone⟩ := hsound.unlisted hcall rfl
  have hnil : lists (s.vfs.mount v) = [] := by
    have hhead := (h.chains.forward.leads (s.vfs.mount v)).head
    rw [hempty] at hhead
    exact List.head?_eq_none_iff.mp hhead.symm
  have hout : ∀ m, v ∉ lists m := fun m hin => by
    have hzero := ((h.mem m v).mp hin).2.2
    omega
  refine ⟨h.chains.insert hempty hout, fun m w => ?_⟩
  have hw := between_setCall hcall (.reading v)
    (s.vfs.add_vnode_to_mount_list v (s.vfs.mount v)) s.handed w
  change _ + [v].count w = _ + 0 at hw
  show _ ↔ w ∈ s.vfs.vnode_table ∧ s.vfs.mount w = m ∧ _
  by_cases hwv : w = v
  · subst hwv
    rw [Vfs.count_self] at hw
    by_cases hm : m = s.vfs.mount w
    · subst hm
      rw [update_self]
      exact iff_of_true (mem_singleton_self w) ⟨hmem, rfl, by omega⟩
    · rw [update_of_ne hm]
      exact iff_of_false (hout m) fun hin => hm hin.2.1.symm
  · rw [Vfs.count_of_ne hwv, Nat.add_zero, Nat.add_zero] at hw
    rw [hw]
    by_cases hm : m = s.vfs.mount v
    · subst hm
      rw [update_self, mem_singleton, iff_false_left hwv]
      intro hin
      have hlisted := (h.mem (s.vfs.mount v) w).mpr hin
      rw [hnil] at hlisted
      exact absurd hlisted not_mem_nil
    · rw [update_of_ne hm]
      exact h.mem m w

/-- The vnode gets out of its list. -/
theorem Listing.goOn_remove (hsound : s.Sound)
    (hcall : s.calls[i]? = some call) (hbusy : listedBusy call = [v]) (new : VnodeCall)
    (hold : call.unlisted = []) (hnew : new.unlisted = [v]) :
    (VnodeSystem.setCall { s with vfs := s.vfs.remove_vnode_from_mount_list v (s.vfs.mount v) } i
      new).Listing (update lists (s.vfs.mount v) ((lists (s.vfs.mount v)).erase v)) := by
  obtain ⟨hmem, hzero⟩ := hsound.listed hcall hbusy
  have hin := (h.mem (s.vfs.mount v) v).mpr ⟨hmem, rfl, hzero⟩
  refine ⟨h.chains.remove hin, fun m w => ?_⟩
  have hw := between_setCall hcall new
    (s.vfs.remove_vnode_from_mount_list v (s.vfs.mount v)) s.handed w
  rw [hold, hnew, count_nil, Nat.add_zero] at hw
  show _ ↔ w ∈ s.vfs.vnode_table ∧ s.vfs.mount w = m ∧ _
  rw [hw]
  by_cases hwv : w = v
  · subst hwv
    rw [Vfs.count_self]
    refine iff_of_false (fun hlisted => ?_) fun hlisted => Nat.succ_ne_zero _ hlisted.2.2
    by_cases hm : m = s.vfs.mount w
    · subst hm
      rw [update_self] at hlisted
      exact (h.chains.forward.nodup _).not_mem_erase hlisted
    · rw [update_of_ne hm] at hlisted
      exact hm ((h.mem m w).mp hlisted).2.1.symm
  · rw [Vfs.count_of_ne hwv, Nat.add_zero, ← Listed, ← h.mem m w]
    by_cases hm : m = s.vfs.mount v
    · subst hm
      rw [update_self, mem_erase_of_ne hwv]
    · rw [update_of_ne hm]

theorem Listing.goOn_unhash (hsound : s.Sound)
    (hcall : s.calls[i]? = some call) (hold : call.unlisted = [v]) :
    (VnodeSystem.setCall { s with vfs := s.vfs.remove_vnode v } i (.freeing v)).Listing lists := by
  obtain ⟨hmem, hone⟩ := hsound.unlisted hcall hold
  refine h.congr h.chains fun m w => ?_
  have hw := between_setCall hcall (.freeing v) (s.vfs.remove_vnode v) s.handed w
  rw [hold] at hw
  change _ = _ + 0 at hw
  show w ∈ s.vfs.vnode_table.erase v ∧ s.vfs.mount w = m ∧ _ ↔ _
  by_cases hwv : w = v
  · subst hwv
    refine iff_of_false (fun hin => hsound.tracked.nodup.not_mem_erase hin.1) fun hin => ?_
    have hzero := hin.2.2
    omega
  · rw [Vfs.count_of_ne hwv, Nat.add_zero, Nat.add_zero] at hw
    rw [mem_erase_of_ne hwv, hw]
    exact Iff.rfl

end

/-! ## The runs -/

/-- The list that the vnode of the call gets into is empty. -/
def AddsToEmpty (vfs : Vfs) : VnodeCall → Prop
  | .adding v => vfs.vnodes_head (vfs.mount v) = none
  | _ => True

instance (vfs : Vfs) : DecidablePred (AddsToEmpty vfs) := fun call => by
  induction call using VnodeCall.casesOn with
  | adding v => exact inferInstanceAs (Decidable (_ = none))
  | _ => exact inferInstanceAs (Decidable True)

/-- The condition on a step: a vnode only gets into an empty list, and `get_vnode` does not take a
vnode that is busy or was freed. -/
def ListSafe (s : VnodeSystem) (a : VnodeAction) : Prop :=
  s.Safe a ∧ match a with
    | .go i _ => ∀ call ∈ s.calls[i]?, AddsToEmpty s.vfs call
    | _ => True

instance (s : VnodeSystem) : DecidablePred s.ListSafe := fun a => by
  induction a using VnodeAction.casesOn with
  | go i _ => exact inferInstanceAs (Decidable (_ ∧ ∀ call ∈ s.calls[i]?, AddsToEmpty s.vfs call))
  | _ => exact inferInstanceAs (Decidable (_ ∧ True))

theorem unlisted_dec (vfs : Vfs) (v : Nat) : (dec_vnode_ref_count vfs v).2.unlisted = [] := by
  unfold dec_vnode_ref_count
  split
  · rfl
  · split <;> rfl

theorem table_dec (vfs : Vfs) (v : Nat) :
    (dec_vnode_ref_count vfs v).1.vnode_table = vfs.vnode_table ∧
      (dec_vnode_ref_count vfs v).1.mount = vfs.mount := by
  unfold dec_vnode_ref_count
  split
  · exact ⟨rfl, rfl⟩
  · split <;> exact ⟨rfl, rfl⟩

theorem mountLists_dec {vfs : Vfs} (h : vfs.MountLists lists) (v : Nat) :
    (dec_vnode_ref_count vfs v).1.MountLists lists := by
  unfold dec_vnode_ref_count
  split
  · exact h
  · split <;> exact h

theorem Listing.get_vnode (h : s.Listing lists) (hsound : s.Sound) (fsid : fs_id)
    (vnid : vnode_id) (memory : Bool) : (s.get_vnode fsid vnid memory).Listing lists := by
  unfold VnodeSystem.get_vnode
  cases s.vfs.lookup_vnode fsid vnid with
  | some v =>
    show (if s.vfs.busy v then _ else _ : VnodeSystem).Listing lists
    split
    · exact h.addCall (.snoozing v) s.vfs s.handed rfl h.chains rfl rfl
    · exact h.addCall (.got v (s.vfs.busy v)) (s.vfs.inc_vnode_ref_count v) (v :: s.handed) rfl
        h.chains rfl rfl
  | none =>
    show (if memory then _ else _ : VnodeSystem).Listing lists
    split
    · split
      · exact h.insert hsound fsid vnid _
      · exact h.addCall (.returned _) s.vfs s.handed rfl h.chains rfl rfl
    · exact h.addCall (.returned _) s.vfs s.handed rfl h.chains rfl rfl

theorem Listing.goOn (h : s.Listing lists) (hsound : s.Sound) {err : Int}
    (hcall : s.calls[i]? = some call) (hsafe : AddsToEmpty s.vfs call)
    (hstep : s.goOn i err call = some s') : ∃ lists', s'.Listing lists' := by
  cases call with
  | snoozing v =>
    cases hstep
    exact ⟨_, h.setCall hcall (.got v (s.vfs.busy v)) (s.vfs.inc_vnode_ref_count v)
      (v :: s.handed) rfl h.chains rfl rfl⟩
  | adding v =>
    cases hstep
    exact ⟨_, h.goOn_add hsound hcall hsafe⟩
  | reading v =>
    cases hstep
    split
    · exact ⟨_, h.goOn_remove hsound hcall rfl (.failing v err) rfl rfl⟩
    · exact ⟨_, h.setCall hcall (.got v _) (s.vfs.ready_vnode v) (v :: s.handed) rfl h.chains rfl
        rfl⟩
  | failing v err =>
    cases hstep
    exact ⟨_, h.goOn_unhash hsound hcall rfl⟩
  | putting v =>
    cases hstep
    have hremove := h.goOn_remove hsound hcall rfl (.removing v) rfl rfl
    exact ⟨_, hremove.chains, hremove.mem⟩
  | removing v =>
    cases hstep
    exact ⟨_, h.goOn_unhash hsound hcall rfl⟩
  | freeing v =>
    cases hstep
    exact ⟨_, h.setCall hcall (.returned (.ok ())) (s.vfs.free_vnode v) s.handed rfl h.chains rfl
      rfl⟩
  | releasing v owned =>
    cases hstep
    obtain ⟨htable, hmount⟩ := table_dec s.vfs v
    exact ⟨_, h.setCall hcall _ _ s.handed (unlisted_dec s.vfs v) (mountLists_dec h.chains v)
      htable hmount⟩
  | got v busy | returned result | panicked => cases hstep

theorem Listing.step (h : s.Listing lists) (hsound : s.Sound) {a : VnodeAction}
    (hsafe : s.ListSafe a) (hstep : Step s a s') : ∃ lists', s'.Listing lists' := by
  cases a with
  | get_vnode fsid vnid memory =>
    cases hstep
    exact ⟨_, h.get_vnode hsound fsid vnid memory⟩
  | inc_vnode_ref_count v =>
    simp only [Step, VnodeSystem.step] at hstep
    split at hstep
    · cases hstep
      exact ⟨_, h.congr h.chains fun _ _ => Iff.rfl⟩
    · cases hstep
  | put_vnode v =>
    simp only [Step, VnodeSystem.step] at hstep
    split at hstep
    · cases hstep
      obtain ⟨htable, hmount⟩ := table_dec s.vfs v
      exact ⟨_, h.addCall _ _ _ (unlisted_dec s.vfs v) (mountLists_dec h.chains v) htable hmount⟩
    · cases hstep
  | vfs_put_vnode owned =>
    simp only [Step, VnodeSystem.step] at hstep
    split at hstep
    · cases hstep
      exact ⟨_, h.addCall _ s.vfs _ (by split <;> rfl) h.chains rfl rfl⟩
    · cases hstep
  | vfs_remove_vnode fsid vnid =>
    cases hstep
    refine ⟨lists, ?_⟩
    unfold VnodeSystem.vfs_remove_vnode
    split
    · exact h.congr h.chains fun _ _ => Iff.rfl
    · exact h
  | go i err =>
    simp only [Step, VnodeSystem.step] at hstep
    split at hstep
    · rename_i call hcall
      exact h.goOn hsound hcall (hsafe.2 call hcall) hstep
    · cases hstep

theorem Listing.init (h : s.Init) : s.Listing fun _ => [] := by
  obtain ⟨htable, -, -, -, hempty⟩ := h
  refine ⟨⟨⟨fun m => (hempty m).1, fun _ => nodup_nil, ?_⟩,
    ⟨fun m => (hempty m).2, fun _ => nodup_nil, ?_⟩⟩, fun m v => ?_⟩
  · exact fun _ _ _ _ hx => absurd hx not_mem_nil
  · exact fun _ _ _ _ hx => absurd hx not_mem_nil
  · exact iff_of_false not_mem_nil fun hv => not_mem_nil (htable ▸ hv.1)

theorem Listing.reached (h : By Init ListSafe Step s) : s.Sound ∧ ∃ lists, s.Listing lists := by
  refine h.invariant (fun s => s.Sound ∧ ∃ lists, s.Listing lists)
    (fun _ hinit => ⟨.init hinit, _, .init hinit⟩) fun s a s' hinv hsafe hstep => ?_
  obtain ⟨hsound, lists, hlists⟩ := hinv
  exact ⟨hsound.step hsafe.1 hstep, hlists.step hsound hsafe hstep⟩

/-- The list of the mount has the vnodes of the mount that are in the table, but for those whose call
is between the table and the list. -/
def ExactList (s : VnodeSystem) (m : Nat) : Prop :=
  ∃ vs, s.vfs.MountList m vs ∧
    ∀ v, v ∈ vs ↔ v ∈ s.vfs.vnode_table ∧ s.vfs.mount v = m ∧ ∀ call ∈ s.calls, v ∉ call.unlisted

/-- As long as vnodes only get into empty lists, the lists of all mounts are exact; a vnode that gets
into a list with another one makes it wrong. -/
theorem mount_lists_exact (h : By Init ListSafe Step s) : (∀ m, s.ExactList m) ∧
    ∀ i v err, s.calls[i]? = some (.adding v) → s.vfs.vnodes_head (s.vfs.mount v) ≠ none →
      ∀ s', Step s (.go i err) s' → ¬ s'.ExactList (s.vfs.mount v) := by
  obtain ⟨hsound, lists, hlists⟩ := Listing.reached h
  refine ⟨fun m => ⟨lists m, hlists.chains.mountList m, fun v => ?_⟩, ?_⟩
  · rw [hlists.mem m v, Listed, between_eq_zero]
  · intro i v err hcall hhead s' hstep
    rintro ⟨vs, hvs, -⟩
    simp only [Step, VnodeSystem.step, hcall] at hstep
    cases hstep
    refine (hlists.chains.mountList (s.vfs.mount v)).add_not (fun hin => ?_) hhead vs hvs
    have hone := (hsound.unlisted hcall rfl).2
    have hzero := ((hlists.mem _ v).mp hin).2.2
    omega

/-- Two vnodes, one after the other. -/
theorem mount_lists_exact_again : ∃ s, By Init ListSafe Step s ∧ s.ExactList 0 ∧
    s.vfs.vnode_table = [1] := by
  have hexec : (exec (guarded ListSafe step)
      [.get_vnode 0 5 true, .go 0 0, .go 0 0, .put_vnode 0, .go 1 0, .go 1 0, .go 1 0,
        .get_vnode 0 6 true, .go 2 0] oneMount).map (fun s => s.vfs.vnode_table) = some [1] := by
    decide +kernel
  obtain ⟨s, hs, htable⟩ := Option.map_eq_some_iff.mp hexec
  have hreach : By Init ListSafe Step s :=
    By.exec (fun _ _ _ => guarded_some) _ (.init init_oneMount) hs
  exact ⟨s, hreach, (mount_lists_exact hreach).1 0, htable⟩

/-- Two vnodes at a time: when the first one is released, its list loses the second one. -/
theorem mount_lists_not_exact : ¬ ∀ s, By Init (fun _ _ => True) Step s → ∀ m, s.ExactList m := by
  intro hall
  have hexec : (exec step
      [.get_vnode 0 5 true, .go 0 0, .go 0 0, .get_vnode 0 6 true, .go 1 0, .go 1 0, .put_vnode 0,
        .go 2 0, .go 2 0, .go 2 0] oneMount).map
      (fun s => (s.vfs.vnodes_head 0, s.vfs.vnode_table, s.vfs.mount 1, s.between 1)) =
        some (none, [1], 0, 0) := by decide +kernel
  obtain ⟨s, hs, hend⟩ := Option.map_eq_some_iff.mp hexec
  obtain ⟨hhead, hend⟩ := Prod.mk.inj hend
  obtain ⟨htable, hend⟩ := Prod.mk.inj hend
  obtain ⟨hmount, hbetween⟩ := Prod.mk.inj hend
  have hreach : By Init (fun _ _ => True) Step s :=
    By.exec (fun _ _ _ h => ⟨trivial, h⟩) _ (.init init_oneMount) hs
  obtain ⟨vs, hvs, hmem⟩ := hall s hreach 0
  have hin : 1 ∈ vs := (hmem 1).mpr
    ⟨htable ▸ mem_singleton_self 1, hmount, between_eq_zero.mp hbetween⟩
  have hnil : vs = [] := by
    have hfirst := hvs.next.head
    rw [hhead] at hfirst
    exact List.head?_eq_none_iff.mp hfirst.symm
  rw [hnil] at hin
  exact absurd hin not_mem_nil

end VnodeSystem

end Kernel
