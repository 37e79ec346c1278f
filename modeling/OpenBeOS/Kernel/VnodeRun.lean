import OpenBeOS.Kernel.Vnode
import OpenBeOS.Lib.Reachable
import OpenBeOS.Lib.RefCount

/-! # References to vnodes

`Tracked` says of the table what the calls need: one call has each busy vnode, and the others count
their references. Every step keeps it, as long as no `get_vnode` that has slept takes a vnode which
is still busy, or was freed.
-/

namespace Kernel

open RefCount Reachable Function List

namespace Vfs

variable {s : Vfs} {v m : Nat} {fsid : fs_id} {vnid : vnode_id} {window refs : Nat → Nat}

theorem lookup_vnode_some (h : s.lookup_vnode fsid vnid = some v) :
    v ∈ s.vnode_table ∧ s.fsid v = fsid ∧ s.vnid v = vnid := by
  have hids := List.find?_some h
  exact ⟨mem_of_find?_eq_some h, of_decide_eq_true hids⟩

theorem lookup_vnode_none (h : s.lookup_vnode fsid vnid = none) (hv : v ∈ s.vnode_table) :
    ¬ (s.fsid v = fsid ∧ s.vnid v = vnid) := by
  have hnone := List.find?_eq_none.mp h v hv
  exact fun hids => hnone (decide_eq_true hids)

/-! ## The table and the references -/

/-- The vnodes in the table have different ids. A busy vnode is in the window of one call; the
`ref_count` of another one is the number of references, and there are no references but those. -/
structure Tracked (s : Vfs) (window refs : Nat → Nat) : Prop where
  nodup : s.vnode_table.Nodup
  unique : ∀ v ∈ s.vnode_table, ∀ w ∈ s.vnode_table,
    s.fsid v = s.fsid w → s.vnid v = s.vnid w → v = w
  made : ∀ v ∈ s.vnode_table, v < s.next_vnode
  window : ∀ v, window v = if v ∈ s.vnode_table ∧ s.busy v = true then 1 else 0
  counted : ∀ v ∈ s.vnode_table, s.busy v = false → s.ref_count v = refs v
  held : ∀ v, 0 < refs v → v ∈ s.vnode_table ∧ s.busy v = false
  freed : ∀ v ∈ s.freed, v ∉ s.vnode_table ∧ v < s.next_vnode

theorem Tracked.congr (h : s.Tracked window refs) {window' refs' : Nat → Nat}
    (hwindow : ∀ v, window' v = window v) (hrefs : ∀ v, refs' v = refs v) :
    s.Tracked window' refs' := by
  have hsame : window' = window := funext hwindow
  have hsame' : refs' = refs := funext hrefs
  subst hsame hsame'
  exact h

theorem Tracked.busy_of_window (h : s.Tracked window refs) (hv : 0 < window v) :
    v ∈ s.vnode_table ∧ s.busy v = true ∧ window v = 1 ∧ refs v = 0 := by
  have hwindow := h.window v
  split at hwindow
  · rename_i hbusy
    refine ⟨hbusy.1, hbusy.2, hwindow, ?_⟩
    by_contra hrefs
    have hidle := (h.held v (Nat.pos_of_ne_zero hrefs)).2
    rw [hbusy.2] at hidle
    cases hidle
  · omega

theorem count_self (v : Nat) : [v].count v = 1 := count_singleton_self

theorem count_of_ne {v w : Nat} (h : w ≠ v) : [v].count w = 0 := by
  rw [count_singleton, if_neg (by simpa using Ne.symm h)]

section

variable (h : s.Tracked window refs)
include h

theorem Tracked.inc (hv : v ∈ s.vnode_table) (hidle : s.busy v = false) :
    (s.inc_vnode_ref_count v).Tracked window fun w => refs w + [v].count w := by
  refine ⟨h.nodup, h.unique, h.made, h.window, fun w hw hw' => ?_, fun w hw => ?_, h.freed⟩
  · show update s.ref_count v (s.ref_count v + 1) w = _
    have hcounted := h.counted w hw hw'
    by_cases hwv : w = v
    · subst hwv
      rw [update_self, count_self]
      omega
    · rw [update_of_ne hwv, count_of_ne hwv]
      omega
  · by_cases hwv : w = v
    · subst hwv
      exact ⟨hv, hidle⟩
    · rw [count_of_ne hwv] at hw
      exact h.held w hw

/-- A new vnode, in the window of the call that has made it. -/
theorem Tracked.insert (hnone : s.lookup_vnode fsid vnid = none)
    (m : Nat) :
    (s.insert_vnode fsid vnid m).Tracked (fun w => window w + [s.next_vnode].count w) refs := by
  have hnew : s.next_vnode ∉ s.vnode_table := fun hmem => Nat.lt_irrefl _ (h.made _ hmem)
  have hold : ∀ w ∈ s.vnode_table, w ≠ s.next_vnode := fun w hw heq => hnew (heq ▸ hw)
  refine ⟨nodup_cons.mpr ⟨hnew, h.nodup⟩, ?_, fun w hw => ?_, fun w => ?_, fun w hw hw' => ?_,
    fun w hw => ?_, fun w hw => ?_⟩
  · intro v hv w hw hfsid hvnid
    change update s.fsid s.next_vnode fsid v = update s.fsid _ fsid w at hfsid
    change update s.vnid s.next_vnode vnid v = update s.vnid _ vnid w at hvnid
    rcases mem_cons.mp hv with rfl | hv <;> rcases mem_cons.mp hw with rfl | hw
    · rfl
    · rw [update_self, update_of_ne (hold w hw)] at hfsid hvnid
      exact absurd ⟨hfsid.symm, hvnid.symm⟩ (lookup_vnode_none hnone hw)
    · rw [update_self, update_of_ne (hold v hv)] at hfsid hvnid
      exact absurd ⟨hfsid, hvnid⟩ (lookup_vnode_none hnone hv)
    · rw [update_of_ne (hold v hv), update_of_ne (hold w hw)] at hfsid hvnid
      exact h.unique v hv w hw hfsid hvnid
  · show w < s.next_vnode + 1
    rcases mem_cons.mp hw with rfl | hw
    · exact Nat.lt_succ_self _
    · exact Nat.lt_succ_of_lt (h.made w hw)
  · show _ = if w ∈ s.next_vnode :: s.vnode_table ∧
      update s.busy s.next_vnode true w = true then 1 else 0
    have hwindow := h.window w
    by_cases hwv : w = s.next_vnode
    · subst hwv
      rw [if_neg fun hbusy => hnew hbusy.1] at hwindow
      rw [update_self, if_pos ⟨mem_cons_self .., rfl⟩, hwindow, count_self]
    · rw [update_of_ne hwv, count_of_ne hwv, hwindow, Nat.add_zero]
      exact if_congr (by rw [mem_cons, or_iff_right hwv]) rfl rfl
  · change update s.busy s.next_vnode true w = false at hw'
    rcases mem_cons.mp hw with rfl | hw
    · rw [update_self] at hw'
      cases hw'
    · rw [update_of_ne (hold w hw)] at hw'
      show update s.ref_count s.next_vnode 0 w = _
      rw [update_of_ne (hold w hw)]
      exact h.counted w hw hw'
  · obtain ⟨hmem, hidle⟩ := h.held w hw
    refine ⟨mem_cons_of_mem _ hmem, ?_⟩
    show update s.busy s.next_vnode true w = false
    rw [update_of_ne (hold w hmem)]
    exact hidle
  · obtain ⟨hout, hlt⟩ := h.freed w hw
    refine ⟨fun hmem => ?_, Nat.lt_succ_of_lt hlt⟩
    rcases mem_cons.mp hmem with rfl | hmem
    · exact Nat.lt_irrefl _ hlt
    · exact hout hmem

/-- The vnode that a call has read in, with the first reference. -/
theorem Tracked.ready (hv : 0 < window v) :
    (s.ready_vnode v).Tracked (fun w => window w - [v].count w) fun w => refs w + [v].count w := by
  obtain ⟨hmem, -, hone, hnone⟩ := h.busy_of_window hv
  refine ⟨h.nodup, h.unique, h.made, fun w => ?_, fun w hw hw' => ?_, fun w hw => ?_, h.freed⟩
  · show _ = if w ∈ s.vnode_table ∧ update s.busy v false w = true then 1 else 0
    by_cases hwv : w = v
    · subst hwv
      rw [update_self, if_neg fun hbusy => absurd hbusy.2 nofun, hone, count_self]
    · rw [update_of_ne hwv, count_of_ne hwv]
      exact h.window w
  · change update s.busy v false w = false at hw'
    show update s.ref_count v 1 w = _
    by_cases hwv : w = v
    · subst hwv
      rw [update_self, hnone, count_self]
      rfl
    · rw [update_of_ne hwv] at hw' ⊢
      rw [count_of_ne hwv]
      exact h.counted w hw hw'
  · show w ∈ s.vnode_table ∧ update s.busy v false w = false
    by_cases hwv : w = v
    · subst hwv
      exact ⟨hmem, update_self ..⟩
    · rw [count_of_ne hwv] at hw
      rw [update_of_ne hwv]
      exact h.held w hw

/-- The call that has a busy vnode takes it out of the table. -/
theorem Tracked.remove (hv : 0 < window v) :
    (s.remove_vnode v).Tracked (fun w => window w - [v].count w) refs ∧
      v ∉ (s.remove_vnode v).vnode_table ∧ v < s.next_vnode := by
  obtain ⟨hmem, hbusy, hone, hnone⟩ := h.busy_of_window hv
  have herase : ∀ w, w ∈ s.vnode_table.erase v ↔ w ≠ v ∧ w ∈ s.vnode_table := fun w =>
    h.nodup.mem_erase_iff
  refine ⟨⟨h.nodup.erase v, ?_, ?_, fun w => ?_, ?_, fun w hw => ?_, fun w hw => ?_⟩,
    fun hin => ((herase v).mp hin).1 rfl, h.made v hmem⟩
  · exact fun x hx y hy => h.unique x ((herase x).mp hx).2 y ((herase y).mp hy).2
  · exact fun w hw => h.made w ((herase w).mp hw).2
  · show _ = if w ∈ s.vnode_table.erase v ∧ s.busy w = true then 1 else 0
    by_cases hwv : w = v
    · subst hwv
      rw [if_neg fun hin => ((herase w).mp hin.1).1 rfl, hone, count_self]
    · rw [count_of_ne hwv, Nat.sub_zero, h.window w]
      exact if_congr (by rw [herase, and_iff_right hwv]) rfl rfl
  · exact fun w hw => h.counted w ((herase w).mp hw).2
  · obtain ⟨hin, hidle⟩ := h.held w hw
    refine ⟨(herase w).mpr ⟨?_, hin⟩, hidle⟩
    rintro rfl
    omega
  · obtain ⟨hout, hlt⟩ := h.freed w hw
    exact ⟨fun hin => hout ((herase w).mp hin).2, hlt⟩

/-- A reference less; the call that lets the last one go marks the vnode busy. -/
theorem Tracked.dec (hv : 0 < refs v) {dec : Vfs × VnodeCall}
    (hdec : VnodeSystem.dec_vnode_ref_count s v = dec) :
    dec.1.Tracked (fun w => window w + dec.2.busyWith.count w) (fun w => refs w - [v].count w) ∧
      (dec.2 = .putting v ∨ dec.2 = .returned (.ok ())) := by
  obtain ⟨hmem, hidle⟩ := h.held v hv
  have hcount := h.counted v hmem hidle
  have hdrop : ∀ w, w ≠ v → (s.drop_ref v).ref_count w = s.ref_count w := fun w hwv =>
    update_of_ne hwv ..
  have hself : (s.drop_ref v).ref_count v = s.ref_count v - 1 := update_self ..
  unfold VnodeSystem.dec_vnode_ref_count at hdec
  rw [if_neg (by rw [hidle]; exact nofun)] at hdec
  split at hdec
  · rename_i hlast
    subst hdec
    refine ⟨⟨h.nodup, h.unique, h.made, fun w => ?_, fun w hw hw' => ?_, fun w hw => ?_, h.freed⟩,
      Or.inl rfl⟩
    · show window w + [v].count w =
        if w ∈ s.vnode_table ∧ update s.busy v true w = true then 1 else 0
      have hwindow := h.window w
      by_cases hwv : w = v
      · subst hwv
        rw [if_neg fun hbusy => by rw [hidle] at hbusy; exact absurd hbusy.2 nofun] at hwindow
        rw [update_self, if_pos ⟨hmem, rfl⟩, count_self, hwindow]
      · rw [update_of_ne hwv, count_of_ne hwv, hwindow, Nat.add_zero]
    · change update s.busy v true w = false at hw'
      by_cases hwv : w = v
      · subst hwv
        rw [update_self] at hw'
        cases hw'
      · rw [update_of_ne hwv] at hw'
        rw [count_of_ne hwv, Nat.sub_zero, ← h.counted w hw hw']
        exact hdrop w hwv
    · show w ∈ s.vnode_table ∧ update s.busy v true w = false
      by_cases hwv : w = v
      · subst hwv
        rw [count_self] at hw
        omega
      · rw [update_of_ne hwv]
        exact h.held w (Nat.lt_of_lt_of_le hw (Nat.sub_le ..))
  · rename_i hmore
    subst hdec
    refine ⟨⟨h.nodup, h.unique, h.made, h.window, fun w hw hw' => ?_, fun w hw => ?_, h.freed⟩,
      Or.inr rfl⟩
    · by_cases hwv : w = v
      · subst hwv
        rw [hself, count_self]
        omega
      · rw [hdrop w hwv, count_of_ne hwv, h.counted w hw hw']
        rfl
    · exact h.held w (Nat.lt_of_lt_of_le hw (Nat.sub_le ..))

end

end Vfs

namespace VnodeSystem

variable {s s' : VnodeSystem} {i v : Nat} {call : VnodeCall}

/-! ## The invariant -/

/-- The calls whose window a busy vnode is in. -/
def window (s : VnodeSystem) (v : Nat) : Nat := (s.calls.map fun call => call.busyWith.count v).sum

def CallOk (vfs : Vfs) : VnodeCall → Prop
  | .freeing v => v ∉ vfs.vnode_table ∧ v < vfs.next_vnode
  | .releasing v owned => v = owned
  | .got _ busy => busy = false
  | .panicked => False
  | _ => True

structure Sound (s : VnodeSystem) : Prop where
  tracked : s.vfs.Tracked s.window s.references
  call : ∀ call ∈ s.calls, CallOk s.vfs call

/-- No vnode made before has come back into the table. -/
structure Later (s s' : Vfs) : Prop where
  next : s.next_vnode ≤ s'.next_vnode
  table : ∀ v ∈ s'.vnode_table, v < s.next_vnode → v ∈ s.vnode_table

theorem CallOk.later {vfs vfs' : Vfs} (h : CallOk vfs call) (hlater : Later vfs vfs') :
    CallOk vfs' call := by
  cases call with
  | freeing v => exact ⟨fun hin => h.1 (hlater.table v hin h.2), Nat.lt_of_lt_of_le h.2 hlater.next⟩
  | _ => exact h

theorem Later.same {s s' : Vfs} (htable : s'.vnode_table = s.vnode_table)
    (hnext : s'.next_vnode = s.next_vnode) : Later s s' :=
  ⟨Nat.le_of_eq hnext.symm, fun _ hv _ => htable ▸ hv⟩

theorem Later.insert (s : Vfs) (fsid : fs_id) (vnid : vnode_id) (m : Nat) :
    Later s (s.insert_vnode fsid vnid m) := by
  refine ⟨Nat.le_succ _, fun v hv hlt => ?_⟩
  rcases mem_cons.mp hv with rfl | hv
  · exact absurd hlt (Nat.lt_irrefl _)
  · exact hv

theorem Later.remove (s : Vfs) (v : Nat) : Later s (s.remove_vnode v) :=
  ⟨Nat.le_refl _, fun _ hw _ => mem_of_mem_erase hw⟩

theorem Later.dec (vfs : Vfs) (v : Nat) : Later vfs (dec_vnode_ref_count vfs v).1 := by
  unfold dec_vnode_ref_count
  split
  · exact .same rfl rfl
  · split <;> exact .same rfl rfl

variable {handed : List Nat} {vfs : Vfs}

theorem Sound.setCall (h : s.Sound) (hcall : s.calls[i]? = some call) (new : VnodeCall) (hlater : Later s.vfs vfs) (hnew : CallOk vfs new)
    (htracked : ∀ window refs : Nat → Nat,
      (∀ x, window x + call.busyWith.count x = s.window x + new.busyWith.count x) →
      (∀ x, refs x + (call.holds.count x + s.handed.count x) =
        s.references x + (new.holds.count x + handed.count x)) → vfs.Tracked window refs) :
    (setCall { s with vfs, handed } i new).Sound := by
  refine ⟨htracked _ _ (fun x => ?_) fun x => ?_, fun call' hcall' => ?_⟩
  · exact sum_map_set hcall new
  · have hsum := sum_map_set (g := fun call => call.holds.count x) hcall new
    show handed.count x + ((s.calls.set i new).map fun call => call.holds.count x).sum + _ = _
    unfold references
    omega
  · rcases mem_or_eq_of_mem_set hcall' with hold | rfl
    · exact (h.call call' hold).later hlater
    · exact hnew

theorem Sound.addCall (h : s.Sound) (new : VnodeCall)
    (hlater : Later s.vfs vfs) (hnew : CallOk vfs new)
    (htracked : ∀ refs : Nat → Nat,
      (∀ x, refs x + s.handed.count x = s.references x + (new.holds.count x + handed.count x)) →
      vfs.Tracked (fun x => s.window x + new.busyWith.count x) refs) :
    (addCall { s with vfs, handed } new).Sound := by
  refine ⟨(htracked _ fun x => ?_).congr (fun x => ?_) fun x => rfl, fun call' hcall' => ?_⟩
  · show handed.count x + ((s.calls ++ [new]).map fun call => call.holds.count x).sum + _ = _
    rw [sum_map_append_singleton]
    unfold references
    omega
  · exact sum_map_append_singleton s.calls new
  · rcases mem_append.mp hcall' with hold | hlast
    · exact (h.call call' hold).later hlater
    · obtain rfl := mem_singleton.mp hlast
      exact hnew

/-! ## The references of a caller -/

theorem references_of_handed (hv : v ∈ s.handed) : 0 < s.references v :=
  Nat.lt_of_lt_of_le (count_pos_iff.mpr hv) (Nat.le_add_right ..)

theorem references_of_holds (hcall : s.calls[i]? = some call) (hv : v ∈ call.holds) :
    0 < s.references v := by
  have hle : call.holds.count v ≤ (s.calls.map fun call => call.holds.count v).sum :=
    le_sum_map_of_mem (g := fun call : VnodeCall => call.holds.count v)
      (mem_of_getElem? hcall)
  have hpos := count_pos_iff.mpr hv
  unfold references
  omega

theorem window_of_busyWith (hcall : s.calls[i]? = some call) (hv : v ∈ call.busyWith) :
    0 < s.window v := by
  have hle : call.busyWith.count v ≤ s.window v :=
    le_sum_map_of_mem (g := fun call : VnodeCall => call.busyWith.count v)
      (mem_of_getElem? hcall)
  exact Nat.lt_of_lt_of_le (count_pos_iff.mpr hv) hle

theorem count_erase_add (hv : v ∈ handed) (x : Nat) :
    (handed.erase v).count x + [v].count x = handed.count x := by
  rw [(perm_cons_erase hv).count_eq x, count_singleton, count_cons]

theorem count_cons_add (handed : List Nat) (v x : Nat) :
    (v :: handed).count x = handed.count x + [v].count x := by
  rw [count_cons, count_singleton]

/-! ## The sections -/

theorem Sound.get_vnode (h : s.Sound) (fsid : fs_id) (vnid : vnode_id) (memory : Bool) :
    (s.get_vnode fsid vnid memory).Sound := by
  have hsame : ∀ new : VnodeCall, new.holds = [] → new.busyWith = [] → CallOk s.vfs new →
      (s.addCall new).Sound := fun new hholds hbusy hnew =>
    h.addCall new (.same rfl rfl) hnew fun refs hrefs => by
      rw [hbusy]
      rw [hholds] at hrefs
      exact h.tracked.congr (fun x => rfl) fun x => by
        have hx := hrefs x
        rw [count_nil] at hx
        omega
  unfold VnodeSystem.get_vnode
  cases hlookup : s.vfs.lookup_vnode fsid vnid with
  | some v =>
    have hmem := (Vfs.lookup_vnode_some hlookup).1
    show (if s.vfs.busy v then _ else _ : VnodeSystem).Sound
    split
    · exact hsame _ rfl rfl trivial
    · rename_i hidle
      have hidle := Bool.eq_false_iff.mpr hidle
      refine h.addCall (.got v (s.vfs.busy v)) (.same rfl rfl) hidle
        fun refs hrefs => ?_
      refine (h.tracked.inc hmem hidle).congr (fun x => rfl) fun x => ?_
      have hx := hrefs x
      rw [count_cons_add] at hx
      change _ = _ + (0 + _) at hx
      omega
  | none =>
    show (if memory then _ else _ : VnodeSystem).Sound
    split
    · split
      · rename_i m hm
        refine h.addCall (.adding s.vfs.next_vnode) (.insert s.vfs fsid vnid m) trivial
          fun refs hrefs => ?_
        refine (h.tracked.insert hlookup m).congr (fun x => rfl) fun x => ?_
        have hx := hrefs x
        change _ = _ + (0 + _) at hx
        omega
      · exact hsame _ rfl rfl trivial
    · exact hsame _ rfl rfl trivial

theorem Sound.take (h : s.Sound) (hv : v ∈ s.vfs.vnode_table) (hidle : s.vfs.busy v = false) :
    (s.take v).Sound := by
  refine ⟨(h.tracked.inc hv hidle).congr (fun x => rfl) fun x => ?_, fun call hcall => ?_⟩
  · show (v :: s.handed).count x + (s.calls.map fun call => call.holds.count x).sum = _
    rw [count_cons_add]
    unfold references
    omega
  · exact (h.call call hcall).later (.same rfl rfl)

theorem Sound.put_vnode (h : s.Sound) (hv : v ∈ s.handed) : (s.put_vnode v).Sound := by
  obtain ⟨htracked, hnew⟩ := h.tracked.dec (references_of_handed hv) rfl
  refine h.addCall (dec_vnode_ref_count s.vfs v).2 (.dec s.vfs v)
    (by rcases hnew with hnew | hnew <;> rw [hnew] <;> trivial)
    fun refs hrefs => htracked.congr (fun x => rfl) fun x => ?_
  have hx := hrefs x
  have herase := count_erase_add hv x
  have hholds : (dec_vnode_ref_count s.vfs v).2.holds.count x = 0 := by
    rcases hnew with hnew | hnew <;> rw [hnew] <;> rfl
  omega

theorem Sound.vfs_put_vnode (h : s.Sound) (hv : v ∈ s.handed) : (s.vfs_put_vnode v).Sound := by
  obtain ⟨hmem, -⟩ := h.tracked.held v (references_of_handed hv)
  unfold VnodeSystem.vfs_put_vnode
  cases hlookup : s.vfs.lookup_vnode (s.vfs.fsid v) (s.vfs.vnid v) with
  | none => exact absurd ⟨rfl, rfl⟩ (Vfs.lookup_vnode_none hlookup hmem)
  | some w =>
    obtain ⟨hw, hfsid, hvnid⟩ := Vfs.lookup_vnode_some hlookup
    obtain rfl := h.tracked.unique w hw v hmem hfsid hvnid
    refine h.addCall (.releasing w w) (.same rfl rfl) rfl fun refs hrefs => ?_
    refine h.tracked.congr (fun x => rfl) fun x => ?_
    have hx := hrefs x
    have herase := count_erase_add hv x
    change _ = _ + ([w].count x + _) at hx
    omega

/-- What `get_vnode` should find behind `thread_snooze`. -/
def SnoozeOver (vfs : Vfs) : VnodeCall → Prop
  | .snoozing v => v ∈ vfs.vnode_table ∧ vfs.busy v = false
  | _ => True

instance (vfs : Vfs) : DecidablePred (SnoozeOver vfs) := fun call => by
  cases call <;> unfold SnoozeOver <;> infer_instance

/-- The condition on a step: a vnode that was busy when `get_vnode` found it is in the table, and
not busy any more, when `get_vnode` takes it. -/
def Safe (s : VnodeSystem) : VnodeAction → Prop
  | .go i _ => ∀ call ∈ s.calls[i]?, SnoozeOver s.vfs call
  | _ => True

instance (s : VnodeSystem) : DecidablePred s.Safe := fun a => by
  cases a <;> unfold Safe <;> infer_instance

theorem Sound.goOn_same (h : s.Sound) (hcall : s.calls[i]? = some call) (new : VnodeCall)
    (hlater : Later s.vfs vfs) (hnew : CallOk vfs new) (hbusy : new.busyWith = call.busyWith)
    (hholds : call.holds = []) (hholds' : new.holds = [])
    (htracked : vfs.Tracked s.window s.references) : (VnodeSystem.setCall { s with vfs } i new).Sound := by
  refine h.setCall hcall new hlater hnew fun window refs hwindow hrefs => ?_
  rw [hbusy] at hwindow
  rw [hholds, hholds'] at hrefs
  exact htracked.congr (fun x => Nat.add_right_cancel (hwindow x)) fun x =>
    Nat.add_right_cancel (hrefs x)

theorem Sound.goOn_remove (h : s.Sound) (hcall : s.calls[i]? = some call)
    (hbusy : call.busyWith = [v]) (hholds : call.holds = []) :
    (VnodeSystem.setCall { s with vfs := s.vfs.remove_vnode v } i (.freeing v)).Sound := by
  have hpos := window_of_busyWith hcall (hbusy ▸ mem_singleton_self v)
  obtain ⟨htracked, hout⟩ := h.tracked.remove hpos
  refine h.setCall hcall (.freeing v) (.remove s.vfs v) hout fun window refs hwindow hrefs => ?_
  rw [hbusy] at hwindow
  rw [hholds] at hrefs
  refine htracked.congr (fun x => ?_) fun x => Nat.add_right_cancel (hrefs x)
  have hx := hwindow x
  change _ = _ + 0 at hx
  omega

theorem Sound.goOn (h : s.Sound) {err : Int} (hcall : s.calls[i]? = some call)
    (hsafe : s.Safe (.go i err)) (hstep : s.goOn i err call = some s') : s'.Sound := by
  cases call with
  | snoozing v =>
    cases hstep
    obtain ⟨hmem, hidle⟩ : v ∈ s.vfs.vnode_table ∧ s.vfs.busy v = false := hsafe _ hcall
    refine h.setCall hcall (.got v (s.vfs.busy v)) (.same rfl rfl) hidle
      fun window refs hwindow hrefs => ?_
    refine (h.tracked.inc hmem hidle).congr (fun x => Nat.add_right_cancel (hwindow x)) fun x => ?_
    have hx := hrefs x
    rw [count_cons_add] at hx
    change _ + (0 + _) = _ + (0 + _) at hx
    omega
  | adding v =>
    cases hstep
    exact h.goOn_same hcall (.reading v) (.same rfl rfl) trivial rfl rfl rfl
      { h.tracked with }
  | reading v =>
    cases hstep
    split
    · exact h.goOn_same hcall (.failing v err) (.same rfl rfl) trivial rfl rfl rfl
        { h.tracked with }
    · have hpos := window_of_busyWith hcall (mem_singleton_self v)
      refine h.setCall hcall _ (.same rfl rfl) (update_self ..)
        fun window refs hwindow hrefs => ?_
      refine (h.tracked.ready hpos).congr (fun x => ?_) fun x => ?_
      · have hx := hwindow x
        change _ + [v].count x = _ + 0 at hx
        omega
      · have hx := hrefs x
        rw [count_cons_add] at hx
        change _ + (0 + _) = _ + (0 + _) at hx
        omega
  | failing v err =>
    cases hstep
    exact h.goOn_remove hcall rfl rfl
  | putting v =>
    cases hstep
    exact h.goOn_same hcall (.removing v) (.same rfl rfl) trivial rfl rfl rfl
      { h.tracked with }
  | removing v =>
    cases hstep
    exact h.goOn_remove hcall rfl rfl
  | freeing v =>
    cases hstep
    refine h.goOn_same hcall (.returned (.ok ())) (.same rfl rfl) trivial rfl rfl rfl
      { h.tracked with freed := fun w hw => ?_ }
    rcases mem_cons.mp hw with rfl | hw
    · exact h.call _ (mem_of_getElem? hcall)
    · exact h.tracked.freed w hw
  | releasing v owned =>
    obtain rfl : v = owned := h.call _ (mem_of_getElem? hcall)
    cases hstep
    have hpos := references_of_holds hcall (mem_singleton_self v)
    obtain ⟨htracked, hnew⟩ := h.tracked.dec hpos rfl
    refine h.setCall hcall (dec_vnode_ref_count s.vfs v).2 (.dec s.vfs v)
      (by rcases hnew with hnew | hnew <;> rw [hnew] <;> trivial)
      fun window refs hwindow hrefs => htracked.congr (fun x => hwindow x) fun x => ?_
    have hx := hrefs x
    have hholds : (dec_vnode_ref_count s.vfs v).2.holds.count x = 0 := by
      rcases hnew with hnew | hnew <;> rw [hnew] <;> rfl
    change _ + ([v].count x + _) = _ at hx
    omega
  | got v busy | returned result | panicked => cases hstep

/-! ## The runs -/

theorem Sound.init (h : s.Init) : s.Sound := by
  obtain ⟨htable, hfreed, hcalls, hhanded, -⟩ := h
  have hmem : ∀ v, v ∉ s.vfs.vnode_table := fun v hv => by
    rw [htable] at hv
    exact absurd hv not_mem_nil
  have hwindow : ∀ v, s.window v = 0 := fun v => by
    unfold window
    rw [hcalls]
    rfl
  have hrefs : ∀ v, s.references v = 0 := fun v => by
    unfold references
    rw [hcalls, hhanded]
    rfl
  refine ⟨⟨?_, ?_, ?_, ?_, ?_, ?_, ?_⟩, ?_⟩
  · rw [htable]
    exact nodup_nil
  · exact fun v hv => absurd hv (hmem v)
  · exact fun v hv => absurd hv (hmem v)
  · exact fun v => by rw [hwindow, if_neg fun hin => hmem v hin.1]
  · exact fun v hv => absurd hv (hmem v)
  · exact fun v hv => absurd (hrefs v ▸ hv) (Nat.lt_irrefl 0)
  · exact fun v hv => absurd (hfreed ▸ hv) not_mem_nil
  · exact fun call hcall => absurd (hcalls ▸ hcall) not_mem_nil

theorem Sound.step (h : s.Sound) {a : VnodeAction} (hsafe : s.Safe a) (hstep : Step s a s') :
    s'.Sound := by
  cases a with
  | get_vnode fsid vnid memory =>
    cases hstep
    exact h.get_vnode fsid vnid memory
  | inc_vnode_ref_count v =>
    simp only [Step, VnodeSystem.step] at hstep
    split at hstep
    · rename_i hv
      cases hstep
      obtain ⟨hmem, hidle⟩ := h.tracked.held v (references_of_handed hv)
      exact h.take hmem hidle
    · cases hstep
  | put_vnode v =>
    simp only [Step, VnodeSystem.step] at hstep
    split at hstep
    · rename_i hv
      cases hstep
      exact h.put_vnode hv
    · cases hstep
  | vfs_put_vnode owned =>
    simp only [Step, VnodeSystem.step] at hstep
    split at hstep
    · rename_i hv
      cases hstep
      exact h.vfs_put_vnode hv
    · cases hstep
  | vfs_remove_vnode fsid vnid =>
    cases hstep
    unfold VnodeSystem.vfs_remove_vnode
    split
    · exact ⟨{ h.tracked with }, fun call hcall => (h.call call hcall).later (.same rfl rfl)⟩
    · exact h
  | go i err =>
    simp only [Step, VnodeSystem.step] at hstep
    split at hstep
    · rename_i call hcall
      exact h.goOn hcall hsafe hstep
    · cases hstep

theorem Sound.reached (h : By Init Safe Step s) : s.Sound :=
  h.invariant Sound (fun _ => Sound.init) fun _ _ _ hs hsafe hstep => hs.step hsafe hstep

/-- What a caller of `get_vnode` relies on. -/
structure UniqueAndHeld (s : VnodeSystem) : Prop where
  /-- No two vnodes in the table have the same ids. -/
  unique : s.vfs.vnode_table.Pairwise fun v w => ¬ (s.vfs.fsid v = s.vfs.fsid w ∧
    s.vfs.vnid v = s.vfs.vnid w)
  /-- The vnode was not busy when `get_vnode` took the reference to it. -/
  got : ∀ v busy, .got v busy ∈ s.calls → busy = false
  /-- The count of a vnode that is not busy is the number of references to it. -/
  counted : ∀ v ∈ s.vfs.vnode_table, s.vfs.busy v = false → s.vfs.ref_count v = s.references v
  /-- There is no reference to a vnode that was freed. -/
  freed : ∀ v ∈ s.vfs.freed, s.references v = 0

/-- If every `get_vnode` that has slept finds its vnode in the table and not busy, vnodes are unique,
never handed out while they are busy, and not freed as long as there is a reference to them. -/
theorem vnodes_unique_and_held (h : By Init Safe Step s) : s.UniqueAndHeld := by
  have hsound := Sound.reached h
  refine ⟨?_, fun v busy hgot => hsound.call _ hgot, hsound.tracked.counted, fun v hv => ?_⟩
  · refine hsound.tracked.nodup.imp_of_mem fun hv hw hne hids => hne ?_
    exact hsound.tracked.unique _ hv _ hw hids.1 hids.2
  · by_contra hrefs
    exact (hsound.tracked.freed v hv).1 (hsound.tracked.held v (Nat.pos_of_ne_zero hrefs)).1

/-! ## Runs with one mount -/

def oneMount : VnodeSystem where
  vfs :=
    { mount_prev := fun _ => none, mount_next := fun _ => none, fsid := fun _ => 0
      vnid := fun _ => 0, mount := fun _ => 0, covered_by := fun _ => none
      ref_count := fun _ => 0, delete_me := fun _ => false, busy := fun _ => false
      id := fun _ => 0, mount_root := fun _ => none, covers_vnode := fun _ => none
      vnodes_head := fun _ => none, vnodes_tail := fun _ => none, unmounting := fun _ => false
      vnode_table := [], mounts_table := [0], root_vnode := none, next_fsid := 1
      next_vnode := 0, next_mount := 1, released := [], freed := [] }
  calls := []
  handed := []

theorem init_oneMount : oneMount.Init := ⟨rfl, rfl, rfl, rfl, fun _ => ⟨rfl, rfl⟩⟩

/-- A second `get_vnode` sleeps until the first one has read the vnode in; both give it back. -/
theorem vnodes_unique_and_held_snoozing :
    ∃ s, By Init Safe Step s ∧ s.UniqueAndHeld ∧ s.vfs.freed = [0] := by
  have hexec : (exec (guarded Safe step)
      [.get_vnode 0 5 true, .go 0 0, .get_vnode 0 5 true, .go 0 0, .go 1 0, .put_vnode 0,
        .vfs_put_vnode 0, .go 3 0, .go 3 0, .go 3 0, .go 3 0] oneMount).map
          (fun s => s.vfs.freed) = some [0] := by decide +kernel
  obtain ⟨s, hs, hfreed⟩ := Option.map_eq_some_iff.mp hexec
  have hreach : By Init Safe Step s :=
    By.exec (fun _ _ _ => guarded_some) _ (.init init_oneMount) hs
  exact ⟨s, hreach, vnodes_unique_and_held hreach, hfreed⟩

/-- The vnode cannot be read in and is freed, while the second `get_vnode` sleeps. -/
theorem vnodes_not_unique_and_held : ¬ ∀ s, By Init (fun _ _ => True) Step s → s.UniqueAndHeld := by
  intro hall
  have hexec : (exec step
      [.get_vnode 0 5 true, .go 0 0, .get_vnode 0 5 true, .go 0 (-1), .go 0 0, .go 0 0, .go 1 0]
        oneMount).map (fun s => (s.vfs.freed, s.references 0)) = some ([0], 1) := by decide +kernel
  obtain ⟨s, hs, hend⟩ := Option.map_eq_some_iff.mp hexec
  obtain ⟨hfreed, hrefs⟩ := Prod.mk.inj hend
  have hreach : By Init (fun _ _ => True) Step s :=
    By.exec (fun _ _ _ h => ⟨trivial, h⟩) _ (.init init_oneMount) hs
  have hnone := (hall s hreach).freed 0 (hfreed ▸ mem_singleton_self 0)
  omega

end VnodeSystem

end Kernel
