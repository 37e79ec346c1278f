import OpenBeOS.Kernel.SmpSend

/-! # Processing a message

What the steps of `smp_process_pending_ici()` do to the messages.
-/

namespace Smp

open Mailbox Tally Function List

variable {μ : Type} {M : Machine μ} {s s' : State μ} {m m' : μ} {i w c : Nat} {p : μ → Phase}

variable {x : Working μ}

theorem Sound.working_idle (h : Sound M s p) (hw : (s.working w).msg = none)
    (hx : x.msg = none) : Sound M { s with working := update s.working w x } p := by
  have hother : ∀ m : μ, ∀ w' y, y.msg = some m →
      (update s.working w x w' = y ↔ s.working w' = y) := by
    intro m
    refine update_same Working.msg ?_ ?_
    · rw [hw]
      exact nofun
    · rw [hx]
      exact nofun
  refine ⟨⟨h.lists.count, h.lists.free, h.lists.mailed, h.lists.shared⟩, ?_, ?_⟩
  · intro m
    have hsame : SameAt s { s with working := update s.working w x } m :=
      ⟨fun _ => ⟨rfl, rfl, fun _ => Iff.rfl⟩, Iff.rfl, rfl, fun _ => Iff.rfl, Iff.rfl,
        fun _ _ _ => Iff.rfl, hother m⟩
    exact hsame.slot (h.slot m)
  · exact h.history.same rfl rfl rfl (fun _ => Iff.rfl) (fun _ => Iff.rfl) h.history.sync

theorem phase_update_free [DecidableEq μ] {q : Phase} (hp : p m ≠ .free) (hq : q ≠ .free) (m' : μ) :
    update p m q m' = .free ↔ p m' = .free := by
  by_cases hm' : m' = m
  · rw [hm', update_self]
    exact ⟨fun heq => absurd heq hq, fun heq => absurd heq hp⟩
  · rw [update_of_ne hm']

theorem working_same (hw : (s.working w).msg = none ∨ (s.working w).msg = some m)
    (hx : x.msg = none ∨ x.msg = some m) (hm' : m' ≠ m) (w' : Nat) (y : Working μ)
    (hy : y.msg = some m') : update s.working w x w' = y ↔ s.working w' = y := by
  have hne : ∀ z : Option μ, z = none ∨ z = some m → z ≠ some m' := by
    rintro z (rfl | rfl)
    · exact nofun
    · exact fun heq => hm' (Option.some.inj heq).symm
  exact update_same Working.msg (hne _ hw) (hne _ hx) w' y hy

/-- The call `w` brings a message from one phase to another. -/
theorem Slot.work {q q' : Phase} (h : Slot M s m q) (hq : q.Posted)
    (hq' : q'.Posted) (hown : s'.owner m = s.owner m) (hsending : s'.sending = s.sending)
    (hfree : s'.free_msgs = s.free_msgs) (hworking : s'.working = update s.working w x)
    (hmailed : ∀ c, m ∈ s'.smp_msgs c ↔ q' = .mailed ∧ (M.call (s.owner m)).target_cpu = some c)
    (hshared : m ∈ s'.smp_broadcast_msgs ↔
      q' = .shared ∨ (∃ w, q' = .last w) ∧ (M.call (s.owner m)).target_cpu = none)
    (hx : (x = .taken m MAILBOX_LOCAL ↔ q' = .opened w) ∧
      (x = .taken m MAILBOX_BCAST → q' = .shared) ∧
      (∀ box, x = .last m box ↔ q' = .last w ∧ box = M.mailbox (s.owner m)) ∧
      (x = .unlinked m ↔ q' = .unlinked w))
    (hothers : ∀ w', w' ≠ w → (q = .opened w' ↔ q' = .opened w') ∧
      (q = .last w' ↔ q' = .last w') ∧ (q = .unlinked w' ↔ q' = .unlinked w'))
    (htaken : ∀ w', w' ≠ w → s.working w' = .taken m MAILBOX_BCAST → q' = .shared)
    (hfacts : q'.Facts M s' m) : Slot M s' m q' := by
  have hne : ∀ q : Phase, q.Posted → q ≠ .free ∧ q ≠ .bounced ∧ q ≠ .ready := by
    intro q hq
    refine ⟨?_, ?_, ?_⟩ <;> rintro rfl <;> exact hq
  obtain ⟨hnotFree, hnotBounced, hnotReady⟩ := hne q hq
  obtain ⟨hnotFree', hnotBounced', hnotReady'⟩ := hne q' hq'
  -- what the call `w` holds is said by `hx`, and nothing changes for the others
  have hat : ∀ w' y, s'.working w' = y ↔ (w' = w ∧ x = y) ∨ (w' ≠ w ∧ s.working w' = y) := by
    intro w' y
    rw [hworking]
    by_cases hww : w' = w
    · rw [hww, update_self]
      simp
    · rw [update_of_ne hww]
      simp [hww]
  constructor
  · rw [hfree, h.free]
    exact ⟨fun heq => absurd heq hnotFree, fun heq => absurd heq hnotFree'⟩
  · rw [hown]
    exact hmailed
  · rw [hown]
    exact hshared
  · intro j
    rw [hsending, h.bounced, hown]
    exact ⟨fun heq => absurd heq.1 hnotBounced, fun heq => absurd heq.1 hnotBounced'⟩
  · intro j
    rw [hsending, h.ready, hown]
    exact ⟨fun heq => absurd heq.1 hnotReady, fun heq => absurd heq.1 hnotReady'⟩
  · intro j
    rw [hsending, h.waiting, hown, and_iff_right hq, and_iff_right hq']
  · intro w'
    rw [hat, h.opened]
    by_cases hww : w' = w
    · rw [hww]
      simpa using hx.1
    · simpa [hww] using (hothers w' hww).1
  · intro w' hw'
    rcases (hat w' _).mp hw' with ⟨-, heq⟩ | ⟨hww, hold⟩
    · exact hx.2.1 heq
    · exact htaken w' hww hold
  · intro w' box
    rw [hat, h.last, hown]
    by_cases hww : w' = w
    · rw [hww]
      simpa using hx.2.2.1 box
    · simpa [hww] using and_congr_left fun _ => (hothers w' hww).2.1
  · intro w'
    rw [hat, h.unlinked]
    by_cases hww : w' = w
    · rw [hww]
      simpa using hx.2.2.2
    · simpa [hww] using (hothers w' hww).2.2
  · exact hfacts

/-- The first section of `smp_check_for_message()`. -/
theorem Sound.check_local (h : Sound M s p) [DecidableEq μ] (hstep : check_local M w s = some s') :
    ∃ p', Sound M s' p' := by
  unfold Smp.check_local at hstep
  split at hstep
  · next hw =>
    split at hstep
    · next m rest hbox =>
      cases hstep
      have hslot := h.slot m
      obtain ⟨hp, htarget⟩ := (hslot.mailed (M.cpu w)).mp (hbox ▸ mem_cons_self ..)
      rw [hp] at hslot
      have hnodup : m ∉ rest ∧ rest.Nodup := by
        have := h.lists.mailed (M.cpu w)
        rw [hbox] at this
        exact nodup_cons.mp this
      have hworking : ∀ w, (s.working w).msg ≠ some m := by
        intro w hw
        rcases hslot.working_msg hw with hq | hq | hq | hq <;> cases hq
      obtain ⟨hway, -, hnone⟩ := hslot.facts
      have hother := fun m' (hm' : m' ≠ m) => @working_same _ s m m' w
        (.taken m MAILBOX_LOCAL) (Or.inl (by rw [hw]; rfl)) (Or.inr rfl) hm'
      refine ⟨update p m (.opened w), ⟨h.lists.count, h.lists.free, ?_, h.lists.shared⟩,
        slots_update h.slot ?_ ?_, ?_⟩
      · intro c
        show (update s.smp_msgs (M.cpu w) rest c).Nodup
        by_cases hc : c = M.cpu w
        · rw [hc, update_self]
          exact hnodup.2
        · rw [update_of_ne hc]
          exact h.lists.mailed c
      · intro m' hm'
        refine ⟨fun _ => ⟨rfl, rfl, fun _ => Iff.rfl⟩, Iff.rfl, rfl, ?_, Iff.rfl,
          fun _ _ _ => Iff.rfl, hother m' hm'⟩
        intro c
        show m' ∈ update s.smp_msgs (M.cpu w) rest c ↔ _
        by_cases hc : c = M.cpu w
        · rw [hc, update_self, hbox, mem_cons, or_iff_right hm']
        · rw [update_of_ne hc]
      · refine hslot.work (w := w) trivial trivial rfl rfl rfl rfl ?_ ?_ (by simp) ?_ ?_ ?_
        · intro c
          show m ∈ update s.smp_msgs (M.cpu w) rest c ↔ _
          refine ⟨fun hm => ?_, nofun⟩
          by_cases hc : c = M.cpu w
          · rw [hc, update_self] at hm
            exact absurd hm hnodup.1
          · rw [update_of_ne hc, hslot.mailed, htarget] at hm
            exact absurd (Option.some.inj hm.2).symm hc
        · simpa using hslot.shared
        · intro w' hww
          simp [Ne.symm hww]
        · intro w' _ hw'
          cases hslot.taken w' hw'
        · have hsame : SameMsg s { s with
              smp_msgs := update s.smp_msgs (M.cpu w) rest
              working := update s.working w (.taken m MAILBOX_LOCAL) } m :=
            ⟨rfl, rfl, fun _ => Iff.rfl⟩
          exact ⟨hsame.underWay hway, htarget, hnone⟩
      · exact h.history.same rfl rfl rfl (phase_update_free (by rw [hp]; exact nofun) nofun)
          (fun _ => Iff.rfl) h.history.sync
    · cases hstep
      exact ⟨p, h.working_idle (by rw [hw]; rfl) rfl⟩
  · cases hstep

theorem Sound.found (h : Sound M s p) (hm : m ∈ s.smp_broadcast_msgs)
    (hbit : CHECK_BIT (s.msgs m).proc_bitmap (M.cpu w) = false) :
    p m = .shared ∧ M.cpu w ≠ (M.call (s.owner m)).curr_cpu ∧ (s.owner m, M.cpu w) ∉ s.handled ∧
      ∀ w', M.cpu w' = M.cpu w → s.working w' ≠ .taken m MAILBOX_BCAST := by
  have hslot := h.slot m
  have hp : p m = .shared := by
    rcases hslot.shared.mp hm with hp | ⟨⟨w', hp⟩, htarget⟩
    · exact hp
    · rw [hp] at hslot
      rw [hslot.facts.2.2 htarget _ (M.cpu_lt w)] at hbit
      cases hbit
  rw [hp] at hslot
  obtain ⟨-, hbits, -⟩ := hslot.facts
  have hclear : ¬ _ := fun hset => Bool.false_ne_true
    (hbit.symm.trans ((hbits.check _ (M.cpu_lt w)).mpr hset))
  refine ⟨hp, fun heq => hclear (Or.inl heq), fun hin => hclear (Or.inr (Or.inl hin)), ?_⟩
  intro w' hcpu hw'
  exact hclear (Or.inr (Or.inr ⟨w', hcpu, hw'⟩))

/-- The second section of `smp_check_for_message()`. -/
theorem Sound.check_broadcast (h : Sound M s p) [DecidableEq μ]
    (hstep : check_broadcast M w s = some s') : ∃ p', Sound M s' p' := by
  unfold Smp.check_broadcast at hstep
  split at hstep
  · next hw =>
    split at hstep
    · next m hfind =>
      cases hstep
      have hmem := mem_of_find?_eq_some hfind
      have hbit : CHECK_BIT (s.msgs m).proc_bitmap (M.cpu w) = false := by
        simpa using List.find?_some hfind
      obtain ⟨hp, hcurr, hnew, hnotTaken⟩ := h.found hmem hbit
      have hslot := h.slot m
      rw [hp] at hslot
      obtain ⟨hway, hbits, hpos, htarget, hcpus⟩ := hslot.facts
      have hother := fun m' (hm' : m' ≠ m) => @working_same _ s m m' w
        (.taken m MAILBOX_BCAST) (Or.inl (by rw [hw]; rfl)) (Or.inr rfl) hm'
      refine ⟨update p m .shared, ⟨h.lists.count, h.lists.free, h.lists.mailed,
        h.lists.shared⟩, slots_update h.slot ?_ ?_, ?_⟩
      · intro m' hm'
        exact ⟨fun _ => ⟨update_of_ne hm' .., rfl, fun _ => Iff.rfl⟩, Iff.rfl, rfl,
          fun _ => Iff.rfl, Iff.rfl, fun _ _ _ => Iff.rfl, hother m' hm'⟩
      · refine hslot.work (w := w) trivial trivial rfl rfl rfl rfl hslot.mailed hslot.shared
          (by simp) ?_ (fun _ _ _ => rfl) ?_
        · intro w' _
          exact ⟨Iff.rfl, Iff.rfl, Iff.rfl⟩
        · refine ⟨⟨hway.notSelf, ?_, ?_, ?_⟩, ⟨?_, ?_⟩, ?_, htarget, ?_⟩
          · show (update s.msgs m _ m).flags = _
            rw [update_self]
            exact hway.flags
          · show (update s.msgs m _ m).done = _
            rw [update_self]
            exact hway.done
          · show (update s.msgs m _ m).ref_count = _
            rw [update_self]
            exact hway.ref_count
          · intro c hc
            have hle := M.le_bits
            have hcpu := M.cpu_lt w
            show CHECK_BIT (update s.msgs m _ m).proc_bitmap c = true ↔
              _ ∨ _ ∨ ∃ w', _ ∧ update s.working w _ w' = _
            rw [update_self]
            dsimp only
            rw [CHECK_SET_BIT _ (by omega) (by omega), Bool.or_eq_true, hbits.check c hc,
              decide_eq_true_eq]
            constructor
            · rintro ((hset | hset | ⟨w', hcpu', hw'⟩) | rfl)
              · exact Or.inl hset
              · exact Or.inr (Or.inl hset)
              · refine Or.inr (Or.inr ⟨w', hcpu', ?_⟩)
                grind [update_apply]
              · exact Or.inr (Or.inr ⟨w, rfl, update_self ..⟩)
            · rintro (hset | hset | ⟨w', hcpu', hw'⟩)
              · exact Or.inl (Or.inl hset)
              · exact Or.inl (Or.inr (Or.inl hset))
              · by_cases hww : w' = w
                · exact Or.inr (hww ▸ hcpu'.symm)
                · rw [update_of_ne hww] at hw'
                  exact Or.inl (Or.inr (Or.inr ⟨w', hcpu', hw'⟩))
          · intro w₁ w₂ h₁ h₂ hcpu
            change update s.working w _ w₁ = _ at h₁
            change update s.working w _ w₂ = _ at h₂
            by_cases hw₁ : w₁ = w
            · by_cases hw₂ : w₂ = w
              · rw [hw₁, hw₂]
              · rw [update_of_ne hw₂] at h₂
                exact absurd h₂ (hnotTaken w₂ (by rw [← hcpu, hw₁]))
            · rw [update_of_ne hw₁] at h₁
              by_cases hw₂ : w₂ = w
              · exact absurd h₁ (hnotTaken w₁ (by rw [hcpu, hw₂]))
              · rw [update_of_ne hw₂] at h₂
                exact hbits.unique w₁ w₂ h₁ h₂ hcpu
          · show 0 < (update s.msgs m _ m).ref_count
            rw [update_self]
            exact hpos
          · intro w' hw'
            change update s.working w _ w' = _ at hw'
            by_cases hww : w' = w
            · rw [hww]
              exact ⟨hnew, hcurr⟩
            · rw [update_of_ne hww] at hw'
              exact hcpus w' hw'
      · exact h.history.same rfl rfl rfl (phase_update_free (by rw [hp]; exact nofun) nofun)
          (fun _ => Iff.rfl) h.history.sync
    · cases hstep
      exact ⟨p, h.working_idle (by rw [hw]; rfl) rfl⟩
  · cases hstep

/-! ## The last CPU -/

/-- One CPU less has to process the message. -/
theorem UnderWay.processed (hway : UnderWay M s m)
    (hmsgs : s'.msgs m = { s.msgs m with ref_count := (s.msgs m).ref_count - 1 })
    (howner : s'.owner m = s.owner m) (hhandled : s'.handled = s.handled ++ [(s.owner m, c)])
    (htarget : M.Target (s.owner m) c) (hnew : (s.owner m, c) ∉ s.handled) : UnderWay M s' m := by
  have hsame : ∀ k, k ≠ c → s'.missing M (s.owner m) k = s.missing M (s.owner m) k := by
    intro k hk
    unfold State.missing
    rw [hhandled]
    simp only [mem_append, mem_singleton, Prod.mk.injEq, hk, and_false, or_false]
  have hbefore : s.missing M (s.owner m) c = true := by
    unfold State.missing
    rw [decide_eq_true htarget, decide_eq_true hnew]
    rfl
  have hbehind : s'.missing M (s.owner m) c = false := by
    unfold State.missing
    rw [hhandled]
    simp
  have hchange := tally_change htarget.1 hsame
  rw [hbefore, hbehind] at hchange
  simp only [Bool.toNat_true, Bool.toNat_false] at hchange
  constructor
  · rw [howner]
    exact hway.notSelf
  · rw [hmsgs, howner]
    exact hway.flags
  · rw [hmsgs]
    exact hway.done
  · rw [hmsgs, howner]
    dsimp only
    rw [hway.ref_count]
    omega

theorem UnderWay.all_handled (hway : UnderWay M s m) (hzero : (s.msgs m).ref_count = 0)
    (hc : M.Target (s.owner m) c) : (s.owner m, c) ∈ s.handled := by
  by_contra hnot
  have hmissing : s.missing M (s.owner m) c = true := by
    unfold State.missing
    rw [decide_eq_true hc, decide_eq_true hnot]
    rfl
  have hpos := tally_pos hc.1 hmissing
  rw [hway.ref_count] at hzero
  omega

theorem UnderWay.none_left (hway : UnderWay M s m)
    (hall : ∀ c, M.Target (s.owner m) c → (s.owner m, c) ∈ s.handled) :
    (s.msgs m).ref_count = 0 := by
  rw [hway.ref_count, tally_none]
  · rfl
  · intro k _
    unfold State.missing
    by_cases hk : M.Target (s.owner m) k
    · rw [decide_eq_false (not_not_intro (hall k hk)), Bool.and_false]
    · rw [decide_eq_false hk, Bool.false_and]

/-- A CPU that has taken a message is one of its targets, and has not processed it before. -/
theorem Sound.taken_spec (h : Sound M s p) {box : Mailbox} (hw : s.working w = .taken m box) :
    (p m = .opened w ∧ box = MAILBOX_LOCAL ∨ p m = .shared ∧ box = MAILBOX_BCAST) ∧
      UnderWay M s m ∧ M.Target (s.owner m) (M.cpu w) ∧ (s.owner m, M.cpu w) ∉ s.handled := by
  have hslot := h.slot m
  cases box with
  | MAILBOX_LOCAL =>
    have hp := (hslot.opened w).mp hw
    rw [hp] at hslot
    obtain ⟨hway, htarget, hnone⟩ := hslot.facts
    refine ⟨Or.inl ⟨hp, rfl⟩, hway, ⟨M.cpu_lt w, ?_, ?_⟩, hnone _⟩
    · intro heq
      exact hway.notSelf (htarget.trans (congrArg some heq))
    · intro t ht
      rw [htarget] at ht
      exact Option.some.inj ht
  | MAILBOX_BCAST =>
    have hp := hslot.taken w hw
    rw [hp] at hslot
    obtain ⟨hway, -, -, htarget, hcpus⟩ := hslot.facts
    refine ⟨Or.inr ⟨hp, rfl⟩, hway, ⟨M.cpu_lt w, (hcpus w hw).2, ?_⟩, (hcpus w hw).1⟩
    intro t ht
    rw [htarget] at ht
    cases ht

/-- What `smp_process_pending_ici()` does with the message. -/
theorem Sound.process (h : Sound M s p) [DecidableEq μ] (hstep : process M w s = some s') :
    ∃ p', Sound M s' p' := by
  unfold Smp.process at hstep
  split at hstep
  · next m box hw =>
    obtain ⟨hphase, hway, htarget, hnew⟩ := h.taken_spec hw
    have hp : p m ≠ .free := by
      rcases hphase with ⟨hp, -⟩ | ⟨hp, -⟩ <;> rw [hp] <;> exact nofun
    dsimp only at hstep
    have hs' := Option.some.inj hstep
    have hmsgs : s'.msgs m = { s.msgs m with ref_count := (s.msgs m).ref_count - 1 } := by
      rw [← hs']
      exact update_self ..
    have howner : s'.owner = s.owner := by rw [← hs']
    have hhandled : s'.handled = s.handled ++ [(s.owner m, M.cpu w)] := by
      rw [← hs']
      exact map_append
    have hworking : s'.working = update s.working w
        (if (s.msgs m).ref_count = 1 then .last m box else .finished) := by rw [← hs']
    have hlists : Lists s' := by
      rw [← hs']
      exact ⟨h.lists.count, h.lists.free, h.lists.mailed, h.lists.shared⟩
    have hway' := hway.processed hmsgs (congrFun howner m) hhandled htarget hnew
    have hhistory : ∀ q : Phase, q ≠ .free → History M s' (update p m q) := by
      intro q hq
      refine h.history.processed howner ?_ ?_ hhandled (phase_update_free hp hq) hp htarget hnew <;>
        rw [← hs']
    have hother : ∀ m', m' ≠ m → SameAt s s' m' := by
      intro m' hm'
      have hsame := @working_same _ s m m' w
        (if (s.msgs m).ref_count = 1 then .last m box else .finished)
        (Or.inr (by rw [hw]; rfl)) (by split; exact Or.inr rfl; exact Or.inl rfl) hm'
      rw [← hworking] at hsame
      have hmsg : m' ∉ s.free_msgs → SameMsg s s' m' := by
        intro hout
        have hp' : p m' ≠ .free := fun heq => hout ((h.slot m').free.mpr heq)
        have hne : s.owner m' ≠ s.owner m := fun heq => hm' (h.history.inj m' m hp' hp heq)
        refine ⟨?_, congrFun howner m', ?_⟩
        · rw [← hs']
          exact update_of_ne hm' ..
        · intro c
          rw [hhandled, mem_append, mem_singleton, Prod.mk.injEq]
          exact or_iff_left fun heq => hne heq.1
      refine ⟨hmsg, ?_, congrFun howner m', ?_, ?_, ?_, hsame⟩ <;> rw [← hs'] <;> simp
    have hsends : s'.free_msgs = s.free_msgs ∧ s'.smp_msgs = s.smp_msgs ∧
        s'.smp_broadcast_msgs = s.smp_broadcast_msgs ∧ s'.sending = s.sending := by
      rw [← hs']
      exact ⟨rfl, rfl, rfl, rfl⟩
    obtain ⟨hfree', hmailed', hshared', hsending'⟩ := hsends
    have hown : s'.owner m = s.owner m := congrFun howner m
    have hmem : ∀ c, (s.owner m, c) ∈ s'.handled ↔ (s.owner m, c) ∈ s.handled ∨ c = M.cpu w := by
      intro c
      rw [hhandled, mem_append, mem_singleton, Prod.mk.injEq, and_iff_right rfl]
    have hslot := h.slot m
    rcases hphase with ⟨hpm, rfl⟩ | ⟨hpm, rfl⟩
    · -- the only target
      rw [hpm] at hslot
      obtain ⟨-, honly, -⟩ := hslot.facts
      have hall : ∀ c, M.Target (s'.owner m) c → (s'.owner m, c) ∈ s'.handled := by
        intro c hc
        rw [hown] at hc ⊢
        exact (hmem c).mpr (Or.inr (hc.2.2 _ honly))
      have hone : (s.msgs m).ref_count = 1 := by
        have hzero := hway'.none_left hall
        rw [hmsgs] at hzero
        dsimp only at hzero
        omega
      rw [if_pos hone] at hworking
      refine ⟨update p m (.last w), hlists, slots_update h.slot hother ?_, hhistory _ nofun⟩
      have hbox : M.mailbox (s.owner m) = MAILBOX_LOCAL := by
        unfold Machine.mailbox
        rw [honly]
        exact if_neg nofun
      refine hslot.work trivial trivial hown hsending' hfree' hworking ?_ ?_ (by simp [hbox, eq_comm])
        ?_ ?_ ?_
      · rw [hmailed']
        simpa using hslot.mailed
      · rw [hshared', honly]
        simpa using hslot.shared
      · intro w' hww
        simp [Ne.symm hww]
      · intro w' _ hw'
        cases hslot.taken w' hw'
      · refine ⟨hway', hall, ?_⟩
        intro hnone
        rw [hown, honly] at hnone
        cases hnone
    · rw [hpm] at hslot
      obtain ⟨-, hbits, hpos, hnone, hcpus⟩ := hslot.facts
      have hbox : M.mailbox (s.owner m) = MAILBOX_BCAST := if_pos hnone
      by_cases hone : (s.msgs m).ref_count = 1
      · -- the last one of the targets
        have hall : ∀ c, M.Target (s'.owner m) c → (s'.owner m, c) ∈ s'.handled := by
          intro c hc
          refine hway'.all_handled ?_ hc
          rw [hmsgs]
          dsimp only
          omega
        rw [if_pos hone] at hworking
        refine ⟨update p m (.last w), hlists, slots_update h.slot hother ?_, hhistory _ nofun⟩
        have hothers : ∀ w', w' ≠ w → s.working w' ≠ .taken m MAILBOX_BCAST := by
          intro w' hww hw'
          obtain ⟨hnot, hne⟩ := hcpus w' hw'
          have htarget' : M.Target (s.owner m) (M.cpu w') := by
            refine ⟨M.cpu_lt w', hne, ?_⟩
            intro t ht
            rw [hnone] at ht
            cases ht
          have hin := hall (M.cpu w') (hown ▸ htarget')
          rw [hown, hmem] at hin
          rcases hin with hin | hcpu
          · exact hnot hin
          · exact hww (hbits.unique w' w hw' hw hcpu)
        refine hslot.work trivial trivial hown hsending' hfree' hworking ?_ ?_
          (by simp [hbox, eq_comm]) ?_ ?_ ?_
        · rw [hmailed']
          simpa using hslot.mailed
        · rw [hshared', hnone]
          simpa using hslot.shared
        · intro w' hww
          simp [Ne.symm hww]
        · intro w' hww hw'
          exact absurd hw' (hothers w' hww)
        · refine ⟨hway', hall, ?_⟩
          intro _ c hc
          rw [hmsgs]
          refine (hbits.check c hc).mpr ?_
          by_cases hcurr : c = (M.call (s.owner m)).curr_cpu
          · exact Or.inl hcurr
          · have htarget' : M.Target (s.owner m) c := by
              refine ⟨hc, hcurr, ?_⟩
              intro t ht
              rw [hnone] at ht
              cases ht
            have hin := hall c (hown ▸ htarget')
            rw [hown, hmem] at hin
            rcases hin with hin | rfl
            · exact Or.inr (Or.inl hin)
            · exact Or.inr (Or.inr ⟨w, rfl, hw⟩)
      · -- others have still to process it
        rw [if_neg hone] at hworking
        refine ⟨update p m .shared, hlists, slots_update h.slot hother ?_, hhistory _ nofun⟩
        refine hslot.work trivial trivial hown hsending' hfree' hworking ?_ ?_ (by simp) ?_
          (fun _ _ _ => rfl) ?_
        · rw [hmailed']
          exact hslot.mailed
        · rw [hshared']
          exact hslot.shared
        · intro w' _
          exact ⟨Iff.rfl, Iff.rfl, Iff.rfl⟩
        · refine ⟨hway', ⟨?_, ?_⟩, ?_, ?_, ?_⟩
          · intro c hc
            rw [hmsgs, hown, hmem, hworking]
            refine (hbits.check c hc).trans ?_
            constructor
            · rintro (hset | hset | ⟨w', hcpu, hw'⟩)
              · exact Or.inl hset
              · exact Or.inr (Or.inl (Or.inl hset))
              · by_cases hww : w' = w
                · exact Or.inr (Or.inl (Or.inr (hww ▸ hcpu.symm)))
                · exact Or.inr (Or.inr ⟨w', hcpu, by rw [update_of_ne hww]; exact hw'⟩)
            · rintro (hset | (hset | rfl) | ⟨w', hcpu, hw'⟩)
              · exact Or.inl hset
              · exact Or.inr (Or.inl hset)
              · exact Or.inr (Or.inr ⟨w, rfl, hw⟩)
              · refine Or.inr (Or.inr ⟨w', hcpu, ?_⟩)
                grind [update_apply]
          · intro w₁ w₂ h₁ h₂
            rw [hworking] at h₁ h₂
            refine hbits.unique w₁ w₂ ?_ ?_ <;> grind [update_apply]
          · rw [hmsgs]
            dsimp only
            omega
          · rw [hown]
            exact hnone
          · intro w' hw'
            rw [hworking] at hw'
            have hww : w' ≠ w := by
              rintro rfl
              rw [update_self] at hw'
              cases hw'
            rw [update_of_ne hww] at hw'
            obtain ⟨hnot, hne⟩ := hcpus w' hw'
            rw [hown, hmem]
            refine ⟨?_, hne⟩
            rintro (hin | hcpu)
            · exact hnot hin
            · exact hww (hbits.unique w' w hw' hw hcpu)
  · cases hstep

/-- The message leaves its mailbox, if it is there still. -/
theorem Sound.unlink (h : Sound M s p) [DecidableEq μ] (hstep : unlink M w s = some s') :
    ∃ p', Sound M s' p' := by
  unfold Smp.unlink at hstep
  split at hstep
  · next m box hw =>
    have hslot := h.slot m
    obtain ⟨hp, hbox⟩ := (hslot.last w box).mp hw
    rw [hp] at hslot
    obtain ⟨hway, hall, -⟩ := hslot.facts
    have hpfree : p m ≠ .free := by
      rw [hp]
      exact nofun
    have hother : ∀ m' (_ : m' ≠ m) w' y, y.msg = some m' →
        (update s.working w (.unlinked m) w' = y ↔ s.working w' = y) := fun m' hm' =>
      working_same (Or.inr (by rw [hw]; rfl)) (Or.inr rfl) hm'
    have hothers : ∀ w', w' ≠ w → (Phase.last w = .opened w' ↔ Phase.unlinked w = .opened w') ∧
        (Phase.last w = .last w' ↔ Phase.unlinked w = .last w') ∧
        (Phase.last w = .unlinked w' ↔ Phase.unlinked w = .unlinked w') := by
      intro w' hww
      simp [Ne.symm hww]
    have htaken : ∀ w', w' ≠ w → s.working w' = .taken m MAILBOX_BCAST →
        Phase.unlinked w = .shared := fun w' _ hw' => absurd (hslot.taken w' hw') nofun
    cases box with
    | MAILBOX_LOCAL =>
      cases hstep
      -- it has been taken out before
      have hnot : ∀ c, m ∉ s.smp_msgs c := fun c hc => absurd ((hslot.mailed c).mp hc).1 nofun
      rw [erase_of_not_mem (hnot _), update_eq_self]
      have hsame : SameMsg s { s with
          working := update s.working w (.unlinked m) } m :=
        ⟨rfl, rfl, fun _ => Iff.rfl⟩
      have hlocal : (M.call (s.owner m)).target_cpu ≠ none := by
        intro hnone
        unfold Machine.mailbox at hbox
        rw [if_pos hnone] at hbox
        cases hbox
      refine ⟨update p m (.unlinked w), ⟨h.lists.count, h.lists.free, h.lists.mailed,
        h.lists.shared⟩, slots_update h.slot ?_ ?_, ?_⟩
      · intro m' hm'
        exact ⟨fun _ => ⟨rfl, rfl, fun _ => Iff.rfl⟩, Iff.rfl, rfl, fun _ => Iff.rfl, Iff.rfl,
          fun _ _ _ => Iff.rfl, hother m' hm'⟩
      · refine hslot.work trivial trivial rfl rfl rfl rfl ?_ ?_ (by simp) hothers htaken
          ⟨hsame.underWay hway, hall⟩
        · simpa using hslot.mailed
        · simpa [hlocal] using hslot.shared
      · exact h.history.same rfl rfl rfl (phase_update_free hpfree nofun) (fun _ => Iff.rfl)
          h.history.sync
    | MAILBOX_BCAST =>
      cases hstep
      have hsame : SameMsg s { s with
          smp_broadcast_msgs := s.smp_broadcast_msgs.erase m
          working := update s.working w (.unlinked m) } m :=
        ⟨rfl, rfl, fun _ => Iff.rfl⟩
      refine ⟨update p m (.unlinked w), ⟨h.lists.count, h.lists.free, h.lists.mailed,
        h.lists.shared.erase m⟩, slots_update h.slot ?_ ?_, ?_⟩
      · intro m' hm'
        exact ⟨fun _ => ⟨rfl, rfl, fun _ => Iff.rfl⟩, Iff.rfl, rfl, fun _ => Iff.rfl,
          mem_erase_of_ne hm', fun _ _ _ => Iff.rfl, hother m' hm'⟩
      · refine hslot.work trivial trivial rfl rfl rfl rfl ?_ ?_ (by simp) hothers htaken
          ⟨hsame.underWay hway, hall⟩
        · simpa using hslot.mailed
        · simpa using h.lists.shared.not_mem_erase
      · exact h.history.same rfl rfl rfl (phase_update_free hpfree nofun) (fun _ => Iff.rfl)
          h.history.sync
  · cases hstep

/-- The caller of a SYNC message is told, and any other message is free again. -/
theorem Sound.complete (h : Sound M s p) [DecidableEq μ] (hstep : complete w s = some s') :
    ∃ p', Sound M s' p' := by
  unfold Smp.complete at hstep
  split at hstep
  · next m hw =>
    have hslot := h.slot m
    have hp := (hslot.unlinked w).mp hw
    rw [hp] at hslot
    obtain ⟨hway, hall⟩ := hslot.facts
    have hpfree : p m ≠ .free := by
      rw [hp]
      exact nofun
    have hother : ∀ m' (_ : m' ≠ m) w' y, y.msg = some m' →
        (update s.working w .finished w' = y ↔ s.working w' = y) := fun m' hm' =>
      working_same (Or.inr (by rw [hw]; rfl)) (Or.inl rfl) hm'
    dsimp only at hstep
    split at hstep
    · next hsync =>
      cases hstep
      refine ⟨update p m .done, ⟨h.lists.count, h.lists.free, h.lists.mailed,
        h.lists.shared⟩, slots_update h.slot ?_ ?_, ?_⟩
      · intro m' hm'
        exact ⟨fun _ => ⟨update_of_ne hm' .., rfl, fun _ => Iff.rfl⟩, Iff.rfl, rfl,
          fun _ => Iff.rfl, Iff.rfl, fun _ _ _ => Iff.rfl, hother m' hm'⟩
      · refine hslot.work trivial trivial rfl rfl rfl rfl ?_ ?_ (by simp) ?_ ?_
          ⟨?_, hway.notSelf, hway.flags ▸ hsync, hall⟩
        · simpa using hslot.mailed
        · simpa using hslot.shared
        · intro w' hww
          simp [Ne.symm hww]
        · exact fun w' _ hw' => absurd (hslot.taken w' hw') nofun
        · show (update s.msgs m _ m).done = true
          rw [update_self]
      · exact h.history.same rfl rfl rfl (phase_update_free hpfree nofun) (fun _ => Iff.rfl)
          h.history.sync
    · next hasync =>
      cases hstep
      have hfree : m ∉ s.free_msgs := fun hm => absurd (hslot.free.mp hm) nofun
      refine ⟨update p m .free, ⟨?_, nodup_cons.mpr ⟨hfree, h.lists.free⟩,
        h.lists.mailed, h.lists.shared⟩, slots_update h.slot ?_ ?_, ?_⟩
      · have := h.lists.count
        show s.free_msg_count + 1 = ((m :: s.free_msgs).length : Nat)
        rw [length_cons]
        omega
      · intro m' hm'
        refine ⟨fun _ => ⟨rfl, rfl, fun _ => Iff.rfl⟩, ?_, rfl, fun _ => Iff.rfl, Iff.rfl,
          fun _ _ _ => Iff.rfl, hother m' hm'⟩
        show m' ∈ m :: s.free_msgs ↔ _
        rw [mem_cons, or_iff_right hm']
      · refine Slot.of_free (mem_cons_self ..) ?_ ?_ ?_ ?_
        · exact fun c hc => absurd ((hslot.mailed c).mp hc).1 nofun
        · intro hm
          rcases hslot.shared.mp hm with hq | ⟨⟨w', hq⟩, -⟩ <;> cases hq
        · intro j hj
          -- the sender has gone on long ago
          cases hpc : s.sending j with
          | idle | finished =>
            change (s.sending j).msg = some m at hj
            rw [hpc] at hj
            cases hj
          | bounced m' | ready m' | waiting m' =>
            change (s.sending j).msg = some m at hj
            rw [hpc] at hj
            cases hj
            first
              | exact absurd ((hslot.bounced j).mp hpc).1 nofun
              | exact absurd ((hslot.ready j).mp hpc).1 nofun
              | exact hasync (hway.flags.trans ((hslot.waiting j).mp hpc).2.1)
        · intro w' hw'
          change (update s.working w .finished w').msg = some m at hw'
          by_cases hww : w' = w
          · rw [hww, update_self] at hw'
            cases hw'
          · rw [update_of_ne hww] at hw'
            rcases hslot.working_msg hw' with hq | hq | hq | hq <;> cases hq
            exact hww rfl
      · exact h.history.putBack (m := m) rfl rfl rfl hpfree (update_self ..)
          (fun m' hm' => update_of_ne hm' ..) (fun _ => Iff.rfl) (fun _ _ hj => hj)
          fun _ => hall
  · cases hstep

end Smp
