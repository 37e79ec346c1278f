import OpenBeOS.Kernel.SmpPhase

/-! # Sending a message

Each step of a send takes one message from a phase to another one: from the free list into its
hands, from there into a mailbox, and back to the free list.
-/

namespace Smp

open Mailbox Tally Function List

variable {μ : Type} {M : Machine μ} {s s' : State μ} {m m' : μ} {i w c : Nat}
  {p : μ → Phase}

/-- A message nobody has in hands is free. -/
theorem Slot.of_free (hfree : m ∈ s.free_msgs) (hmailed : ∀ c, m ∉ s.smp_msgs c)
    (hshared : m ∉ s.smp_broadcast_msgs) (hsending : ∀ j, (s.sending j).msg ≠ some m)
    (hworking : ∀ w, (s.working w).msg ≠ some m) : Slot M s m .free := by
  have hsend : ∀ j x, x.msg = some m → s.sending j ≠ x := by
    rintro j x hx rfl
    exact hsending j hx
  have hwork : ∀ w x, x.msg = some m → s.working w ≠ x := by
    rintro w x hx rfl
    exact hworking w hx
  constructor
  · simpa using hfree
  · intro c
    simpa using hmailed c
  · simpa using hshared
  · intro j
    simpa using hsend j _ rfl
  · intro j
    simpa using hsend j _ rfl
  · intro j
    simpa [Phase.Posted] using hsend j _ rfl
  · intro w
    simpa using hwork w _ rfl
  · intro w hw
    exact absurd hw (hwork w _ rfl)
  · intro w box
    simpa using hwork w _ rfl
  · intro w
    simpa using hwork w _ rfl
  · trivial

variable {q : Phase}

/-- A message is only in the hands of its sender. -/
theorem Slot.sending_msg (h : Slot M s m q) {j : Nat}
    (hj : (s.sending j).msg = some m) :
    j = s.owner m ∧ (q = .bounced ∨ q = .ready ∨ q.Posted) := by
  cases hpc : s.sending j with
  | idle | finished =>
    rw [hpc] at hj
    cases hj
  | bounced m' =>
    rw [hpc] at hj
    cases hj
    obtain ⟨hq, hown⟩ := (h.bounced j).mp hpc
    exact ⟨hown, Or.inl hq⟩
  | ready m' =>
    rw [hpc] at hj
    cases hj
    obtain ⟨hq, hown⟩ := (h.ready j).mp hpc
    exact ⟨hown, Or.inr (Or.inl hq)⟩
  | waiting m' =>
    rw [hpc] at hj
    cases hj
    obtain ⟨hq, -, hown⟩ := (h.waiting j).mp hpc
    exact ⟨hown, Or.inr (Or.inr hq)⟩

/-- Who processes a message. -/
theorem Slot.working_msg (h : Slot M s m q) {w : Nat}
    (hw : (s.working w).msg = some m) :
    q = .opened w ∨ q = .shared ∨ q = .last w ∨ q = .unlinked w := by
  cases hpc : s.working w with
  | idle | looking | finished =>
    rw [hpc] at hw
    cases hw
  | taken m' box =>
    rw [hpc] at hw
    cases hw
    cases box with
    | MAILBOX_LOCAL => exact Or.inl ((h.opened w).mp hpc)
    | MAILBOX_BCAST => exact Or.inr (Or.inl (h.taken w hpc))
  | last m' box =>
    rw [hpc] at hw
    cases hw
    exact Or.inr (Or.inr (Or.inl ((h.last w box).mp hpc).1))
  | unlinked m' =>
    rw [hpc] at hw
    cases hw
    exact Or.inr (Or.inr (Or.inr ((h.unlinked w).mp hpc)))

theorem Slot.free_spec (h : Slot M s m .free) :
    (∀ c, m ∉ s.smp_msgs c) ∧ m ∉ s.smp_broadcast_msgs ∧ (∀ j, (s.sending j).msg ≠ some m) ∧
      ∀ w, (s.working w).msg ≠ some m := by
  refine ⟨?_, ?_, ?_, ?_⟩
  · intro c hc
    exact absurd ((h.mailed c).mp hc).1 nofun
  · intro hm
    rcases h.shared.mp hm with hp | ⟨⟨w, hp⟩, -⟩ <;> cases hp
  · intro j hj
    rcases (h.sending_msg hj).2 with hp | hp | hp <;> cases hp
  · intro w hw
    rcases h.working_msg hw with hp | hp | hp | hp <;> cases hp

/-- The state behind `find_free_message()`, without what is done with the message. -/
theorem find_free_message_cases [DecidableEq μ] (h : find_free_message M i s = some s') :
    ∃ m rest, s.sending i = .idle ∧ s.free_msgs = m :: rest ∧
      s' = if (M.call i).target_cpu = some (M.call i).curr_cpu then
          { s with
            free_msgs := rest, free_msg_count := s.free_msg_count - 1
            owner := update s.owner m i
            sending := update s.sending i (.bounced m) }
        else
          { s with
            free_msgs := rest, free_msg_count := s.free_msg_count - 1
            owner := update s.owner m i
            msgs := update s.msgs m (M.setUp (M.call i) (s.msgs m))
            sending := update s.sending i (.ready m) } := by
  unfold find_free_message at h
  split at h
  · next m rest hidle hfree =>
    split at h
    · cases h
    · refine ⟨m, rest, hidle, hfree, ?_⟩
      dsimp only at h
      split at h
      · next hself =>
        rw [if_pos hself]
        exact (Option.some.inj h).symm
      · next hself =>
        rw [if_neg hself]
        exact (Option.some.inj h).symm
  · cases h

@[simp] theorem Machine.setUp_flags (M : Machine μ) (call : Call) (msg : Msg) :
    (M.setUp call msg).flags = call.flags := by
  unfold Machine.setUp
  split <;> rfl

@[simp] theorem Machine.setUp_done (M : Machine μ) (call : Call) (msg : Msg) :
    (M.setUp call msg).done = false := by
  unfold Machine.setUp
  split <;> rfl

/-- The CPUs that are to process a message are counted. -/
theorem setUp_ref_count (hself : (M.call i).target_cpu ≠ some (M.call i).curr_cpu) (msg : Msg)
    (hnone : ∀ c, (i, c) ∉ s.handled) :
    (M.setUp (M.call i) msg).ref_count = tally M.smp_num_cpus (s.missing M i) := by
  have hmissing : ∀ c, s.missing M i c = decide (M.Target i c) := by
    intro c
    unfold State.missing
    rw [decide_eq_true (hnone c), Bool.and_true]
  have hcurr := M.curr_lt i
  have htwo := M.two_le
  cases htarget : (M.call i).target_cpu with
  | none =>
    -- all CPUs but one
    have hall : tally M.smp_num_cpus (fun _ => true) = M.smp_num_cpus := tally_all fun _ _ => rfl
    have hsame : ∀ c, c ≠ (M.call i).curr_cpu →
        (fun c => decide (c ≠ (M.call i).curr_cpu)) c = (fun _ => true) c := by
      intro c hc
      simpa using hc
    have hchange := tally_change hcurr hsame
    have htally : tally M.smp_num_cpus (s.missing M i) =
        tally M.smp_num_cpus fun c => decide (c ≠ (M.call i).curr_cpu) := by
      refine tally_same fun c hc => ?_
      rw [hmissing]
      unfold Machine.Target
      simp [hc, htarget]
    rw [htally]
    simp only [hall, ne_eq, not_true_eq_false, decide_false, Bool.toNat_false, Bool.toNat_true,
      add_zero] at hchange
    unfold Machine.setUp
    rw [htarget]
    dsimp only [ne_eq]
    omega
  | some t =>
    have ht := M.target_lt i t htarget
    have hne : t ≠ (M.call i).curr_cpu := by
      intro heq
      exact hself (htarget.trans (congrArg some heq))
    have hsame : ∀ c, c ≠ t → s.missing M i c = (fun _ => false) c := by
      intro c hc
      rw [hmissing]
      unfold Machine.Target
      simp [htarget, hc]
    have hchange := tally_change ht hsame
    have hone : s.missing M i t = true := by
      rw [hmissing]
      unfold Machine.Target
      simp [htarget, ht, hne]
    rw [tally_none fun _ _ => rfl, hone] at hchange
    simp only [Bool.toNat_false, Bool.toNat_true] at hchange
    unfold Machine.setUp
    rw [htarget]
    dsimp only
    omega

/-- `find_free_message()`. -/
theorem Sound.find_free_message [DecidableEq μ] (h : Sound M s p) (hstep : find_free_message M i s = some s') :
    ∃ p', Sound M s' p' := by
  obtain ⟨m, rest, hidle, hfree, rfl⟩ := find_free_message_cases hstep
  have hmem : m ∈ s.free_msgs := hfree ▸ mem_cons_self ..
  have hp : p m = .free := (h.slot m).free.mp hmem
  have hslot := h.slot m
  rw [hp] at hslot
  obtain ⟨hmailed, hshared, hsending, hworking⟩ := hslot.free_spec
  have hnodup : m ∉ rest ∧ rest.Nodup := by
    have := h.lists.free
    rw [hfree] at this
    exact nodup_cons.mp this
  have hlists : Lists { s with free_msgs := rest, free_msg_count := s.free_msg_count - 1 } := by
    refine ⟨?_, hnodup.2, h.lists.mailed, h.lists.shared⟩
    have := h.lists.count
    rw [hfree, length_cons] at this
    show s.free_msg_count - 1 = rest.length
    omega
  have hnone := (h.history.idle i hidle).2
  have hrest : ∀ m', m' ≠ m → (m' ∈ rest ↔ m' ∈ s.free_msgs) := by
    intro m' hm'
    rw [hfree, mem_cons, or_iff_right hm']
  have hsend : ∀ x : Sending μ, x.msg = some m → ∀ m', m' ≠ m → ∀ j y, y.msg = some m' →
      (update s.sending i x j = y ↔ s.sending j = y) := by
    intro x hx m' hm'
    refine update_same Sending.msg ?_ ?_
    · rw [hidle]
      simp [Sending.msg]
    · rw [hx]
      exact fun heq => hm' (Option.some.inj heq).symm
  split
  · next hself =>
    refine ⟨update p m .bounced, ⟨hlists.count, hlists.free, hlists.mailed, hlists.shared⟩,
      slots_update h.slot ?_ ?_, ?_⟩
    · intro m' hm'
      have howner : update s.owner m i m' = s.owner m' := update_of_ne hm' ..
      exact ⟨fun _ => ⟨rfl, howner, fun _ => Iff.rfl⟩, hrest m' hm', howner, fun _ => Iff.rfl,
        Iff.rfl, hsend _ rfl m' hm', fun _ _ _ => Iff.rfl⟩
    · constructor
      · grind
      · grind
      · grind
      · grind [update_apply, Sending.msg]
      · grind [update_apply, Sending.msg]
      · grind [update_apply, Sending.msg, Phase.Posted]
      · grind [Working.msg]
      · grind [Working.msg]
      · grind [Working.msg]
      · grind [Working.msg]
      · simp only [Phase.Facts, update_self]
        exact ⟨hself, hnone⟩
    · refine h.history.take (m := m) rfl rfl rfl hp ?_ ?_ hidle ?_ ?_
      · simp
      · exact fun m' hm' => update_of_ne hm' ..
      · simp
      · exact fun j hj => update_of_ne hj ..
  · next hself =>
    refine ⟨update p m .ready, ⟨hlists.count, hlists.free, hlists.mailed, hlists.shared⟩,
      slots_update h.slot ?_ ?_, ?_⟩
    · intro m' hm'
      have howner : update s.owner m i m' = s.owner m' := update_of_ne hm' ..
      exact ⟨fun _ => ⟨update_of_ne hm' .., howner, fun _ => Iff.rfl⟩, hrest m' hm', howner,
        fun _ => Iff.rfl, Iff.rfl, hsend _ rfl m' hm', fun _ _ _ => Iff.rfl⟩
    · constructor
      · grind
      · grind
      · grind
      · grind [update_apply, Sending.msg]
      · grind [update_apply, Sending.msg]
      · grind [update_apply, Sending.msg, Phase.Posted]
      · grind [Working.msg]
      · grind [Working.msg]
      · grind [Working.msg]
      · grind [Working.msg]
      · have hbits : ∀ c < M.smp_num_cpus,
            CHECK_BIT (SET_BIT 0 (M.call i).curr_cpu) c = true ↔ c = (M.call i).curr_cpu := by
          intro c hc
          have hle := M.le_bits
          have hcurr := M.curr_lt i
          rw [CHECK_SET_BIT 0 (by omega) (by omega), CHECK_BIT_zero (by omega), Bool.false_or,
            decide_eq_true_eq]
        have htaken : ∀ w box, s.working w ≠ .taken m box := by
          intro w box heq
          exact hworking w (heq ▸ rfl)
        refine ⟨⟨?_, ?_, ?_, ?_⟩, fun htarget => ⟨?_, ?_⟩, ?_⟩
        · simp only [update_self]
          exact hself
        · simp only [update_self]
          exact M.setUp_flags _ _
        · simp only [update_self]
          exact M.setUp_done _ _
        · simp only [update_self]
          exact setUp_ref_count hself _ hnone
        · intro c hc
          simp only [update_self] at htarget ⊢
          simp only [Machine.setUp, htarget, hbits c hc]
          constructor
          · exact Or.inl
          · rintro (heq | hhandled | ⟨w, -, hw⟩)
            · exact heq
            · exact absurd hhandled (hnone c)
            · exact absurd hw (htaken w _)
        · intro w w' hw
          exact absurd hw (htaken w _)
        · simp only [update_self]
          exact hnone
    · refine h.history.take (m := m) rfl rfl rfl hp ?_ ?_ hidle ?_ ?_
      · simp
      · exact fun m' hm' => update_of_ne hm' ..
      · simp
      · exact fun j hj => update_of_ne hj ..

/-- A sender puts its message back, once it is of no more use. -/
theorem Sound.giveBack (h : Sound M s p) [DecidableEq μ] (hi : (s.sending i).msg = some m)
    (hp : p m = .bounced ∨ p m = .done) :
    Sound M (return_free_message i m { s with sending := update s.sending i .finished })
      (update p m .free) := by
  have hslot := h.slot m
  obtain ⟨rfl, -⟩ := hslot.sending_msg hi
  have hfree : m ∉ s.free_msgs := by
    intro hm
    rcases hp with hp | hp <;> rw [hslot.free.mp hm] at hp <;> cases hp
  refine ⟨⟨?_, nodup_cons.mpr ⟨hfree, h.lists.free⟩, h.lists.mailed, h.lists.shared⟩,
    slots_update h.slot ?_ ?_, ?_⟩
  · have := h.lists.count
    show s.free_msg_count + 1 = ((m :: s.free_msgs).length : Nat)
    rw [length_cons]
    omega
  · intro m' hm'
    refine ⟨fun _ => ⟨rfl, rfl, fun _ => Iff.rfl⟩, ?_, rfl, fun _ => Iff.rfl, Iff.rfl, ?_,
      fun _ _ _ => Iff.rfl⟩
    · show m' ∈ m :: s.free_msgs ↔ _
      rw [mem_cons, or_iff_right hm']
    · refine update_same Sending.msg ?_ nofun
      rw [hi]
      exact fun heq => hm' (Option.some.inj heq).symm
  · refine Slot.of_free (mem_cons_self ..) ?_ ?_ ?_ ?_
    · intro c hc
      obtain ⟨hq, -⟩ := (hslot.mailed c).mp hc
      rcases hp with hp | hp <;> rw [hq] at hp <;> cases hp
    · intro hm
      rcases hslot.shared.mp hm with hq | ⟨⟨w, hq⟩, -⟩ <;> rcases hp with hp | hp <;>
        rw [hq] at hp <;> cases hp
    · intro j hj
      change (update s.sending (s.owner m) .finished j).msg = some m at hj
      by_cases hji : j = s.owner m
      · rw [hji, update_self] at hj
        cases hj
      · rw [update_of_ne hji] at hj
        exact hji (hslot.sending_msg hj).1
    · intro w hw
      rcases hslot.working_msg hw with hq | hq | hq | hq <;> rcases hp with hp | hp <;>
        rw [hq] at hp <;> cases hp
  · refine h.history.putBack (m := m) rfl rfl rfl ?_ (update_self ..) ?_ ?_ ?_ ?_
    · rcases hp with hp | hp <;> rw [hp] <;> exact nofun
    · exact fun m' hm' => update_of_ne hm' ..
    · intro j
      show update s.sending (s.owner m) .finished j = _ ↔ _
      by_cases hji : j = s.owner m
      · rw [hji, update_self]
        constructor
        · exact nofun
        · intro hidle
          rw [hidle] at hi
          cases hi
      · rw [update_of_ne hji]
    · intro j hji hj
      change update s.sending (s.owner m) .finished j = _ at hj
      rwa [update_of_ne hji] at hj
    · have hfacts := hslot.facts
      intro hself
      rcases hp with hp | hp <;> rw [hp] at hfacts
      · exact absurd hfacts.1 hself
      · exact hfacts.2.2.2

theorem Sound.bounce (h : Sound M s p) [DecidableEq μ] (hstep : bounce i s = some s') :
    ∃ p', Sound M s' p' := by
  unfold Smp.bounce at hstep
  split at hstep
  · next m hi =>
    cases hstep
    exact ⟨_, h.giveBack (by rw [hi]; rfl) (Or.inl (((h.slot m).bounced i).mp hi).1)⟩
  · cases hstep

theorem Slot.of_done (h : Slot M s m q) (hposted : q.Posted)
    (hdone : (s.msgs m).done = true) : q = .done := by
  have hfacts := h.facts
  have hway : UnderWay M s m → q = .done := by
    intro hway
    rw [hway.done] at hdone
    cases hdone
  cases q with
  | free | bounced | ready => exact hposted.elim
  | mailed | opened w | shared | last w | unlinked w => exact hway hfacts.1
  | done => rfl

theorem Sound.acknowledge (h : Sound M s p) [DecidableEq μ] (hstep : acknowledge i s = some s') :
    ∃ p', Sound M s' p' := by
  unfold Smp.acknowledge at hstep
  split at hstep
  · next m hi =>
    split at hstep
    · cases hstep
    · next hdone =>
      cases hstep
      have hposted := (((h.slot m).waiting i).mp hi).1
      exact ⟨_, h.giveBack (by rw [hi]; rfl)
        (Or.inr ((h.slot m).of_done hposted (Bool.not_eq_false _ ▸ hdone)))⟩
  · cases hstep

theorem Machine.exists_other (M : Machine μ) (c : Nat) : ∃ c' < M.smp_num_cpus, c' ≠ c := by
  have htwo := M.two_le
  by_cases hc : c = 0
  · exact ⟨1, by omega, by omega⟩
  · exact ⟨0, by omega, by omega⟩

theorem post_cases (h : post M i s = some s') : ∃ m, s.sending i = .ready m ∧ s' = { s with
        smp_msgs := match (M.call i).target_cpu with
          | some t => update s.smp_msgs t (m :: s.smp_msgs t)
          | none => s.smp_msgs
        smp_broadcast_msgs := match (M.call i).target_cpu with
          | some _ => s.smp_broadcast_msgs
          | none => m :: s.smp_broadcast_msgs
        sending := update s.sending i
          (if (M.call i).flags = SMP_MSG_FLAG_SYNC then .waiting m else .finished) } := by
  unfold post at h
  split at h
  · next m hi =>
    refine ⟨m, hi, ?_⟩
    cases htarget : (M.call i).target_cpu with
    | none | some t =>
      rw [htarget] at h
      exact (Option.some.inj h).symm
  · cases h

/-- The message is put into a mailbox. -/
theorem Sound.post (h : Sound M s p) [DecidableEq μ] (hstep : post M i s = some s') :
    ∃ p', Sound M s' p' := by
  obtain ⟨m, hi, rfl⟩ := post_cases hstep
  have hslot := h.slot m
  obtain ⟨hp, hown⟩ := (hslot.ready i).mp hi
  rw [hp] at hslot
  obtain ⟨hway, hbits, hnone⟩ := hslot.facts
  have hworking : ∀ w, (s.working w).msg ≠ some m := by
    intro w hw
    rcases hslot.working_msg hw with hq | hq | hq | hq <;> cases hq
  have hpc : ∀ j, (s.sending j).msg = some m → j = i := by
    intro j hj
    rw [hown]
    exact (hslot.sending_msg hj).1
  have hmailed : ∀ c, m ∉ s.smp_msgs c := by
    intro c hc
    exact absurd ((hslot.mailed c).mp hc).1 nofun
  have hshared : m ∉ s.smp_broadcast_msgs := by
    intro hm
    rcases hslot.shared.mp hm with hq | ⟨⟨w, hq⟩, -⟩ <;> cases hq
  have hfree : m ∉ s.free_msgs := by
    intro hm
    cases hslot.free.mp hm
  have hsend : ∀ m', m' ≠ m → ∀ j y, y.msg = some m' → (update s.sending i
        (if (M.call i).flags = SMP_MSG_FLAG_SYNC then .waiting m else .finished) j = y ↔
        s.sending j = y) := by
    intro m' hm'
    refine update_same Sending.msg ?_ ?_
    · rw [hi]
      exact fun heq => hm' (Option.some.inj heq).symm
    · split
      · exact fun heq => hm' (Option.some.inj heq).symm
      · exact nofun
  have hhistory : ∀ q : Phase, q ≠ .free → ∀ s' : State μ, s'.owner = s.owner →
      s'.returned = s.returned → s'.handled = s.handled → s'.sending = update s.sending i
        (if (M.call i).flags = SMP_MSG_FLAG_SYNC then .waiting m else .finished) →
      History M s' (update p m q) := by
    intro q hq s' howner hreturned hhandled hsending
    refine h.history.same howner hreturned hhandled ?_ ?_ ?_
    · intro m'
      by_cases hm' : m' = m
      · rw [hm', update_self, hp]
        exact ⟨fun heq => absurd heq hq, nofun⟩
      · rw [update_of_ne hm']
    · intro j
      rw [hsending]
      by_cases hj : j = i
      · rw [hj, update_self, hi]
        split <;> exact ⟨nofun, nofun⟩
      · rw [update_of_ne hj]
    · intro j hj hsync
      rw [hsending] at hj
      by_cases hji : j = i
      · rw [hji, update_self, if_pos (hji ▸ hsync)] at hj
        cases hj
      · rw [update_of_ne hji] at hj
        exact h.history.sync j hj hsync
  cases htarget : (M.call i).target_cpu with
  | some t =>
    have hsame : SameMsg s { s with
        smp_msgs := update s.smp_msgs t (m :: s.smp_msgs t)
        sending := update s.sending i
          (if (M.call i).flags = SMP_MSG_FLAG_SYNC then .waiting m else .finished) } m :=
      ⟨rfl, rfl, fun _ => Iff.rfl⟩
    refine ⟨update p m .mailed, ⟨h.lists.count, h.lists.free, ?_, h.lists.shared⟩,
      slots_update h.slot ?_ ?_, hhistory .mailed nofun _ rfl rfl rfl rfl⟩
    · intro c
      show (update s.smp_msgs t (m :: s.smp_msgs t) c).Nodup
      by_cases hc : c = t
      · rw [hc, update_self]
        exact nodup_cons.mpr ⟨hmailed t, h.lists.mailed t⟩
      · rw [update_of_ne hc]
        exact h.lists.mailed c
    · intro m' hm'
      refine ⟨fun _ => ⟨rfl, rfl, fun _ => Iff.rfl⟩, Iff.rfl, rfl, ?_, Iff.rfl, hsend m' hm',
        fun _ _ _ => Iff.rfl⟩
      intro c
      show m' ∈ update s.smp_msgs t (m :: s.smp_msgs t) c ↔ _
      by_cases hc : c = t
      · rw [hc, update_self, mem_cons, or_iff_right hm']
      · rw [update_of_ne hc]
    · constructor
      · grind
      · grind [update_apply]
      · grind
      · grind [update_apply, Sending.msg]
      · grind [update_apply, Sending.msg]
      · grind [update_apply, Sending.msg, Phase.Posted]
      · grind [Working.msg]
      · grind [Working.msg]
      · grind [Working.msg]
      · grind [Working.msg]
      · refine ⟨hsame.underWay hway, ?_, hnone⟩
        rw [← hown, htarget]
        exact nofun
  | none =>
    have hsame : SameMsg s { s with
        smp_broadcast_msgs := m :: s.smp_broadcast_msgs
        sending := update s.sending i
          (if (M.call i).flags = SMP_MSG_FLAG_SYNC then .waiting m else .finished) } m :=
      ⟨rfl, rfl, fun _ => Iff.rfl⟩
    refine ⟨update p m .shared, ⟨h.lists.count, h.lists.free, h.lists.mailed,
      nodup_cons.mpr ⟨hshared, h.lists.shared⟩⟩, slots_update h.slot ?_ ?_,
      hhistory .shared nofun _ rfl rfl rfl rfl⟩
    · intro m' hm'
      refine ⟨fun _ => ⟨rfl, rfl, fun _ => Iff.rfl⟩, Iff.rfl, rfl, fun _ => Iff.rfl, ?_,
        hsend m' hm', fun _ _ _ => Iff.rfl⟩
      show m' ∈ m :: s.smp_broadcast_msgs ↔ _
      rw [mem_cons, or_iff_right hm']
    · constructor
      · grind
      · grind
      · grind
      · grind [update_apply, Sending.msg]
      · grind [update_apply, Sending.msg]
      · grind [update_apply, Sending.msg, Phase.Posted]
      · grind [Working.msg]
      · grind [Working.msg]
      · grind [Working.msg]
      · grind [Working.msg]
      · rw [hown] at htarget
        have htaken : ∀ w box, s.working w ≠ .taken m box := fun w box heq => hworking w (heq ▸ rfl)
        refine ⟨hsame.underWay hway, hsame.bits (fun _ => Iff.rfl) (hbits htarget), ?_, htarget,
          fun w hw => absurd hw (htaken w _)⟩
        show 0 < (s.msgs m).ref_count
        rw [hway.ref_count]
        -- there is another CPU
        obtain ⟨c, hc, hne⟩ := M.exists_other (M.call (s.owner m)).curr_cpu
        have hmissing : s.missing M (s.owner m) c = true := by
          unfold State.missing Machine.Target
          simp [hc, hne, htarget, hnone c]
        exact Int.natCast_pos.mpr (tally_pos hc hmissing)

end Smp
