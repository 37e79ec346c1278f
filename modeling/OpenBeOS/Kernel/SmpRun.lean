import OpenBeOS.Kernel.SmpWork

/-! # Every message is processed once

The phases of the messages carry over a run, and with them the promises of the module: who has
processed what, where a message is, and when it is returned. What a message says is what its sender
said as long as the fields that `smp_send_ici()` does not set happen to hold the right values.
-/

namespace Smp

open Mailbox Reachable Function List

variable {μ : Type} {M : Machine μ} {s s' : State μ} {m m' : μ} {i w c : Nat}
  {p : μ → Phase} {a : Action}

def Init (M : Machine μ) (s : State μ) : Prop := s = smp_init M

def Step [DecidableEq μ] (M : Machine μ) (s : State μ) (a : Action) (s' : State μ) : Prop := next M s a = some s'

theorem Sound.init (M : Machine μ) : Sound M (smp_init M) fun _ => .free := by
  constructor
  · exact ⟨rfl, M.pool_nodup, fun _ => .nil, .nil⟩
  · intro m
    exact Slot.of_free (M.mem_pool m) (fun _ => not_mem_nil) not_mem_nil
      (fun _ => nofun) fun _ => nofun
  · exact ⟨fun _ _ hm => absurd rfl hm, fun _ hm => absurd rfl hm, fun _ hi => absurd rfl hi,
      fun _ _ => ⟨not_mem_nil, fun _ => not_mem_nil⟩, .nil,
      fun _ hi => absurd hi not_mem_nil, fun _ => nofun, .nil,
      fun _ _ hi => absurd hi not_mem_nil⟩

theorem Sound.step [DecidableEq μ] (h : Sound M s p) (hstep : Step M s a s') : ∃ p', Sound M s' p' := by
  cases a with
  | find_free_message i => exact h.find_free_message hstep
  | bounce i => exact h.bounce hstep
  | post i => exact h.post hstep
  | acknowledge i => exact h.acknowledge hstep
  | check_local w => exact h.check_local hstep
  | check_broadcast w => exact h.check_broadcast hstep
  | process w => exact h.process hstep
  | unlink w => exact h.unlink hstep
  | complete w => exact h.complete hstep

variable {ok : State μ → Action → Prop}

theorem sound_of_run [DecidableEq μ] (h : By (Init M) ok (Step M) s) : ∃ p, Sound M s p := by
  refine h.invariant (fun s => ∃ p, Sound M s p) ?_ ?_
  · rintro s rfl
    exact ⟨_, .init M⟩
  · rintro s a s' ⟨p, hp⟩ - hstep
    exact hp.step hstep

/-! ## What is promised -/

/-- Where a message can be. -/
inductive Place where
  | free
  | mailbox (cpu : Nat)
  | broadcast
  /-- In the hands of its sender, or of CPUs that process it. -/
  | hands

def State.InHands (s : State μ) (m : μ) : Prop :=
  (∃ j, s.sending j = .bounced m ∨ s.sending j = .ready m ∨
      s.sending j = .waiting m ∧ (s.msgs m).done = true) ∨
    ∃ w, s.working w = .taken m MAILBOX_LOCAL ∨ s.working w = .last m MAILBOX_LOCAL ∨
      s.working w = .unlinked m

def State.At (s : State μ) (m : μ) : Place → Prop
  | .free => m ∈ s.free_msgs
  | .mailbox c => m ∈ s.smp_msgs c
  | .broadcast => m ∈ s.smp_broadcast_msgs
  | .hands => s.InHands m

/-- The message of a call is where a CPU finds it, or the CPU is about to process it. -/
def State.Pending (M : Machine μ) (s : State μ) (i c : Nat) : Prop :=
  ∃ m, s.owner m = i ∧ (m ∈ s.smp_msgs c ∨
    m ∈ s.smp_broadcast_msgs ∧ CHECK_BIT (s.msgs m).proc_bitmap c = false ∨
    ∃ w box, M.cpu w = c ∧ s.working w = .taken m box)

/-- The call has put a message into a mailbox. -/
def Sending.Posted : Sending μ → Prop
  | .waiting _ | .finished => True
  | _ => False

/-- The call is not for its own CPU. -/
def Machine.Sends (M : Machine μ) (i : Nat) : Prop :=
  (M.call i).target_cpu ≠ some (M.call i).curr_cpu

/-- Each message is processed once by each of its targets, and returned once. -/
structure Exchanged (M : Machine μ) (s : State μ) : Prop where
  once : s.handled.Nodup
  target : ∀ i c, (i, c) ∈ s.handled → M.Target i c
  kept : ∀ i c, (s.sending i).Posted → M.Sends i → M.Target i c →
    (i, c) ∈ s.handled ∨ s.Pending M i c
  sync : ∀ i, s.sending i = .finished → (M.call i).flags = SMP_MSG_FLAG_SYNC → M.Sends i →
    ∀ c, M.Target i c → (i, c) ∈ s.handled
  lists : Lists s
  place : ∀ m, ∃! x, s.At m x
  returned : s.returned.Nodup
  returned_iff : ∀ i, i ∈ s.returned ↔ s.sending i ≠ .idle ∧ ∀ m, s.owner m = i → m ∈ s.free_msgs
  complete : ∀ i ∈ s.returned, M.Sends i → ∀ c, M.Target i c → (i, c) ∈ s.handled

theorem Sound.kept (h : Sound M s p) (hposted : (s.sending i).Posted) (hsends : M.Sends i)
    (hc : M.Target i c) : (i, c) ∈ s.handled ∨ s.Pending M i c := by
  have hidle : s.sending i ≠ .idle := by
    intro heq
    rw [heq] at hposted
    exact hposted
  rcases h.history.back i hidle with hret | ⟨m, hm, rfl⟩
  · exact Or.inl (h.history.complete i hret hsends c hc)
  · have hslot := h.slot m
    cases hp : p m with
    | free => exact absurd hp hm
    | bounced =>
      rw [(hslot.bounced _).mpr ⟨hp, rfl⟩] at hposted
      exact hposted.elim
    | ready =>
      rw [(hslot.ready _).mpr ⟨hp, rfl⟩] at hposted
      exact hposted.elim
    | mailed =>
      have hfacts := hslot.facts
      rw [hp] at hfacts
      obtain ⟨t, htarget⟩ := Option.ne_none_iff_exists'.mp hfacts.2.1
      have hmem := (hslot.mailed t).mpr ⟨hp, htarget⟩
      rw [← hc.2.2 t htarget] at hmem
      exact Or.inr ⟨m, rfl, Or.inl hmem⟩
    | opened w =>
      have hw := (hslot.opened w).mpr hp
      rw [hp] at hslot
      have hcpu := hc.2.2 _ hslot.facts.2.1
      exact Or.inr ⟨m, rfl, Or.inr (Or.inr ⟨w, _, hcpu.symm, hw⟩)⟩
    | shared =>
      have hmem := hslot.shared.mpr (Or.inl hp)
      rw [hp] at hslot
      obtain ⟨-, hbits, -⟩ := hslot.facts
      cases hbit : CHECK_BIT (s.msgs m).proc_bitmap c with
      | false => exact Or.inr ⟨m, rfl, Or.inr (Or.inl ⟨hmem, hbit⟩)⟩
      | true =>
        rcases (hbits.check c hc.1).mp hbit with heq | hin | ⟨w, hcpu, hw⟩
        · exact absurd heq hc.2.1
        · exact Or.inl hin
        · exact Or.inr ⟨m, rfl, Or.inr (Or.inr ⟨w, _, hcpu, hw⟩)⟩
    | last w =>
      rw [hp] at hslot
      exact Or.inl (hslot.facts.2.1 c hc)
    | unlinked w =>
      rw [hp] at hslot
      exact Or.inl (hslot.facts.2 c hc)
    | done =>
      rw [hp] at hslot
      exact Or.inl (hslot.facts.2.2.2 c hc)

/-- A message has one place, which its phase tells. -/
theorem Sound.place (h : Sound M s p) (m : μ) : ∃! x, s.At m x := by
  have hslot := h.slot m
  have hmailed := hslot.mailed
  have hshared := hslot.shared
  have hfree := hslot.free
  -- what it means to be in the hands of somebody
  have hhands : s.InHands m ↔ p m = .bounced ∨ p m = .ready ∨ p m = .done ∨
      (∃ w, p m = .opened w) ∨ (∃ w, p m = .last w ∧ M.mailbox (s.owner m) = MAILBOX_LOCAL) ∨
      ∃ w, p m = .unlinked w := by
    constructor
    · rintro (⟨j, hj | hj | ⟨hj, hdone⟩⟩ | ⟨w, hw | hw | hw⟩)
      · exact Or.inl ((hslot.bounced j).mp hj).1
      · exact Or.inr (Or.inl ((hslot.ready j).mp hj).1)
      · exact Or.inr (Or.inr (Or.inl (hslot.of_done ((hslot.waiting j).mp hj).1 hdone)))
      · exact Or.inr (Or.inr (Or.inr (Or.inl ⟨w, (hslot.opened w).mp hw⟩)))
      · obtain ⟨hp, hbox⟩ := (hslot.last w _).mp hw
        exact Or.inr (Or.inr (Or.inr (Or.inr (Or.inl ⟨w, hp, hbox.symm⟩))))
      · exact Or.inr (Or.inr (Or.inr (Or.inr (Or.inr ⟨w, (hslot.unlinked w).mp hw⟩))))
    · rintro (hp | hp | hp | ⟨w, hp⟩ | ⟨w, hp, hbox⟩ | ⟨w, hp⟩)
      · exact Or.inl ⟨_, Or.inl ((hslot.bounced _).mpr ⟨hp, rfl⟩)⟩
      · exact Or.inl ⟨_, Or.inr (Or.inl ((hslot.ready _).mpr ⟨hp, rfl⟩))⟩
      · have hfacts := hslot.facts
        rw [hp] at hfacts
        have hposted : (p m).Posted := hp ▸ trivial
        exact Or.inl ⟨_, Or.inr (Or.inr
          ⟨(hslot.waiting _).mpr ⟨hposted, hfacts.2.2.1, rfl⟩, hfacts.1⟩)⟩
      · exact Or.inr ⟨w, Or.inl ((hslot.opened w).mpr hp)⟩
      · exact Or.inr ⟨w, Or.inr (Or.inl ((hslot.last w _).mpr ⟨hp, hbox.symm⟩))⟩
      · exact Or.inr ⟨w, Or.inr (Or.inr ((hslot.unlinked w).mpr hp))⟩
  rw [show (∃! x, s.At m x) ↔ ∃ x, s.At m x ∧ ∀ y, s.At m y → y = x from Iff.rfl]
  cases hp : p m with
  | free =>
    refine ⟨.free, hfree.mpr hp, ?_⟩
    intro x hx
    cases x <;> simp [State.At, hmailed, hshared, hhands, hp] at hx ⊢
  | mailed =>
    have hfacts := hslot.facts
    rw [hp] at hfacts
    obtain ⟨t, htarget⟩ := Option.ne_none_iff_exists'.mp hfacts.2.1
    refine ⟨.mailbox t, (hmailed t).mpr ⟨hp, htarget⟩, ?_⟩
    intro x hx
    cases x <;> simp [State.At, hmailed, hshared, hhands, hfree, hp, htarget] at hx ⊢
    exact hx.symm
  | shared =>
    refine ⟨.broadcast, hshared.mpr (Or.inl hp), ?_⟩
    intro x hx
    cases x <;> simp [State.At, hmailed, hfree, hhands, hp] at hx ⊢
  | last w =>
    by_cases hnone : (M.call (s.owner m)).target_cpu = none
    · refine ⟨.broadcast, hshared.mpr (Or.inr ⟨⟨w, hp⟩, hnone⟩), ?_⟩
      intro x hx
      cases x <;> simp [State.At, hmailed, hfree, hhands, hp, Machine.mailbox, hnone] at hx ⊢
    · have hbox : M.mailbox (s.owner m) = MAILBOX_LOCAL := if_neg hnone
      refine ⟨.hands, hhands.mpr (by simp [hp, hbox]), ?_⟩
      intro x hx
      cases x <;> simp [State.At, hmailed, hshared, hfree, hp, hnone] at hx ⊢
  | bounced | ready | done | opened w | unlinked w =>
    refine ⟨.hands, hhands.mpr (by simp [hp]), ?_⟩
    intro x hx
    cases x <;> simp [State.At, hmailed, hshared, hfree, hp] at hx ⊢

/-- The phases say all that is promised. -/
theorem Sound.exchanged (h : Sound M s p) : Exchanged M s := by
  refine ⟨h.history.once, h.history.target, ?_, ?_, h.lists, h.place, h.history.returned, ?_,
    h.history.complete⟩
  · intro i c hposted hsends hc
    exact h.kept hposted hsends hc
  · intro i hi hsync hsends
    exact h.history.complete i (h.history.sync i hi hsync) hsends
  · intro i
    constructor
    · intro hret
      constructor
      · intro hidle
        exact (h.history.idle i hidle).1 hret
      · rintro m rfl
        by_contra hm
        have hp : p m ≠ .free := fun heq => hm ((h.slot m).free.mpr heq)
        exact (h.history.out m hp).1 hret
    · rintro ⟨hidle, hall⟩
      rcases h.history.back i hidle with hret | ⟨m, hm, hown⟩
      · exact hret
      · exact absurd ((h.slot m).free.mp (hall m hown)) hm

/-- **Messages are exchanged** in every run of the calls. -/
theorem exchanged_of_run [DecidableEq μ] (h : By (Init M) ok (Step M) s) : Exchanged M s := by
  obtain ⟨p, hp⟩ := sound_of_run h
  exact hp.exchanged

theorem nothing_found [DecidableEq μ] (h : By (Init M) ok (Step M) s)
    (hlocal : s.smp_msgs c = [])
    (hbroadcast : s.smp_broadcast_msgs.find?
      (fun m => !CHECK_BIT (s.msgs m).proc_bitmap c) = none)
    (hposted : (s.sending i).Posted) (hsends : M.Sends i) (hc : M.Target i c) :
    (i, c) ∈ s.handled ∨ ∃ m w box, s.owner m = i ∧ M.cpu w = c ∧ s.working w = .taken m box := by
  rcases (exchanged_of_run h).kept i c hposted hsends hc with
    hin | ⟨m, hown, hmem | ⟨hmem, hbit⟩ | ⟨w, box, hcpu, hw⟩⟩
  · exact Or.inl hin
  · rw [hlocal] at hmem
    cases hmem
  · have hset := List.find?_eq_none.mp hbroadcast m hmem
    rw [hbit] at hset
    exact absurd rfl hset
  · exact Or.inr ⟨m, w, box, hown, hcpu, hw⟩

/-! ## What the messages say -/

def Msg.said (msg : Msg) : Nat × Nat × Nat × Nat := (msg.message, msg.data, msg.data2, msg.data3)

def Call.said (call : Call) : Nat × Nat × Nat × Nat :=
  (call.message, call.data, call.data2, call.data3)

def Entry.said (e : Entry) : Nat × Nat × Nat × Nat := (e.message, e.data, e.data2, e.data3)

/-- Where `smp_send_ici()` takes a message, the first datum is the third one, and the message has
the other two already. -/
def Carried (M : Machine μ) (s : State μ) : Action → Prop
  | .find_free_message i =>
    (M.call i).target_cpu ≠ none → M.Sends i → ∀ m ∈ s.free_msgs.head?,
      (M.call i).data = (M.call i).data3 ∧ (s.msgs m).data2 = (M.call i).data2 ∧
        (s.msgs m).data3 = (M.call i).data3
  | _ => True

instance [DecidableEq μ] (M : Machine μ) (s : State μ) : DecidablePred (Carried M s)
  | .find_free_message i => inferInstanceAs (Decidable
      ((M.call i).target_cpu ≠ none → (M.call i).target_cpu ≠ some (M.call i).curr_cpu →
        ∀ m ∈ s.free_msgs.head?, (M.call i).data = (M.call i).data3 ∧
          (s.msgs m).data2 = (M.call i).data2 ∧ (s.msgs m).data3 = (M.call i).data3))
  | .bounce _ | .post _ | .acknowledge _ | .check_local _ | .check_broadcast _ | .process _
  | .unlink _ | .complete _ => .isTrue trivial

/-- What has been set up, and what has been processed, is what the calls said. -/
structure Said (M : Machine μ) (s : State μ) : Prop where
  msgs : ∀ m, m ∉ s.free_msgs → s.sending (s.owner m) ≠ .bounced m →
    (s.msgs m).said = (M.call (s.owner m)).said
  processed : ∀ e ∈ s.processed, e.said = (M.call e.send).said

theorem Said.same (h : Said M s) (howner : s'.owner = s.owner)
    (hmsgs : ∀ m, (s'.msgs m).said = (s.msgs m).said)
    (hfree : ∀ m, m ∉ s'.free_msgs → m ∉ s.free_msgs)
    (hsending : ∀ m, m ∉ s'.free_msgs → s.sending (s.owner m) = .bounced m →
      s'.sending (s.owner m) = .bounced m)
    (hprocessed : ∀ e ∈ s'.processed, e ∈ s.processed ∨ e.said = (M.call e.send).said) :
    Said M s' := by
  constructor
  · intro m hm hnot
    rw [howner] at hnot ⊢
    rw [hmsgs]
    exact h.msgs m (hfree m hm) fun heq => hnot (hsending m hm heq)
  · intro e he
    rcases hprocessed e he with hold | hsaid
    · exact h.processed e hold
    · exact hsaid

theorem sending_other {x : Sending μ} (hi : s.sending i ≠ .bounced m)
    (hm : s.sending (s.owner m) = .bounced m) :
    update s.sending i x (s.owner m) = .bounced m := by
  have hne : s.owner m ≠ i := by
    rintro rfl
    exact hi hm
  rw [update_of_ne hne]
  exact hm

theorem said_update [DecidableEq μ] {msg : Msg} (hmsg : msg.said = (s.msgs m).said) (m' : μ) :
    (update s.msgs m msg m').said = (s.msgs m').said := by
  by_cases hm' : m' = m
  · rw [hm', update_self, hmsg]
  · rw [update_of_ne hm']

/-- A message is set up. -/
theorem Said.find_free_message [DecidableEq μ] (h : Said M s) (hsound : Sound M s p)
    (hok : Carried M s (.find_free_message i)) (hstep : find_free_message M i s = some s') :
    Said M s' := by
  obtain ⟨m, rest, hidle, hfree, rfl⟩ := find_free_message_cases hstep
  have hout : ∀ m', m' ≠ m → m' ∉ rest → m' ∉ s.free_msgs := by
    intro m' hm' hrest
    rw [hfree, mem_cons, not_or]
    exact ⟨hm', hrest⟩
  have hne : ∀ m', m' ≠ m → m' ∉ rest → s.owner m' ≠ i := by
    rintro m' hm' hrest rfl
    have hp : p m' ≠ .free := fun heq => hout m' hm' hrest ((hsound.slot m').free.mpr heq)
    exact (hsound.history.out m' hp).2 hidle
  split
  · constructor
    · intro m' hrest hnot
      change m' ∉ rest at hrest
      change update s.sending i _ (update s.owner m i m') ≠ _ at hnot
      change (s.msgs m').said = (M.call (update s.owner m i m')).said
      by_cases hm' : m' = m
      · rw [hm', update_self, update_self] at hnot
        exact absurd rfl hnot
      · rw [update_of_ne hm', update_of_ne (hne m' hm' hrest)] at hnot
        rw [update_of_ne hm']
        exact h.msgs m' (hout m' hm' hrest) hnot
    · exact h.processed
  · next hself =>
    constructor
    · intro m' hrest hnot
      change m' ∉ rest at hrest
      change update s.sending i _ (update s.owner m i m') ≠ _ at hnot
      change (update s.msgs m _ m').said = (M.call (update s.owner m i m')).said
      by_cases hm' : m' = m
      · rw [hm', update_self, update_self]
        unfold Machine.setUp
        cases htarget : (M.call i).target_cpu with
        | none => rfl
        | some t =>
          have hnone : (M.call i).target_cpu ≠ none := by
            rw [htarget]
            exact nofun
          obtain ⟨hdata, hdata2, hdata3⟩ := hok hnone hself m (by rw [hfree]; rfl)
          simp only [Msg.said, Call.said, hdata, hdata2, hdata3]
      · rw [update_of_ne hm', update_of_ne (hne m' hm' hrest)] at hnot
        rw [update_of_ne hm', update_of_ne hm']
        exact h.msgs m' (hout m' hm' hrest) hnot
    · exact h.processed

theorem Said.step [DecidableEq μ] (h : Said M s) (hsound : Sound M s p) (hok : Carried M s a)
    (hstep : Step M s a s') : Said M s' := by
  cases a with
  | find_free_message i => exact h.find_free_message hsound hok hstep
  | bounce i =>
    simp only [Step, next, bounce] at hstep
    split at hstep
    · next m hi =>
      cases hstep
      refine h.same rfl (fun _ => rfl) (fun m' hm' => fun hin => hm' (mem_cons_of_mem _ hin))
        ?_ fun e he => Or.inl he
      intro m' hm' heq
      refine sending_other ?_ heq
      rw [hi]
      rintro hbounced
      cases hbounced
      exact hm' (mem_cons_self ..)
    · cases hstep
  | post i =>
    obtain ⟨m, hi, rfl⟩ := post_cases hstep
    refine h.same rfl (fun _ => rfl) (fun _ hm => hm) ?_ fun e he => Or.inl he
    intro m' _ heq
    refine sending_other ?_ heq
    rw [hi]
    exact nofun
  | acknowledge i =>
    simp only [Step, next, acknowledge] at hstep
    split at hstep
    · next m hi =>
      split at hstep
      · cases hstep
      · cases hstep
        refine h.same rfl (fun _ => rfl)
          (fun m' hm' => fun hin => hm' (mem_cons_of_mem _ hin)) ?_ fun e he => Or.inl he
        intro m' _ heq
        refine sending_other ?_ heq
        rw [hi]
        exact nofun
    · cases hstep
  | check_local w =>
    simp only [Step, next, check_local] at hstep
    split at hstep
    · split at hstep <;> cases hstep <;>
        exact h.same rfl (fun _ => rfl) (fun _ hm => hm) (fun _ _ heq => heq) fun e he => Or.inl he
    · cases hstep
  | check_broadcast w =>
    simp only [Step, next, check_broadcast] at hstep
    split at hstep
    · split at hstep <;> cases hstep
      · exact h.same rfl (said_update rfl) (fun _ hm => hm) (fun _ _ heq => heq)
          fun e he => Or.inl he
      · exact h.same rfl (fun _ => rfl) (fun _ hm => hm) (fun _ _ heq => heq)
          fun e he => Or.inl he
    · cases hstep
  | process w =>
    simp only [Step, next, process] at hstep
    split at hstep
    · next m box hw =>
      cases hstep
      refine h.same rfl (said_update rfl) (fun _ hm => hm) (fun _ _ heq => heq) ?_
      intro e he
      rcases mem_append.mp he with he | he
      · exact Or.inl he
      · rw [mem_singleton] at he
        -- the message has been set up
        obtain ⟨hphase, -⟩ := hsound.taken_spec hw
        have hslot := hsound.slot m
        have hout : m ∉ s.free_msgs := by
          intro hm
          rcases hphase with ⟨hp, -⟩ | ⟨hp, -⟩ <;> rw [hslot.free.mp hm] at hp <;> cases hp
        have hnot : s.sending (s.owner m) ≠ .bounced m := by
          intro heq
          rcases hphase with ⟨hp, -⟩ | ⟨hp, -⟩ <;>
            rw [((hslot.bounced _).mp heq).1] at hp <;> cases hp
        rw [he]
        exact Or.inr (h.msgs m hout hnot)
    · cases hstep
  | unlink w =>
    simp only [Step, next, unlink] at hstep
    split at hstep
    · cases hstep
      split <;> exact h.same rfl (fun _ => rfl) (fun _ hm => hm) (fun _ _ heq => heq)
        fun e he => Or.inl he
    · cases hstep
  | complete w =>
    simp only [Step, next, complete] at hstep
    split at hstep
    · cases hstep
      split
      · exact h.same rfl (said_update rfl) (fun _ hm => hm) (fun _ _ heq => heq)
          fun e he => Or.inl he
      · exact h.same rfl (fun _ => rfl)
          (fun m' hm' => fun hin => hm' (mem_cons_of_mem _ hin)) (fun _ _ heq => heq)
          fun e he => Or.inl he
    · cases hstep

/-- **Messages are delivered once and unchanged** in every run in which `smp_send_ici()` finds its
data in the fields it does not set. -/
theorem delivered_once [DecidableEq μ] (h : By (Init M) (Carried M) (Step M) s) :
    Exchanged M s ∧ ∀ e ∈ s.processed, e.said = (M.call e.send).said := by
  have hsaid : (∃ p, Sound M s p) ∧ Said M s := by
    refine h.invariant (fun s => (∃ p, Sound M s p) ∧ Said M s) ?_ ?_
    · rintro s rfl
      exact ⟨⟨_, .init M⟩, fun m hm => absurd (M.mem_pool m) hm, fun e he => absurd he
        not_mem_nil⟩
    · rintro s a s' ⟨⟨p, hp⟩, hs⟩ hok hstep
      exact ⟨hp.step hstep, hs.step hp hok hstep⟩
  exact ⟨exchanged_of_run h, hsaid.2.processed⟩

/-- Two CPUs. The first call is a broadcast, the second one tells the other CPU to reschedule, and
the others are to invalidate a range of pages there. -/
def twoCpus : Machine (Fin 16) where
  smp_num_cpus := 2
  pool := List.finRange 16
  call
    | 0 => ⟨0, none, 0, 4096, 8192, 1, 0, SMP_MSG_FLAG_SYNC⟩
    | 1 => ⟨1, some 0, 3, 0, 0, 0, 0, SMP_MSG_FLAG_ASYNC⟩
    | _ => ⟨0, some 1, 0, 4096, 8192, 0, 0, SMP_MSG_FLAG_ASYNC⟩
  cpu w := if w = 0 then 1 else 0
  two_le := Nat.le_refl 2
  le_bits := by decide
  pool_nodup := nodup_finRange 16
  mem_pool := mem_finRange
  curr_lt i := by
    split <;> decide
  target_lt i t := by
    split <;> intro ht <;> cases ht <;> decide
  cpu_lt w := by
    split <;> decide

/-- Both send to each other: the message of the second call is processed while the first one waits,
and both messages are free in the end. -/
theorem delivered_once_each : ∃ s, Exchanged twoCpus s ∧
    (∀ e ∈ s.processed, e.said = (twoCpus.call e.send).said) ∧
    s.handled = [(1, 0), (0, 1)] ∧ s.returned = [1, 0] := by
  have hrun : (exec (guarded (Carried twoCpus) (next twoCpus))
      [.find_free_message 0, .find_free_message 1, .post 0, .post 1, .check_local 0,
        .check_broadcast 0, .check_local 1, .process 1, .unlink 1, .process 0, .complete 1, .unlink 0,
        .complete 0, .acknowledge 0] (smp_init twoCpus)).map (fun s => (s.handled, s.returned)) =
      some ([(1, 0), (0, 1)], [1, 0]) := by decide
  obtain ⟨s, hexec, hs⟩ := Option.map_eq_some_iff.mp hrun
  obtain ⟨hhandled, hreturned⟩ := Prod.mk.inj hs
  have hdelivered := delivered_once
    (By.exec (fun _ _ _ h => guarded_some h) _ (.init (rfl : Init twoCpus _)) hexec)
  exact ⟨s, hdelivered.1, hdelivered.2, hhandled, hreturned⟩

/-- The range that is invalidated on the other CPU is another one. -/
theorem data_overwritten : ¬ ∀ s : State (Fin 16),
    By (Init twoCpus) (fun _ _ => True) (Step twoCpus) s →
      ∀ e ∈ s.processed, e.said = (twoCpus.call e.send).said := by
  intro hclaim
  have hrun : (exec (next twoCpus) [.find_free_message 2, .post 2, .check_local 0, .process 0]
      (smp_init twoCpus)).map (fun s => s.processed) = some [⟨2, 1, 0, 0, 0, 0⟩] := by decide
  obtain ⟨s, hexec, hs⟩ := Option.map_eq_some_iff.mp hrun
  have hsaid := hclaim s (By.exec (fun _ _ _ h => ⟨trivial, h⟩) _ (.init (rfl : Init twoCpus _)) hexec)
    ⟨2, 1, 0, 0, 0, 0⟩ (hs ▸ mem_singleton_self _)
  exact absurd hsaid (by decide)

end Smp
