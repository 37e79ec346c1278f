import OpenBeOS.Lib.Tally
import OpenBeOS.Kernel.Smp

/-! # Where the messages are

A message goes through phases, from the free list and back to it. What the lists, the calls and the
history say of it follows from its phase.
-/

namespace Smp

open Mailbox Tally Function

variable {μ : Type} {M : Machine μ} {s s' : State μ} {m m' : μ} {i w c : Nat}

/-! ## Bits -/

theorem bit_eq {b : Nat} (hb : b < 32) (k : Nat) : (1#32 <<< b).getLsbD k = decide (k = b) := by
  rw [← BitVec.twoPow_eq, BitVec.getLsbD_twoPow, decide_eq_true hb, Bool.true_and]
  simp only [eq_comm]

theorem CHECK_BIT_eq (a : BitVec 32) {b : Nat} (hb : b < 32) : CHECK_BIT a b = a.getLsbD b := by
  unfold CHECK_BIT
  have hbits : ∀ k, (a &&& 1#32 <<< b).getLsbD k = (a.getLsbD k && decide (k = b)) := by
    intro k
    rw [BitVec.getLsbD_and, bit_eq hb]
  cases hbit : a.getLsbD b with
  | true =>
    rw [bne_iff_ne]
    intro hzero
    have hb' := hbits b
    rw [hzero, hbit, decide_eq_true rfl] at hb'
    exact absurd hb' (by simp)
  | false =>
    rw [bne_eq_false_iff_eq]
    apply BitVec.eq_of_getLsbD_eq
    intro k _
    rw [hbits]
    by_cases hk : k = b
    · rw [hk, hbit]
      simp
    · simp [hk]

theorem CHECK_SET_BIT (a : BitVec 32) {b c : Nat} (hb : b < 32) (hc : c < 32) :
    CHECK_BIT (SET_BIT a b) c = (CHECK_BIT a c || decide (c = b)) := by
  rw [CHECK_BIT_eq _ hc, CHECK_BIT_eq _ hc]
  unfold SET_BIT
  rw [BitVec.getLsbD_or, bit_eq hb]

theorem CHECK_BIT_zero {c : Nat} (hc : c < 32) : CHECK_BIT 0 c = false := by
  rw [CHECK_BIT_eq _ hc]
  exact BitVec.getLsbD_zero

/-! ## Phases -/

/-- The life of a message. -/
inductive Phase where
  | free
  | bounced
  | ready
  /-- In the mailbox of its target. -/
  | mailed
  /-- Taken from there by a call. -/
  | opened (w : Nat)
  /-- In the broadcast mailbox, and not processed by all. -/
  | shared
  /-- The call was the last one to process it. -/
  | last (w : Nat)
  | unlinked (w : Nat)
  /-- The sender may return it. -/
  | done
  deriving DecidableEq

/-- Its sender has put it into a mailbox. -/
def Phase.Posted : Phase → Prop
  | .free | .bounced | .ready => False
  | _ => True

/-- The message a call has in its hands. -/
def Sending.msg : Sending μ → Option μ
  | .bounced m | .ready m | .waiting m => some m
  | _ => none

def Working.msg : Working μ → Option μ
  | .taken m _ | .last m _ | .unlinked m => some m
  | _ => none

/-- The CPUs that are to process what a call sends. -/
def Machine.Target (M : Machine μ) (i c : Nat) : Prop :=
  c < M.smp_num_cpus ∧ c ≠ (M.call i).curr_cpu ∧ ∀ t, (M.call i).target_cpu = some t → c = t

/-- The mailbox for what a call sends. -/
def Machine.mailbox (M : Machine μ) (i : Nat) : Mailbox :=
  if (M.call i).target_cpu = none then MAILBOX_BCAST else MAILBOX_LOCAL

/-- Which sends have been processed, and where. -/
def State.handled (s : State μ) : List (Nat × Nat) := s.processed.map fun e => (e.send, e.cpu)

instance (i : Nat) : DecidablePred (M.Target i) := fun c =>
  match h : (M.call i).target_cpu with
  | none => decidable_of_iff (c < M.smp_num_cpus ∧ c ≠ (M.call i).curr_cpu) (by
      unfold Machine.Target
      simp [h])
  | some t => decidable_of_iff (c < M.smp_num_cpus ∧ c ≠ (M.call i).curr_cpu ∧ c = t) (by
      unfold Machine.Target
      simp [h])

/-- The CPUs that have still to process a send. -/
def State.missing (M : Machine μ) (s : State μ) (i c : Nat) : Bool :=
  decide (M.Target i c) && decide ((i, c) ∉ s.handled)

/-- What is true of a message while it is under way: `ref_count` says who has still to process
it. -/
structure UnderWay (M : Machine μ) (s : State μ) (m : μ) : Prop where
  notSelf : (M.call (s.owner m)).target_cpu ≠ some (M.call (s.owner m)).curr_cpu
  flags : (s.msgs m).flags = (M.call (s.owner m)).flags
  done : (s.msgs m).done = false
  ref_count : (s.msgs m).ref_count = tally M.smp_num_cpus (s.missing M (s.owner m))

/-- Who has taken a message from the broadcast mailbox. -/
structure Bits (M : Machine μ) (s : State μ) (m : μ) : Prop where
  check : ∀ c < M.smp_num_cpus, CHECK_BIT (s.msgs m).proc_bitmap c = true ↔
    c = (M.call (s.owner m)).curr_cpu ∨ (s.owner m, c) ∈ s.handled ∨
      ∃ w, M.cpu w = c ∧ s.working w = .taken m MAILBOX_BCAST
  unique : ∀ w w', s.working w = .taken m MAILBOX_BCAST → s.working w' = .taken m MAILBOX_BCAST →
    M.cpu w = M.cpu w' → w = w'

/-- What a phase says of the message and its history. -/
def Phase.Facts (M : Machine μ) (s : State μ) (m : μ) : Phase → Prop
  | .free => True
  | .bounced =>
    (M.call (s.owner m)).target_cpu = some (M.call (s.owner m)).curr_cpu ∧
      ∀ c, (s.owner m, c) ∉ s.handled
  | .ready =>
    UnderWay M s m ∧ ((M.call (s.owner m)).target_cpu = none → Bits M s m) ∧
      ∀ c, (s.owner m, c) ∉ s.handled
  | .mailed =>
    UnderWay M s m ∧ (M.call (s.owner m)).target_cpu ≠ none ∧ ∀ c, (s.owner m, c) ∉ s.handled
  | .opened w =>
    UnderWay M s m ∧ (M.call (s.owner m)).target_cpu = some (M.cpu w) ∧
      ∀ c, (s.owner m, c) ∉ s.handled
  | .shared =>
    UnderWay M s m ∧ Bits M s m ∧ 0 < (s.msgs m).ref_count ∧
      (M.call (s.owner m)).target_cpu = none ∧
      ∀ w, s.working w = .taken m MAILBOX_BCAST → (s.owner m, M.cpu w) ∉ s.handled ∧
        M.cpu w ≠ (M.call (s.owner m)).curr_cpu
  | .last _ =>
    UnderWay M s m ∧ (∀ c, M.Target (s.owner m) c → (s.owner m, c) ∈ s.handled) ∧
      ((M.call (s.owner m)).target_cpu = none →
        ∀ c < M.smp_num_cpus, CHECK_BIT (s.msgs m).proc_bitmap c = true)
  | .unlinked _ => UnderWay M s m ∧ ∀ c, M.Target (s.owner m) c → (s.owner m, c) ∈ s.handled
  | .done =>
    (s.msgs m).done = true ∧ (M.call (s.owner m)).target_cpu ≠ some (M.call (s.owner m)).curr_cpu ∧
      (M.call (s.owner m)).flags = SMP_MSG_FLAG_SYNC ∧
      ∀ c, M.Target (s.owner m) c → (s.owner m, c) ∈ s.handled

/-- Where a message in a phase is. -/
structure Slot (M : Machine μ) (s : State μ) (m : μ) (p : Phase) : Prop where
  free : m ∈ s.free_msgs ↔ p = .free
  mailed : ∀ c, m ∈ s.smp_msgs c ↔ p = .mailed ∧ (M.call (s.owner m)).target_cpu = some c
  shared : m ∈ s.smp_broadcast_msgs ↔
    p = .shared ∨ (∃ w, p = .last w) ∧ (M.call (s.owner m)).target_cpu = none
  bounced : ∀ j, s.sending j = .bounced m ↔ p = .bounced ∧ j = s.owner m
  ready : ∀ j, s.sending j = .ready m ↔ p = .ready ∧ j = s.owner m
  waiting : ∀ j, s.sending j = .waiting m ↔
    p.Posted ∧ (M.call (s.owner m)).flags = SMP_MSG_FLAG_SYNC ∧ j = s.owner m
  opened : ∀ w, s.working w = .taken m MAILBOX_LOCAL ↔ p = .opened w
  taken : ∀ w, s.working w = .taken m MAILBOX_BCAST → p = .shared
  last : ∀ w box, s.working w = .last m box ↔ p = .last w ∧ box = M.mailbox (s.owner m)
  unlinked : ∀ w, s.working w = .unlinked m ↔ p = .unlinked w
  facts : p.Facts M s m

/-- The lists are such. -/
structure Lists (s : State μ) : Prop where
  count : s.free_msg_count = s.free_msgs.length
  free : s.free_msgs.Nodup
  mailed : ∀ c, (s.smp_msgs c).Nodup
  shared : s.smp_broadcast_msgs.Nodup

/-- What has been processed and returned. -/
structure History (M : Machine μ) (s : State μ) (p : μ → Phase) : Prop where
  inj : ∀ m m', p m ≠ .free → p m' ≠ .free → s.owner m = s.owner m' → m = m'
  out : ∀ m, p m ≠ .free → s.owner m ∉ s.returned ∧ s.sending (s.owner m) ≠ .idle
  back : ∀ i, s.sending i ≠ .idle → i ∈ s.returned ∨ ∃ m, p m ≠ .free ∧ s.owner m = i
  idle : ∀ i, s.sending i = .idle → i ∉ s.returned ∧ ∀ c, (i, c) ∉ s.handled
  returned : s.returned.Nodup
  complete : ∀ i ∈ s.returned, (M.call i).target_cpu ≠ some (M.call i).curr_cpu →
    ∀ c, M.Target i c → (i, c) ∈ s.handled
  sync : ∀ i, s.sending i = .finished → (M.call i).flags = SMP_MSG_FLAG_SYNC → i ∈ s.returned
  once : s.handled.Nodup
  target : ∀ i c, (i, c) ∈ s.handled → M.Target i c

structure Sound (M : Machine μ) (s : State μ) (p : μ → Phase) : Prop where
  lists : Lists s
  slot : ∀ m, Slot M s m (p m)
  history : History M s p

/-! ## What a step leaves alone -/

/-- A message says what it said, and is used for the same send. -/
structure SameMsg (s s' : State μ) (m : μ) : Prop where
  msgs : s'.msgs m = s.msgs m
  owner : s'.owner m = s.owner m
  handled : ∀ c, (s.owner m, c) ∈ s'.handled ↔ (s.owner m, c) ∈ s.handled

theorem SameMsg.missing (h : SameMsg s s' m) :
    s'.missing M (s.owner m) = s.missing M (s.owner m) := by
  funext c
  unfold State.missing
  simp only [h.handled]

theorem SameMsg.underWay (h : SameMsg s s' m) (hway : UnderWay M s m) : UnderWay M s' m := by
  constructor
  · rw [h.owner]
    exact hway.notSelf
  · rw [h.msgs, h.owner]
    exact hway.flags
  · rw [h.msgs]
    exact hway.done
  · rw [h.msgs, h.owner, h.missing]
    exact hway.ref_count

theorem SameMsg.bits (h : SameMsg s s' m) (hworking : ∀ w, s'.working w = .taken m MAILBOX_BCAST ↔
    s.working w = .taken m MAILBOX_BCAST) (hbits : Bits M s m) : Bits M s' m := by
  constructor
  · intro c hc
    simp only [h.msgs, h.owner, h.handled, hworking]
    exact hbits.check c hc
  · intro w w'
    simp only [hworking]
    exact hbits.unique w w'

theorem SameMsg.facts {p : Phase} (h : SameMsg s s' m)
    (hworking : ∀ w, s'.working w = .taken m MAILBOX_BCAST ↔ s.working w = .taken m MAILBOX_BCAST)
    (hfacts : p.Facts M s m) : p.Facts M s' m := by
  have hhandled := h.handled
  have howner := h.owner
  have hmsgs := h.msgs
  cases p with
  | free => trivial
  | bounced =>
    simp only [Phase.Facts, howner, hhandled]
    exact hfacts
  | ready =>
    simp only [Phase.Facts, howner, hhandled]
    exact ⟨h.underWay hfacts.1, fun hnone => h.bits hworking (hfacts.2.1 hnone), hfacts.2.2⟩
  | mailed | opened w =>
    simp only [Phase.Facts, howner, hhandled]
    exact ⟨h.underWay hfacts.1, hfacts.2⟩
  | shared =>
    simp only [Phase.Facts, howner, hhandled, hmsgs, hworking]
    exact ⟨h.underWay hfacts.1, h.bits hworking hfacts.2.1, hfacts.2.2⟩
  | last w =>
    simp only [Phase.Facts, howner, hhandled, hmsgs]
    exact ⟨h.underWay hfacts.1, hfacts.2⟩
  | unlinked w =>
    simp only [Phase.Facts, howner, hhandled]
    exact ⟨h.underWay hfacts.1, hfacts.2⟩
  | done =>
    simp only [Phase.Facts, howner, hhandled, hmsgs]
    exact hfacts

/-- Nothing has happened to a message. -/
structure SameAt (s s' : State μ) (m : μ) : Prop where
  msg : m ∉ s.free_msgs → SameMsg s s' m
  free : m ∈ s'.free_msgs ↔ m ∈ s.free_msgs
  owner : s'.owner m = s.owner m
  mailed : ∀ c, m ∈ s'.smp_msgs c ↔ m ∈ s.smp_msgs c
  shared : m ∈ s'.smp_broadcast_msgs ↔ m ∈ s.smp_broadcast_msgs
  sending : ∀ j x, x.msg = some m → (s'.sending j = x ↔ s.sending j = x)
  working : ∀ w x, x.msg = some m → (s'.working w = x ↔ s.working w = x)

theorem SameAt.slot {p : Phase} (h : SameAt s s' m) (hslot : Slot M s m p) : Slot M s' m p := by
  constructor
  · rw [h.free]
    exact hslot.free
  · intro c
    rw [h.mailed, h.owner]
    exact hslot.mailed c
  · rw [h.shared, h.owner]
    exact hslot.shared
  · intro j
    rw [h.sending j _ rfl, h.owner]
    exact hslot.bounced j
  · intro j
    rw [h.sending j _ rfl, h.owner]
    exact hslot.ready j
  · intro j
    rw [h.sending j _ rfl, h.owner]
    exact hslot.waiting j
  · intro w
    rw [h.working w _ rfl]
    exact hslot.opened w
  · intro w
    rw [h.working w _ rfl]
    exact hslot.taken w
  · intro w box
    rw [h.working w _ rfl, h.owner]
    exact hslot.last w box
  · intro w
    rw [h.working w _ rfl]
    exact hslot.unlinked w
  · by_cases hp : p = .free
    · rw [hp]
      trivial
    · have hout : m ∉ s.free_msgs := fun hm => hp (hslot.free.mp hm)
      exact (h.msg hout).facts (fun w => h.working w _ rfl) hslot.facts

theorem slots_update [DecidableEq μ] {p : μ → Phase} {q : Phase} (h : ∀ m, Slot M s m (p m))
    (hsame : ∀ m', m' ≠ m → SameAt s s' m') (hslot : Slot M s' m q) :
    ∀ m', Slot M s' m' (update p m q m') := by
  intro m'
  by_cases hm : m' = m
  · rw [hm, update_self]
    exact hslot
  · rw [update_of_ne hm]
    exact (hsame m' hm).slot (h m')

theorem update_same {α : Type} (msg : α → Option μ) {f : Nat → α} {i : Nat} {x : α}
    (hold : msg (f i) ≠ some m) (hnew : msg x ≠ some m) (j : Nat) (y : α) (hy : msg y = some m) :
    update f i x j = y ↔ f j = y := by
  by_cases hj : j = i
  · rw [hj, update_self]
    constructor
    · intro heq
      rw [heq] at hnew
      exact absurd hy hnew
    · intro heq
      rw [heq] at hold
      exact absurd hy hold
  · rw [update_of_ne hj]

/-! ## The history -/

namespace History

variable {p p' : μ → Phase}

/-- A step that neither takes a message nor puts one back. -/
theorem same (h : History M s p) (howner : s'.owner = s.owner)
    (hreturned : s'.returned = s.returned) (hhandled : s'.handled = s.handled)
    (hfree : ∀ m, p' m = .free ↔ p m = .free)
    (hidle : ∀ j, s'.sending j = .idle ↔ s.sending j = .idle)
    (hfinished : ∀ j, s'.sending j = .finished → (M.call j).flags = SMP_MSG_FLAG_SYNC →
      j ∈ s.returned) : History M s' p' := by
  constructor
  · simp only [howner, ne_eq, hfree]
    exact h.inj
  · simp only [howner, hreturned, ne_eq, hfree, hidle]
    exact h.out
  · simp only [howner, hreturned, ne_eq, hfree, hidle]
    exact h.back
  · simp only [hreturned, hhandled, hidle]
    exact h.idle
  · rw [hreturned]
    exact h.returned
  · simp only [hreturned, hhandled]
    exact h.complete
  · rw [hreturned]
    exact hfinished
  · rw [hhandled]
    exact h.once
  · rw [hhandled]
    exact h.target

/-- A send takes a free message. -/
theorem take [DecidableEq μ] (h : History M s p) (howner : s'.owner = update s.owner m i)
    (hreturned : s'.returned = s.returned) (hhandled : s'.handled = s.handled)
    (hp : p m = .free) (hp' : p' m ≠ .free) (hother : ∀ m', m' ≠ m → p' m' = p m')
    (hi : s.sending i = .idle) (hi' : s'.sending i ≠ .idle ∧ s'.sending i ≠ .finished)
    (hsending : ∀ j, j ≠ i → s'.sending j = s.sending j) : History M s' p' := by
  have hm : s'.owner m = i := by rw [howner, update_self]
  have hne : ∀ m', m' ≠ m → s'.owner m' = s.owner m' := by
    intro m' hm'
    rw [howner, update_of_ne hm']
  have hfresh : ∀ m', m' ≠ m → p m' ≠ .free → s.owner m' ≠ i := by
    intro m' _ hfree heq
    exact (h.out m' hfree).2 (heq ▸ hi)
  constructor
  · intro m₁ m₂ h₁ h₂ heq
    by_cases hm₁ : m₁ = m
    · by_cases hm₂ : m₂ = m
      · rw [hm₁, hm₂]
      · rw [hm₁, hm, hne m₂ hm₂] at heq
        rw [hother m₂ hm₂] at h₂
        exact absurd heq.symm (hfresh m₂ hm₂ h₂)
    · rw [hother m₁ hm₁] at h₁
      by_cases hm₂ : m₂ = m
      · rw [hm₂, hm, hne m₁ hm₁] at heq
        exact absurd heq (hfresh m₁ hm₁ h₁)
      · rw [hother m₂ hm₂] at h₂
        rw [hne m₁ hm₁, hne m₂ hm₂] at heq
        exact h.inj m₁ m₂ h₁ h₂ heq
  · intro m' hfree
    rw [hreturned]
    by_cases hm' : m' = m
    · rw [hm', hm]
      exact ⟨(h.idle i hi).1, hi'.1⟩
    · rw [hother m' hm'] at hfree
      rw [hne m' hm', hsending _ (hfresh m' hm' hfree)]
      exact h.out m' hfree
  · intro j hj
    rw [hreturned]
    by_cases hji : j = i
    · exact Or.inr ⟨m, hp', hm.trans hji.symm⟩
    · rw [hsending j hji] at hj
      rcases h.back j hj with hret | ⟨m', hfree, howns⟩
      · exact Or.inl hret
      · have hm' : m' ≠ m := by
          rintro rfl
          exact hfree hp
        refine Or.inr ⟨m', ?_, ?_⟩
        · rw [hother m' hm']
          exact hfree
        · rw [hne m' hm']
          exact howns
  · intro j hj
    rw [hreturned, hhandled]
    have hji : j ≠ i := by
      rintro rfl
      exact hi'.1 hj
    exact h.idle j (hsending j hji ▸ hj)
  · rw [hreturned]
    exact h.returned
  · rw [hreturned, hhandled]
    exact h.complete
  · intro j hj
    rw [hreturned]
    have hji : j ≠ i := by
      rintro rfl
      exact hi'.2 hj
    exact h.sync j (hsending j hji ▸ hj)
  · rw [hhandled]
    exact h.once
  · rw [hhandled]
    exact h.target

/-- A message is put back. -/
theorem putBack (h : History M s p) (howner : s'.owner = s.owner)
    (hreturned : s'.returned = s.returned ++ [s.owner m]) (hhandled : s'.handled = s.handled)
    (hp : p m ≠ .free) (hp' : p' m = .free) (hother : ∀ m', m' ≠ m → p' m' = p m')
    (hidle : ∀ j, s'.sending j = .idle ↔ s.sending j = .idle)
    (hfinished : ∀ j, j ≠ s.owner m → s'.sending j = .finished → s.sending j = .finished)
    (hcomplete : (M.call (s.owner m)).target_cpu ≠ some (M.call (s.owner m)).curr_cpu →
      ∀ c, M.Target (s.owner m) c → (s.owner m, c) ∈ s.handled) : History M s' p' := by
  have hstill : ∀ m', p' m' ≠ .free → m' ≠ m ∧ p m' ≠ .free := by
    intro m' hfree
    have hm' : m' ≠ m := by
      rintro rfl
      exact hfree hp'
    exact ⟨hm', hother m' hm' ▸ hfree⟩
  have hmem : ∀ j, j ∈ s'.returned ↔ j ∈ s.returned ∨ j = s.owner m := by
    intro j
    rw [hreturned, List.mem_append, List.mem_singleton]
  constructor
  · intro m₁ m₂ h₁ h₂ heq
    rw [howner] at heq
    exact h.inj m₁ m₂ (hstill m₁ h₁).2 (hstill m₂ h₂).2 heq
  · intro m' hfree
    obtain ⟨hm', hfree'⟩ := hstill m' hfree
    rw [hmem, howner, ne_eq, hidle]
    refine ⟨?_, (h.out m' hfree').2⟩
    rintro (hret | heq)
    · exact (h.out m' hfree').1 hret
    · exact hm' (h.inj m' m hfree' hp heq)
  · intro j hj
    rw [ne_eq, hidle] at hj
    rw [hmem, howner]
    rcases h.back j hj with hret | ⟨m', hfree, rfl⟩
    · exact Or.inl (Or.inl hret)
    · by_cases hm' : m' = m
      · rw [hm']
        exact Or.inl (Or.inr rfl)
      · refine Or.inr ⟨m', ?_, rfl⟩
        rw [hother m' hm']
        exact hfree
  · intro j hj
    rw [hidle] at hj
    rw [hmem, hhandled]
    refine ⟨?_, (h.idle j hj).2⟩
    rintro (hret | rfl)
    · exact (h.idle j hj).1 hret
    · exact (h.out m hp).2 hj
  · rw [hreturned]
    exact List.nodup_append.mpr ⟨h.returned, List.nodup_singleton _, fun j hj k hk => by
      rw [List.mem_singleton] at hk
      rintro rfl
      exact (h.out m hp).1 (hk ▸ hj)⟩
  · intro j hj
    rw [hhandled]
    rcases (hmem j).mp hj with hret | rfl
    · exact h.complete j hret
    · exact hcomplete
  · intro j hj hsync
    rw [hmem]
    by_cases hji : j = s.owner m
    · exact Or.inr hji
    · exact Or.inl (h.sync j (hfinished j hji hj) hsync)
  · rw [hhandled]
    exact h.once
  · rw [hhandled]
    exact h.target

/-- One more CPU has processed a message. -/
theorem processed (h : History M s p) (howner : s'.owner = s.owner)
    (hreturned : s'.returned = s.returned) (hsending : s'.sending = s.sending)
    (hhandled : s'.handled = s.handled ++ [(s.owner m, c)])
    (hfree : ∀ m, p' m = .free ↔ p m = .free) (hp : p m ≠ .free)
    (htarget : M.Target (s.owner m) c) (hnew : (s.owner m, c) ∉ s.handled) :
    History M s' p' := by
  have hmem : ∀ e, e ∈ s'.handled ↔ e ∈ s.handled ∨ e = (s.owner m, c) := by
    intro e
    rw [hhandled, List.mem_append, List.mem_singleton]
  constructor
  · simp only [howner, ne_eq, hfree]
    exact h.inj
  · simp only [howner, hreturned, ne_eq, hfree, hsending]
    exact h.out
  · simp only [howner, hreturned, ne_eq, hfree, hsending]
    exact h.back
  · intro j hj
    rw [hsending] at hj
    rw [hreturned]
    refine ⟨(h.idle j hj).1, ?_⟩
    intro c'
    rw [hmem, Prod.mk.injEq]
    rintro (hold | ⟨rfl, -⟩)
    · exact (h.idle j hj).2 c' hold
    · exact (h.out m hp).2 hj
  · rw [hreturned]
    exact h.returned
  · intro j hj hself c' hc'
    rw [hreturned] at hj
    rw [hmem]
    exact Or.inl (h.complete j hj hself c' hc')
  · rw [hsending, hreturned]
    exact h.sync
  · rw [hhandled]
    exact List.nodup_append.mpr ⟨h.once, List.nodup_singleton _, fun e he k hk => by
      rw [List.mem_singleton] at hk
      rintro rfl
      exact hnew (hk ▸ he)⟩
  · intro j c' hj
    rw [hmem, Prod.mk.injEq] at hj
    rcases hj with hold | ⟨rfl, rfl⟩
    · exact h.target j c' hold
    · exact htarget

end History

end Smp
