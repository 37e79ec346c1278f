import OpenBeOS.Net.ArpCacheRun
import OpenBeOS.Net.ArpQueue

/-! # Runs of the ARP queue

As long as nothing is looked up twice, replies find their packets and the entries that a run of the
timer frees stand in front of the others, every packet that waits is called back once, and the queue
holds exactly the entries that are allocated.
-/

namespace Arp

open Bytes Nhash Chain Function List Nat
open Option (bind_eq_bind bind_some)

/-! ## The queue -/

/-- The entry waits. -/
def State.Waiting (s : State) (aqe : Nat) : Prop := (s.queue aqe).status = ARP_WAITING

instance (s : State) (aqe : Nat) : Decidable (s.Waiting aqe) := inferInstanceAs (Decidable (_ = _))

/-- The head of the queue leads through the entries `order`, which are all that are allocated, one
for each address. -/
structure Queue (s : State) (order : List Nat) : Prop where
  chain : Leads (fun aqe => (s.queue aqe).next) s.arp_lookup_q order none
  nodup : order.Nodup
  allocated : s.allocated.Perm order
  status : ∀ a ∈ order, s.Waiting a ∨ (s.queue a).status = ARP_COMPLETE
  request : ∀ a ∈ order, s.rt_ifp (s.queue a).rt ≠ none ∧ (s.queue a).sin_family = AF_INET
  address : ∀ a ∈ order, ∀ b ∈ order, SameBytes (s.queue a).sin_addr (s.queue b).sin_addr 4 → a = b

/-- The entry at a place of the queue. -/
def State.follow (s : State) (i : Nat) : Option Nat :=
  Chain.follow (fun aqe => (s.queue aqe).next) i s.arp_lookup_q

/-- A run of the timer frees the entry, if it comes to it at this time. -/
def State.Doomed (s : State) (aqe now : Nat) : Prop :=
  (s.queue aqe).status = ARP_COMPLETE ∨
    Late (s.queue aqe) now ∧ (s.queue aqe).attempts > arp_maxtries

instance (s : State) (aqe now : Nat) : Decidable (s.Doomed aqe now) :=
  inferInstanceAs (Decidable (_ ∨ _ ∧ _))

/-- When a call treats the packets right. A lookup that the cache does not answer finds no entry for
its address in the queue, and can send its request. A reply for a packet that waits gives the cache a
new entry, and only waiting entries stand in front of that of the packet. A run of the timer frees
no entry behind one that it keeps. -/
def QueueRight (s : State) : ArpCall → Prop
  | .reply _ addr _ _ => ∀ i a, s.follow i = some a → s.Waiting a →
      SameBytes (s.queue a).sin_addr addr 4 → nhash_get s.cache.arphash s.cache.key addr 4 = none ∧
        ∀ j b, j < i → s.follow j = some b → s.Waiting b
  | .resolve a _ _ _ => nhash_get s.cache.arphash s.cache.key a.sin_addr 4 = none →
      (∀ i b, s.follow i = some b → ¬SameBytes (s.queue b).sin_addr a.sin_addr 4) ∧
        s.rt_ifp a.rt ≠ none ∧ a.sin_family = AF_INET
  | .run clock => ∀ i j a b, i < j → s.follow i = some a → s.follow j = some b →
      s.Doomed b (clock j) → s.Doomed a (clock i)
  | .request _ _ _ _ | .cleanse _ _ => True

/-! ## What a call does to the packets that wait -/

/-- The entry is that of the same packet. -/
structure SamePacket (e e' : QEntry) : Prop where
  buf : e'.buf = e.buf
  callback : e'.callback = e.callback
  sin_addr : e'.sin_addr = e.sin_addr

theorem SamePacket.refl (e : QEntry) : SamePacket e e := ⟨rfl, rfl, rfl⟩

/-- A call answers the packets `answered` with `result`, and the requests of `late` are repeated; the
other packets go on waiting. New packets that wait are those that `New` allows. -/
structure Effect (s s' : State) (order order' : List Nat) (result : Lookup)
    (answered late : List Nat) (New : Nat → Prop) : Prop where
  queue : Queue s' order'
  waiting : ∀ a ∈ answered, a ∈ order ∧ s.Waiting a
  nodup : answered.Nodup
  called : s'.called = answered.map fun a => ⟨(s.queue a).callback, result, (s.queue a).buf⟩
  due : s'.due = late.map fun a => (s.queue a).buf
  lateWaiting : ∀ a ∈ late, a ∈ order ∧ s.Waiting a
  stays : ∀ a ∈ order, s.Waiting a → a ∉ answered → a ∈ order' ∧ s'.Waiting a ∧
    SamePacket (s.queue a) (s'.queue a) ∧
    if a ∈ late then (s.queue a).attempts ≤ arp_maxtries ∧
      (s'.queue a).attempts = (s.queue a).attempts + 2
    else (s'.queue a).attempts = (s.queue a).attempts
  waited : ∀ a ∈ order', s'.Waiting a → (a ∈ order ∧ a ∉ answered ∧ s.Waiting a ∧
    (s'.queue a).buf = (s.queue a).buf) ∨ New (s'.queue a).buf

/-- A packet that waits, with the number of times that its last request was too long ago. -/
structure Waits (s : State) (order : List Nat) (a : Asked) (attempts : Int) (late aqe : Nat) :
    Prop where
  mem : aqe ∈ order
  waiting : s.Waiting aqe
  buf : (s.queue aqe).buf = a.buf
  callback : (s.queue aqe).callback = a.callback
  sin_addr : (s.queue aqe).sin_addr = a.sin_addr
  only : ∀ b ∈ order, s.Waiting b → (s.queue b).buf = a.buf → b = aqe
  tries : (s.queue aqe).attempts = incr attempts + 2 * late
  bound : late = 0 ∨ incr attempts + 2 * late ≤ 7

/-- How often the last request of a packet was too long ago. -/
def timesLate (a : Asked) (steps : List Step) : Nat := steps.countP fun step => a.buf ∈ step.due

/-- A packet waits still, or has been answered. -/
def Settled (s : State) (order : List Nat) (a : Asked) (attempts : Int) (steps : List Step) : Prop :=
  (Fate a steps none ∧ ∃ aqe, Waits s order a attempts (timesLate a steps) aqe) ∨
    (∃ result, Fate a steps (some result)) ∧ ∀ b ∈ order, s.Waiting b → (s.queue b).buf ≠ a.buf

section Effect

variable {s s' : State} {order order' answered late : List Nat} {result : Lookup}
  {New : Nat → Prop} {a : Asked} {attempts : Int} {steps : List Step} {step : Step}

theorem calledFor_eq {aqe buf : Nat} (hcalled : step.called =
      answered.map fun a => ⟨(s.queue a).callback, result, (s.queue a).buf⟩)
    (hnodup : answered.Nodup) (hbuf : (s.queue aqe).buf = buf)
    (honly : ∀ b ∈ answered, (s.queue b).buf = buf → b = aqe) :
    step.calledFor buf =
      if aqe ∈ answered then [⟨(s.queue aqe).callback, result, (s.queue aqe).buf⟩] else [] := by
  rw [Step.calledFor, hcalled, filter_map]
  have hfilter : answered.filter ((fun c : Called => decide (c.buf = buf)) ∘
      fun a => ⟨(s.queue a).callback, result, (s.queue a).buf⟩) = answered.filter (· = aqe) := by
    refine filter_congr fun b hb => ?_
    simp only [comp_apply, decide_eq_decide]
    exact ⟨honly b hb, fun heq => heq ▸ hbuf⟩
  rw [hfilter, filter_eq]
  by_cases hmem : aqe ∈ answered
  · rw [if_pos hmem, count_eq_one_of_mem hnodup hmem]
    rfl
  · rw [if_neg hmem, count_eq_zero_of_not_mem hmem]
    rfl

/-- A packet that waits is answered, or waits on. -/
theorem Effect.waits (h : Effect s s' order order' result answered late New)
    (hstep : step.called = s'.called ∧ step.due = s'.due)
    (hanswer : ∀ e ∈ answered, step.ReplyFrom (s.queue e).sin_addr ∧ result = .ARP_LOOKUP_OK ∨
      step.IsRun ∧ result = .ARP_LOOKUP_FAILED)
    (hreply : ∀ e ∈ order, s.Waiting e → step.ReplyFrom (s.queue e).sin_addr → e ∈ answered)
    (hnew : ¬New a.buf) (hfate : Fate a steps none) {aqe : Nat}
    (hwaits : Waits s order a attempts (timesLate a steps) aqe) :
    Settled s' order' a attempts (steps ++ [step]) := by
  have hcalled := calledFor_eq (hstep.1.trans h.called) h.nodup hwaits.buf fun b hb =>
    hwaits.only b (h.waiting b hb).1 (h.waiting b hb).2
  by_cases hmem : aqe ∈ answered
  · -- it is answered
    rw [if_pos hmem, hwaits.buf, hwaits.callback] at hcalled
    refine .inr ⟨?_, fun b hb hwaiting hbuf => ?_⟩
    · rcases hanswer aqe hmem with ⟨hfrom, rfl⟩ | ⟨hrun, rfl⟩
      · rw [hwaits.sin_addr] at hfrom
        exact ⟨_, hfate.answered hfrom hcalled⟩
      · exact ⟨_, hfate.failed hrun hcalled⟩
    · rcases h.waited b hb hwaiting with ⟨hb, hnot, hold, hsame⟩ | hnewBuf
      · exact hnot (hwaits.only b hb hold (hsame ▸ hbuf) ▸ hmem)
      · exact hnew (hbuf ▸ hnewBuf)
  · -- it waits on
    rw [if_neg hmem] at hcalled
    obtain ⟨hmem', hwaiting', hsame, hattempts⟩ := h.stays aqe hwaits.mem hwaits.waiting hmem
    refine .inl ⟨hfate.waits (fun hfrom => ?_) hcalled, aqe, hmem', hwaiting',
      hsame.buf.trans hwaits.buf, hsame.callback.trans hwaits.callback,
      hsame.sin_addr.trans hwaits.sin_addr, fun b hb hwaiting hbuf => ?_, ?_, ?_⟩
    · rw [← hwaits.sin_addr] at hfrom
      exact hmem (hreply aqe hwaits.mem hwaits.waiting hfrom)
    · rcases h.waited b hb hwaiting with ⟨hb, -, hold, hsameBuf⟩ | hnewBuf
      · exact hwaits.only b hb hold (hsameBuf ▸ hbuf)
      · exact absurd (hbuf ▸ hnewBuf) hnew
    all_goals
      have hlate : a.buf ∈ step.due ↔ aqe ∈ late := by
        rw [hstep.2, h.due, mem_map]
        constructor
        · rintro ⟨b, hb, hbuf⟩
          exact hwaits.only b (h.lateWaiting b hb).1 (h.lateWaiting b hb).2 hbuf ▸ hb
        · intro hmem
          exact ⟨aqe, hmem, hwaits.buf⟩
      have hold := hwaits.tries
      have hbound := hwaits.bound
      rw [timesLate] at hold hbound
      rw [timesLate, countP_append, countP_singleton]
      simp only [decide_eq_true_eq, hlate]
      split at hattempts
      · rename_i hmem
        simp only [arp_maxtries] at hattempts
        rw [if_pos hmem]
        omega
      · rename_i hmem
        rw [if_neg hmem]
        omega

theorem Effect.settled (h : Effect s s' order order' result answered late New)
    (hstep : step.called = s'.called ∧ step.due = s'.due)
    (hanswer : ∀ e ∈ answered, step.ReplyFrom (s.queue e).sin_addr ∧ result = .ARP_LOOKUP_OK ∨
      step.IsRun ∧ result = .ARP_LOOKUP_FAILED)
    (hreply : ∀ e ∈ order, s.Waiting e → step.ReplyFrom (s.queue e).sin_addr → e ∈ answered)
    (hnew : ¬New a.buf) (hsettled : Settled s order a attempts steps) :
    Settled s' order' a attempts (steps ++ [step]) := by
  rcases hsettled with ⟨hfate, aqe, hwaits⟩ | ⟨⟨r, hfate⟩, hnone⟩
  · exact h.waits hstep hanswer hreply hnew hfate hwaits
  · refine .inr ⟨⟨r, hfate.settled ?_⟩, fun b hb hwaiting hbuf => ?_⟩
    · rw [Step.calledFor, hstep.1, h.called, filter_eq_nil_iff]
      intro c hc
      obtain ⟨e, he, rfl⟩ := mem_map.1 hc
      rw [decide_eq_true_eq]
      exact hnone e (h.waiting e he).1 (h.waiting e he).2
    · rcases h.waited b hb hwaiting with ⟨hb, -, hold, hsame⟩ | hnewBuf
      · exact hnone b hb hold (hsame ▸ hbuf)
      · exact hnew (hbuf ▸ hnewBuf)

end Effect

/-! ## A reply -/

section Reply

variable {s s' : State} {order : List Nat} {addr : Buffer}

/-- What is called back for a reply. -/
def okCall (s : State) (aqe : Nat) : Called :=
  ⟨(s.queue aqe).callback, .ARP_LOOKUP_OK, (s.queue aqe).buf⟩

theorem complete_queue (s : State) (aqe a : Nat) : (s.complete aqe).queue a =
    if a = aqe then { s.queue aqe with status := ARP_COMPLETE } else s.queue a :=
  update_apply s.queue aqe { s.queue aqe with status := ARP_COMPLETE } a

theorem complete_queue_of_ne {aqe a : Nat} (h : a ≠ aqe) :
    (s.complete aqe).queue a = s.queue a := by
  rw [complete_queue, if_neg h]

/-- The entry is for the address. -/
def State.Matches (s : State) (addr : Buffer) (aqe : Nat) : Prop :=
  SameBytes (s.queue aqe).sin_addr addr 4

instance (s : State) (addr : Buffer) (aqe : Nat) : Decidable (s.Matches addr aqe) :=
  inferInstanceAs (Decidable (SameBytes _ _ _))

/-- The entries that a reply completes, in a part of the queue. -/
def State.replied (s : State) (addr : Buffer) (ys : List Nat) : List Nat :=
  (ys.takeWhile fun b => s.Waiting b).filter fun b => s.Matches addr b

theorem takeWhile_congr {f g : Nat → Bool} : ∀ {l : List Nat}, (∀ b ∈ l, f b = g b) →
    l.takeWhile f = l.takeWhile g
  | [], _ => rfl
  | y :: l, h => by
    rw [takeWhile_cons, takeWhile_cons, h y mem_cons_self,
      takeWhile_congr fun b hb => h b (mem_cons_of_mem y hb)]

variable {ys : List Nat}

theorem waiting_cons {s : State} {y : Nat} (h : s.Waiting y) :
    ((y :: ys).takeWhile fun b => s.Waiting b) = y :: ys.takeWhile fun b => s.Waiting b := by
  rw [takeWhile_cons, if_pos (decide_eq_true h)]

theorem scanLoop_eq (addr : Buffer) : ∀ (ys : List Nat) {fuel : Nat} {p : Option Nat} {s : State},
    Leads (fun aqe => (s.queue aqe).next) p ys none → ys.Nodup → (∀ a ∈ ys, a ∈ s.allocated) →
    ys.length < fuel → State.scanLoop addr fuel p s =
      some ((s.replied addr ys).foldl State.complete s)
  | [], fuel, p, s, hleads, _, _, hfuel => by
    obtain ⟨fuel, rfl⟩ := exists_eq_succ_of_ne_zero (ne_of_gt hfuel)
    rw [show p = none from hleads]
    rfl
  | y :: ys, fuel, p, s, hleads, hnodup, halloc, hfuel => by
    obtain ⟨fuel, rfl⟩ := exists_eq_succ_of_ne_zero (ne_of_gt (zero_lt_of_lt hfuel))
    obtain ⟨rfl, hrest⟩ := hleads
    obtain ⟨hy, hys⟩ := nodup_cons.1 hnodup
    rw [State.scanLoop, if_neg (not_not.2 (halloc y mem_cons_self))]
    by_cases hwaiting : s.Waiting y
    · rw [if_pos (show (s.queue y).status = ARP_WAITING from hwaiting)]
      -- what follows does not depend on the entry
      have hsame : ∀ b ∈ ys, (s.complete y).queue b = s.queue b := fun b hb =>
        complete_queue_of_ne fun heq => hy (heq ▸ hb)
      have hreplied : (s.complete y).replied addr ys = s.replied addr ys := by
        have htake : (ys.takeWhile fun b => (s.complete y).Waiting b) =
            ys.takeWhile fun b => s.Waiting b := by
          refine takeWhile_congr fun b hb => decide_eq_decide.2 ?_
          rw [State.Waiting, State.Waiting, hsame b hb]
        rw [State.replied, htake, State.replied]
        refine filter_congr fun b hb => decide_eq_decide.2 ?_
        rw [State.Matches, State.Matches, hsame b (takeWhile_subset _ hb)]
      have htakes := @waiting_cons ys s y hwaiting
      have hnext : ((s.complete y).queue y).next = (s.queue y).next := by
        rw [complete_queue, if_pos rfl]
      by_cases hmatch : s.Matches addr y
      · have ih := @scanLoop_eq addr ys fuel (s.queue y).next (s.complete y)
          (hrest.congr fun b hb => by rw [hsame b hb]) hys
          (fun b hb => halloc b (mem_cons_of_mem y hb)) (lt_of_succ_lt_succ hfuel)
        simp only [show SameBytes (s.queue y).sin_addr addr 4 from hmatch, if_true]
        rw [hnext, ih, hreplied, State.replied, State.replied, htakes, filter_cons,
          if_pos (decide_eq_true hmatch), foldl_cons]
      · have ih := @scanLoop_eq addr ys fuel (s.queue y).next s hrest hys
          (fun b hb => halloc b (mem_cons_of_mem y hb)) (lt_of_succ_lt_succ hfuel)
        simp only [show ¬SameBytes (s.queue y).sin_addr addr 4 from hmatch, if_false]
        rw [ih, State.replied, State.replied, htakes, filter_cons, if_neg (by simpa using hmatch)]
    · rw [if_neg (show ¬(s.queue y).status = ARP_WAITING from hwaiting), State.replied,
        takeWhile_cons_of_neg (by simpa using hwaiting)]
      rfl

/-- The callbacks and the entries after some of them have been completed. -/
theorem foldl_complete (l : List Nat) (hnodup : l.Nodup) (s : State) :
    (∀ a, (l.foldl State.complete s).queue a =
      if a ∈ l then { s.queue a with status := ARP_COMPLETE } else s.queue a) ∧
    (l.foldl State.complete s).called = s.called ++ l.map (okCall s) ∧
    (l.foldl State.complete s).due = s.due ∧
    (l.foldl State.complete s).arp_lookup_q = s.arp_lookup_q ∧
    (l.foldl State.complete s).allocated = s.allocated ∧
    (l.foldl State.complete s).rt_ifp = s.rt_ifp := by
  induction l generalizing s with
  | nil => exact ⟨fun a => rfl, (append_nil _).symm, rfl, rfl, rfl, rfl⟩
  | cons y l ih =>
    obtain ⟨hy, hl⟩ := nodup_cons.1 hnodup
    obtain ⟨hqueue, hcalled, hdue, hhead, halloc, hifp⟩ := ih hl (s.complete y)
    rw [foldl_cons]
    refine ⟨fun a => ?_, ?_, hdue, hhead, halloc, hifp⟩
    · rw [hqueue, complete_queue]
      by_cases heq : a = y
      · subst heq
        rw [if_neg hy, if_pos rfl, if_pos mem_cons_self]
      · rw [if_neg heq]
        simp only [mem_cons, heq, false_or]
    · have hcalls : l.map (okCall (s.complete y)) = l.map (okCall s) :=
        map_congr_left fun b hb => by
          have hne : b ≠ y := fun heq => hy (heq ▸ hb)
          rw [okCall, complete_queue_of_ne hne]
          rfl
      rw [hcalled, hcalls, map_cons, State.complete]
      exact append_assoc _ _ _

theorem mem_replied {i a : Nat} (hget : ys[i]? = some a) (hwaiting : s.Waiting a)
    (hmatch : s.Matches addr a) (hfront : ∀ j b, j < i → ys[j]? = some b → s.Waiting b) :
    a ∈ s.replied addr ys := by
  refine mem_filter.2 ⟨?_, decide_eq_true hmatch⟩
  induction ys generalizing i with
  | nil => cases hget
  | cons y ys ih =>
    cases i with
    | zero =>
      obtain rfl : y = a := Option.some.inj hget
      rw [waiting_cons hwaiting]
      exact mem_cons_self
    | succ i =>
      have hy : s.Waiting y := hfront 0 y (zero_lt_succ i) rfl
      rw [waiting_cons hy]
      exact mem_cons_of_mem y
        (ih hget fun j b hj hb => hfront (j + 1) b (succ_lt_succ hj) hb)

theorem replied_waiting {a : Nat} (h : a ∈ s.replied addr ys) :
    a ∈ ys ∧ s.Waiting a ∧ s.Matches addr a := by
  obtain ⟨htake, hmatch⟩ := mem_filter.1 h
  have hwaiting := mem_takeWhile_imp htake
  exact ⟨takeWhile_subset _ htake, of_decide_eq_true hwaiting, of_decide_eq_true hmatch⟩

/-- The effect of a scan. -/
theorem scan_effect (h : Queue s order) (hcalled : s.called = []) (hdue : s.due = []) :
    ∃ s', State.scanLoop addr s.fuel s.arp_lookup_q s = some s' ∧
      Effect s s' order order .ARP_LOOKUP_OK (s.replied addr order) [] fun _ => False := by
  have hfuel : order.length < s.fuel := by
    rw [State.fuel, h.allocated.length_eq]
    exact lt_succ_self _
  have hnodup : (s.replied addr order).Nodup := (h.nodup.sublist (takeWhile_sublist _)).filter _
  refine ⟨_, scanLoop_eq addr order h.chain h.nodup (fun a ha => h.allocated.mem_iff.2 ha) hfuel, ?_⟩
  obtain ⟨hqueue, hcalls, hdues, hhead, halloc, hifp⟩ := foldl_complete _ hnodup s
  generalize (s.replied addr order).foldl State.complete s = s' at *
  have hfields : ∀ a, (s'.queue a).next = (s.queue a).next ∧ (s'.queue a).rt = (s.queue a).rt ∧
      (s'.queue a).sin_family = (s.queue a).sin_family ∧ SamePacket (s.queue a) (s'.queue a) := by
    intro a
    rw [hqueue]
    split
    · exact ⟨rfl, rfl, rfl, rfl, rfl, rfl⟩
    · exact ⟨rfl, rfl, rfl, .refl _⟩
  have hwaiting : ∀ a, s'.Waiting a → a ∉ s.replied addr order ∧ s.Waiting a := by
    intro a hwaiting
    rw [State.Waiting, hqueue] at hwaiting
    split at hwaiting
    · exact absurd (show ARP_COMPLETE = ARP_WAITING from hwaiting) (by decide)
    · exact ⟨‹_›, hwaiting⟩
  refine ⟨⟨?_, h.nodup, halloc ▸ h.allocated, fun a ha => ?_, fun a ha => ?_,
    fun a ha b hb hsame => ?_⟩, fun a ha => ?_, hnodup, ?_, ?_, nofun, fun a ha hwait hnot => ?_,
    fun a ha hwait => .inl ?_⟩
  · rw [hhead]
    exact h.chain.congr fun a _ => (hfields a).1
  · rw [State.Waiting, hqueue]
    split
    · exact .inr rfl
    · exact h.status a ha
  · rw [hifp, (hfields a).2.1, (hfields a).2.2.1]
    exact h.request a ha
  · rw [(hfields a).2.2.2.sin_addr, (hfields b).2.2.2.sin_addr] at hsame
    exact h.address a ha b hb hsame
  · exact ⟨(replied_waiting ha).1, (replied_waiting ha).2.1⟩
  · rw [hcalls, hcalled]
    rfl
  · rw [hdues, hdue]
    rfl
  · have hsame : s'.queue a = s.queue a := by rw [hqueue, if_neg hnot]
    rw [State.Waiting, hsame, if_neg not_mem_nil]
    exact ⟨ha, hwait, .refl _, rfl⟩
  · obtain ⟨hnot, hold⟩ := hwaiting a hwait
    exact ⟨ha, hnot, hold, (hfields a).2.2.2.buf⟩

end Reply

/-! ## A run of the timer -/

section Timer

variable {s s' : State} {order ys gone rest late : List Nat}

/-- What is called back when the timer gives up. -/
def failCall (s : State) (aqe : Nat) : Called :=
  ⟨(s.queue aqe).callback, .ARP_LOOKUP_FAILED, (s.queue aqe).buf⟩

/-- The entry after another request. -/
def QEntry.again (e : QEntry) (now : Nat) : QEntry :=
  { e with status := ARP_WAITING, lasttx := now, attempts := incr (incr e.attempts) }

theorem retry_queue (s : State) (aqe a : Nat) : (s.retry aqe).queue a =
    if a = aqe then { s.queue aqe with attempts := incr (s.queue aqe).attempts }
    else s.queue a :=
  update_apply s.queue aqe { s.queue aqe with attempts := incr (s.queue aqe).attempts } a

/-- An entry with an interface sends its request once more. -/
theorem retry_send {aqe : Nat} (now : Nat) (hrequest : s.rt_ifp (s.queue aqe).rt ≠ none ∧
    (s.queue aqe).sin_family = AF_INET) : ∃ reject, (s.retry aqe).arp_send_request aqe now =
      { s with
        queue := update s.queue aqe ((s.queue aqe).again now)
        due := s.due ++ [(s.queue aqe).buf]
        reject } := by
  have hself : (s.retry aqe).queue aqe =
      { s.queue aqe with attempts := incr (s.queue aqe).attempts } := by
    rw [retry_queue, if_pos rfl]
  have hifp : ¬(s.retry aqe).rt_ifp ((s.retry aqe).queue aqe).rt = none := by
    rw [hself]
    exact hrequest.1
  have hfamily : ¬((s.retry aqe).queue aqe).sin_family ≠ AF_INET := by
    rw [hself]
    exact not_not.2 hrequest.2
  have hupdate : ((s.retry aqe).update aqe fun e =>
      { e with status := ARP_WAITING, lasttx := now, attempts := incr e.attempts }) =
      { s with
        queue := update s.queue aqe ((s.queue aqe).again now)
        due := s.due ++ [(s.queue aqe).buf] } := by
    rw [State.update, hself, State.retry, State.update, update_idem]
    rfl
  rw [State.arp_send_request, if_neg hifp, if_neg hfamily]
  simp only [hupdate]
  exact ⟨_, rfl⟩

/-- The entries of `late` have sent another request, and nothing else has changed. -/
structure Retried (s s' : State) (ys late : List Nat) : Prop where
  head : s'.arp_lookup_q = s.arp_lookup_q
  allocated : s'.allocated = s.allocated
  rt_ifp : s'.rt_ifp = s.rt_ifp
  called : s'.called = s.called
  due : s'.due = s.due ++ late.map fun a => (s.queue a).buf
  mem : ∀ a ∈ late, a ∈ ys
  other : ∀ a, a ∉ late → s'.queue a = s.queue a
  again : ∀ a ∈ late, (s.queue a).attempts ≤ arp_maxtries ∧
    ∃ now, s'.queue a = (s.queue a).again now

/-- The loop where no entry is freed. -/
theorem runLoop_rest (clock : Nat → Nat) : ∀ (ys : List Nat) {fuel i : Nat} {p : Option Nat}
    {s : State}, Leads (fun aqe => (s.queue aqe).next) p ys none → ys.Nodup →
    (∀ a ∈ ys, a ∈ s.allocated) →
    (∀ a ∈ ys, s.rt_ifp (s.queue a).rt ≠ none ∧ (s.queue a).sin_family = AF_INET) →
    (∀ k a, ys[k]? = some a → ¬s.Doomed a (clock (i + k))) → ys.length < fuel →
    ∃ s' late, State.runLoop clock fuel i p s = some s' ∧ Retried s s' ys late
  | [], fuel, i, p, s, hleads, _, _, _, _, hfuel => by
    obtain ⟨fuel, rfl⟩ := exists_eq_succ_of_ne_zero (ne_of_gt hfuel)
    rw [show p = none from hleads]
    exact ⟨s, [], rfl, rfl, rfl, rfl, rfl, (append_nil _).symm, nofun, fun _ _ => rfl, nofun⟩
  | y :: ys, fuel, i, p, s, hleads, hnodup, halloc, hrequest, hkept, hfuel => by
    obtain ⟨fuel, rfl⟩ := exists_eq_succ_of_ne_zero (ne_of_gt (zero_lt_of_lt hfuel))
    obtain ⟨rfl, hrest⟩ := hleads
    obtain ⟨hy, hys⟩ := nodup_cons.1 hnodup
    have hkeep : ¬s.Doomed y (clock i) := hkept 0 y rfl
    obtain ⟨hstatus, htries⟩ := not_or.1 hkeep
    have hkept' : ∀ k a, ys[k]? = some a → ¬s.Doomed a (clock (i + 1 + k)) := fun k a hk => by
      rw [add_assoc, add_comm 1 k]
      exact hkept (k + 1) a hk
    rw [State.runLoop, if_neg (not_not.2 (halloc y mem_cons_self)), if_neg hstatus]
    by_cases hlate : State.Late (s.queue y) (clock i)
    · -- another request
      have hfew : ¬(s.queue y).attempts > arp_maxtries := fun h => htries ⟨hlate, h⟩
      obtain ⟨reject, hsend⟩ := retry_send (clock i) (hrequest y mem_cons_self)
      rw [if_pos hlate]
      simp only [if_neg hfew]
      rw [hsend]
      generalize hs₁ : ({ s with
        queue := update s.queue y ((s.queue y).again (clock i))
        due := s.due ++ [(s.queue y).buf]
        reject := reject } : State) = s₁
      have hqueue : ∀ a, a ≠ y → s₁.queue a = s.queue a := fun a hne => by
        rw [← hs₁]
        exact update_of_ne hne _ _
      have hsame : ∀ a ∈ ys, s₁.queue a = s.queue a := fun a ha => hqueue a fun heq => hy (heq ▸ ha)
      have hself : s₁.queue y = (s.queue y).again (clock i) := by
        rw [← hs₁]
        exact update_self _ _ _
      obtain ⟨s', late, hrun, h⟩ := @runLoop_rest clock ys fuel (i + 1) (s.queue y).next s₁
        (hrest.congr fun a ha => by rw [hsame a ha]) hys
        (fun a ha => by rw [← hs₁]; exact halloc a (mem_cons_of_mem y ha))
        (fun a ha => by
          rw [hsame a ha, ← hs₁]
          exact hrequest a (mem_cons_of_mem y ha))
        (fun k a hk => by
          rw [State.Doomed, hsame a (mem_of_getElem? hk)]
          exact hkept' k a hk)
        (lt_of_succ_lt_succ hfuel)
      have hylate : y ∉ late := fun hmem => hy (h.mem y hmem)
      refine ⟨s', y :: late, hrun, ?_, ?_, ?_, ?_, ?_, ?_, ?_, ?_⟩
      · rw [h.head, ← hs₁]
      · rw [h.allocated, ← hs₁]
      · rw [h.rt_ifp, ← hs₁]
      · rw [h.called, ← hs₁]
      · have hbufs : late.map (fun a => (s₁.queue a).buf) = late.map fun a => (s.queue a).buf :=
          map_congr_left fun a ha => by rw [hsame a (h.mem a ha)]
        rw [h.due, hbufs, ← hs₁, map_cons, append_assoc]
        rfl
      · intro a ha
        rcases mem_cons.1 ha with rfl | ha
        · exact mem_cons_self
        · exact mem_cons_of_mem y (h.mem a ha)
      · intro a ha
        obtain ⟨hne, hnot⟩ := not_or.1 (mt mem_cons.2 ha)
        rw [h.other a hnot, hqueue a hne]
      · intro a ha
        rcases mem_cons.1 ha with rfl | ha
        · exact ⟨Int.not_lt.1 hfew, clock i, by rw [h.other a hylate, hself]⟩
        · have hagain := h.again a ha
          rw [hsame a (h.mem a ha)] at hagain
          exact hagain
    · rw [if_neg hlate]
      obtain ⟨s', late, hrun, h⟩ := @runLoop_rest clock ys fuel (i + 1) (s.queue y).next s hrest
        hys (fun a ha => halloc a (mem_cons_of_mem y ha))
        (fun a ha => hrequest a (mem_cons_of_mem y ha)) hkept'
        (lt_of_succ_lt_succ hfuel)
      exact ⟨s', late, hrun, h.head, h.allocated, h.rt_ifp, h.called, h.due,
        fun a ha => mem_cons_of_mem y (h.mem a ha), h.other, h.again⟩

/-- A run of the timer over the part `ys` of the queue frees its first entries `gone`, of which those
that wait are called back, and leaves `rest`. -/
structure Ran (s s' : State) (ys gone rest late : List Nat) : Prop where
  split : ys = gone ++ rest
  chain : Leads (fun aqe => (s'.queue aqe).next) s'.arp_lookup_q rest none
  allocated : s'.allocated.Perm rest
  rt_ifp : s'.rt_ifp = s.rt_ifp
  called : s'.called = s.called ++ (gone.filter fun a => s.Waiting a).map (failCall s)
  due : s'.due = s.due ++ late.map fun a => (s.queue a).buf
  mem : ∀ a ∈ late, a ∈ ys ∧ s.Waiting a
  other : ∀ a ∈ rest, a ∉ late → s'.queue a = s.queue a
  again : ∀ a ∈ rest, a ∈ late → (s.queue a).attempts ≤ arp_maxtries ∧
    ∃ now, s'.queue a = (s.queue a).again now

/-- The rest of a run after its first entry has been freed in a state that agrees on the others. -/
theorem Ran.cons {s₁ : State} {y : Nat} (h : Ran s₁ s' ys gone rest late)
    (hsame : ∀ a ∈ ys, s₁.queue a = s.queue a) (hifp : s₁.rt_ifp = s.rt_ifp) {l : List Nat}
    (hcalled : s₁.called = s.called ++ (if s.Waiting y then [failCall s y] else []))
    (hdue : s₁.due = s.due ++ l.map fun a => (s.queue a).buf)
    (hfirst : ∀ a ∈ l, a = y ∧ s.Waiting a) (hy : y ∉ ys) :
    Ran s s' (y :: ys) (y :: gone) rest (l ++ late) := by
  have hgone : ∀ a ∈ gone, a ∈ ys := fun a ha => h.split ▸ mem_append_left _ ha
  have hrest : ∀ a ∈ rest, a ∈ ys := fun a ha => h.split ▸ mem_append_right _ ha
  have hnotFirst : ∀ a ∈ rest, a ∉ l := fun a ha hmem => hy ((hfirst a hmem).1 ▸ hrest a ha)
  refine ⟨by rw [h.split, cons_append], h.chain, h.allocated, h.rt_ifp.trans hifp, ?_, ?_,
    fun a ha => ?_, fun a ha hnot => ?_, fun a ha hmem => ?_⟩
  · have hfilter : (gone.filter fun a => decide (s₁.Waiting a)) =
        gone.filter fun a => decide (s.Waiting a) := by
      refine filter_congr fun a ha => decide_eq_decide.2 ?_
      rw [State.Waiting, State.Waiting, hsame a (hgone a ha)]
    have hmap : (gone.filter fun a => decide (s.Waiting a)).map (failCall s₁) =
        (gone.filter fun a => decide (s.Waiting a)).map (failCall s) :=
      map_congr_left fun a ha => by
        rw [failCall, failCall, hsame a (hgone a (mem_of_mem_filter ha))]
    rw [h.called, hcalled, hfilter, hmap, append_assoc, filter_cons]
    by_cases hwaiting : s.Waiting y
    · rw [if_pos hwaiting, if_pos (decide_eq_true hwaiting)]
      rfl
    · rw [if_neg hwaiting, if_neg (by simpa using hwaiting)]
      rfl
  · have hmap : late.map (fun a => (s₁.queue a).buf) = late.map fun a => (s.queue a).buf :=
      map_congr_left fun a ha => by rw [hsame a (h.mem a ha).1]
    rw [h.due, hdue, hmap, map_append, append_assoc]
  · rcases mem_append.1 ha with ha | ha
    · obtain ⟨rfl, hwaiting⟩ := hfirst a ha
      exact ⟨mem_cons_self, hwaiting⟩
    · obtain ⟨hmem, hwaiting⟩ := h.mem a ha
      rw [State.Waiting, hsame a hmem] at hwaiting
      exact ⟨mem_cons_of_mem y hmem, hwaiting⟩
  · rw [h.other a ha fun hmem => hnot (mem_append_right _ hmem), hsame a (hrest a ha)]
  · have hlate : a ∈ late := (mem_append.1 hmem).resolve_left (hnotFirst a ha)
    have hagain := h.again a ha hlate
    rw [hsame a (hrest a ha)] at hagain
    exact hagain

theorem runLoop_spec (clock : Nat → Nat) : ∀ (ys : List Nat) {fuel i : Nat} {s : State},
    Leads (fun aqe => (s.queue aqe).next) s.arp_lookup_q ys none → ys.Nodup → s.allocated.Perm ys →
    (∀ a ∈ ys, s.Waiting a ∨ (s.queue a).status = ARP_COMPLETE) →
    (∀ a ∈ ys, s.rt_ifp (s.queue a).rt ≠ none ∧ (s.queue a).sin_family = AF_INET) →
    (∀ j k a b, j < k → ys[j]? = some a → ys[k]? = some b → s.Doomed b (clock (i + k)) →
      s.Doomed a (clock (i + j))) → ys.length < fuel →
    ∃ s' gone rest late, State.runLoop clock fuel i s.arp_lookup_q s = some s' ∧
      Ran s s' ys gone rest late
  | [], fuel, i, s, hleads, _, halloc, _, _, _, hfuel => by
    obtain ⟨fuel, rfl⟩ := exists_eq_succ_of_ne_zero (ne_of_gt hfuel)
    refine ⟨s, [], [], [], ?_, rfl, hleads, halloc, rfl, (append_nil _).symm,
      (append_nil _).symm, nofun, nofun, nofun⟩
    rw [show s.arp_lookup_q = none from hleads]
    rfl
  | y :: ys, fuel, i, s, hleads, hnodup, halloc, hstatus, hrequest, hdoomed, hfuel => by
    have hchain := hleads
    obtain ⟨hhead, hrest⟩ := hleads
    obtain ⟨hy, hys⟩ := nodup_cons.1 hnodup
    by_cases hdoom : s.Doomed y (clock i)
    · -- the entry is freed
      obtain ⟨fuel, rfl⟩ := exists_eq_succ_of_ne_zero (ne_of_gt (zero_lt_of_lt hfuel))
      have hdoomed' : ∀ j k a b, j < k → ys[j]? = some a → ys[k]? = some b →
          s.Doomed b (clock (i + 1 + k)) → s.Doomed a (clock (i + 1 + j)) := by
        intro j k a b hjk hj hk
        rw [add_assoc, add_comm 1 k, add_assoc, add_comm 1 j]
        exact hdoomed (j + 1) (k + 1) a b (succ_lt_succ hjk) hj hk
      -- both ways to free it lead to a state that agrees on the other entries
      have hfree : ∀ s₁ : State, (∀ a ∈ ys, s₁.queue a = s.queue a) → s₁.rt_ifp = s.rt_ifp →
          s₁.arp_lookup_q = (s.queue y).next → s₁.allocated = s.allocated.erase y →
          ∃ s' gone rest late, State.runLoop clock fuel (i + 1) (s.queue y).next s₁ = some s' ∧
              Ran s₁ s' ys gone rest late := by
        intro s₁ hsame hifp hhead₁ halloc₁
        have hrun := @runLoop_spec clock ys fuel (i + 1) s₁
          (by rw [hhead₁]; exact hrest.congr fun a ha => by rw [hsame a ha]) hys
          (by
            rw [halloc₁]
            have herase := halloc.erase y
            rw [erase_cons_head] at herase
            exact herase)
          (fun a ha => by
            rw [State.Waiting, hsame a ha]
            exact hstatus a (mem_cons_of_mem y ha))
          (fun a ha => by
            rw [hsame a ha, hifp]
            exact hrequest a (mem_cons_of_mem y ha))
          (fun j k a b hjk hj hk => by
            rw [State.Doomed, State.Doomed, hsame a (mem_of_getElem? hj),
              hsame b (mem_of_getElem? hk)]
            exact hdoomed' j k a b hjk hj hk)
          (lt_of_succ_lt_succ hfuel)
        rw [hhead₁] at hrun
        exact hrun
      rw [hhead, State.runLoop, if_neg (not_not.2 (halloc.mem_iff.2 mem_cons_self))]
      by_cases hcomplete : (s.queue y).status = ARP_COMPLETE
      · rw [if_pos hcomplete]
        obtain ⟨s', gone, rest, late, hrun, h⟩ := hfree (s.remove y) (fun _ _ => rfl) rfl
          (by rw [State.remove, if_pos hhead]) rfl
        have hnot : ¬s.Waiting y := by
          rw [State.Waiting, hcomplete]
          decide
        refine ⟨s', y :: gone, rest, [] ++ late, hrun,
          h.cons (s := s) (l := []) (fun _ _ => rfl) rfl ?_ ?_ (fun a ha => nomatch ha) hy⟩
        · rw [if_neg hnot, append_nil]
          rfl
        · exact (append_nil _).symm
      · obtain ⟨hlate, hmany⟩ := hdoom.resolve_left hcomplete
        have hwaiting : s.Waiting y := (hstatus y mem_cons_self).resolve_right hcomplete
        rw [if_neg hcomplete, if_pos hlate]
        simp only [if_pos hmany]
        have hqueue : ∀ a, a ≠ y → (s.retry y).queue a = s.queue a := fun a hne => by
          rw [retry_queue, if_neg hne]
        have hsame : ∀ a ∈ ys, (((s.retry y).callback y .ARP_LOOKUP_FAILED).remove y).queue a =
            s.queue a := fun a ha => hqueue a fun heq => hy (heq ▸ ha)
        have hself : (s.retry y).queue y =
            { s.queue y with attempts := incr (s.queue y).attempts } := by
          rw [retry_queue, if_pos rfl]
        have hhead₁ : (((s.retry y).callback y .ARP_LOOKUP_FAILED).remove y).arp_lookup_q =
            (s.queue y).next := by
          rw [State.remove]
          show (if s.arp_lookup_q = some y then ((s.retry y).queue y).next else _) = _
          rw [if_pos hhead, hself]
        obtain ⟨s', gone, rest, late, hrun, h⟩ := hfree
          (((s.retry y).callback y .ARP_LOOKUP_FAILED).remove y) hsame rfl hhead₁ rfl
        refine ⟨s', y :: gone, rest, [y] ++ late, hrun, h.cons hsame rfl ?_ rfl ?_ hy⟩
        · rw [if_pos hwaiting, failCall]
          show s.called ++ [⟨((s.retry y).queue y).callback, _, ((s.retry y).queue y).buf⟩] = _
          rw [hself]
        · intro a ha
          rw [mem_singleton.1 ha]
          exact ⟨rfl, hwaiting⟩
    · -- no entry is freed any more
      have hkept : ∀ k a, (y :: ys)[k]? = some a → ¬s.Doomed a (clock (i + k)) := by
        intro k a hk hdoomed'
        cases k with
        | zero =>
          obtain rfl : y = a := Option.some.inj hk
          exact hdoom hdoomed'
        | succ k => exact hdoom (hdoomed 0 (k + 1) y a (zero_lt_succ k) rfl hk hdoomed')
      have hwaiting : ∀ a ∈ y :: ys, s.Waiting a := by
        intro a ha
        obtain ⟨k, hk⟩ := mem_iff_getElem?.1 ha
        exact (hstatus a ha).resolve_right fun hcomplete => hkept k a hk (.inl hcomplete)
      obtain ⟨s', late, hrun, h⟩ := runLoop_rest clock (y :: ys) hchain hnodup
        (fun a ha => halloc.mem_iff.2 ha) hrequest hkept hfuel
      refine ⟨s', [], y :: ys, late, hrun, rfl, ?_, h.allocated ▸ halloc, h.rt_ifp, ?_, h.due,
        fun a ha => ⟨h.mem a ha, hwaiting a (h.mem a ha)⟩, fun a _ hnot => h.other a hnot,
        fun a _ ha => h.again a ha⟩
      · rw [h.head]
        refine hchain.congr fun a ha => ?_
        by_cases hlate : a ∈ late
        · obtain ⟨-, now, hagain⟩ := h.again a hlate
          rw [hagain]
          rfl
        · rw [h.other a hlate]
      · rw [h.called]
        exact (append_nil _).symm

theorem Queue.length_lt_fuel (h : Queue s order) : order.length < s.fuel := by
  rw [State.fuel, h.allocated.length_eq]
  exact lt_succ_self _

theorem Queue.follow (h : Queue s order) (i : Nat) : s.follow i = order[i]? := h.chain.follow i

/-- The effect of a run. -/
theorem run_effect (h : Queue s order) (hcalled : s.called = []) (hdue : s.due = [])
    {clock : Nat → Nat} (hright : QueueRight s (.run clock)) :
    ∃ s' order' answered late, s.arpq_run clock = some s' ∧
      Effect s s' order order' .ARP_LOOKUP_FAILED answered late fun _ => False := by
  have hdoomed : ∀ j k a b, j < k → order[j]? = some a → order[k]? = some b →
      s.Doomed b (clock (0 + k)) → s.Doomed a (clock (0 + j)) := by
    intro j k a b hjk hj hk
    rw [zero_add, zero_add]
    exact hright j k a b hjk (by rw [h.follow, hj]) (by rw [h.follow, hk])
  obtain ⟨s', gone, rest, late, hrun, hran⟩ := runLoop_spec clock order h.chain h.nodup h.allocated
    h.status h.request hdoomed h.length_lt_fuel
  have hsub : ∀ a ∈ rest, a ∈ order := fun a ha => hran.split ▸ mem_append_right _ ha
  have hnodup : (gone ++ rest).Nodup := hran.split ▸ h.nodup
  have hfields : ∀ a ∈ rest, (s'.queue a).rt = (s.queue a).rt ∧
      (s'.queue a).sin_family = (s.queue a).sin_family ∧ SamePacket (s.queue a) (s'.queue a) ∧
      (a ∈ late → (s.queue a).attempts ≤ arp_maxtries ∧ s'.Waiting a ∧
        (s'.queue a).attempts = incr (incr (s.queue a).attempts)) ∧
      (a ∉ late → s'.queue a = s.queue a) := by
    intro a ha
    by_cases hlate : a ∈ late
    · obtain ⟨hfew, now, hagain⟩ := hran.again a ha hlate
      rw [State.Waiting, hagain]
      exact ⟨rfl, rfl, ⟨rfl, rfl, rfl⟩, fun _ => ⟨hfew, rfl, rfl⟩, fun hnot => absurd hlate hnot⟩
    · have hsame := hran.other a ha hlate
      rw [hsame]
      exact ⟨rfl, rfl, .refl _, fun hmem => absurd hmem hlate, fun _ => rfl⟩
  refine ⟨s', rest, gone.filter fun a => s.Waiting a, late, hrun,
    ⟨hran.chain, (nodup_append.1 hnodup).2.1, hran.allocated, fun a ha => ?_, fun a ha => ?_,
      fun a ha b hb hsame => ?_⟩, fun a ha => ?_, ((nodup_append.1 hnodup).1.filter _), ?_, ?_,
    hran.mem, fun a ha hwaiting hnot => ?_, fun a ha hwaiting => .inl ?_⟩
  · by_cases hlate : a ∈ late
    · exact .inl ((hfields a ha).2.2.2.1 hlate).2.1
    · rw [State.Waiting, (hfields a ha).2.2.2.2 hlate]
      exact h.status a (hsub a ha)
  · rw [hran.rt_ifp, (hfields a ha).1, (hfields a ha).2.1]
    exact h.request a (hsub a ha)
  · rw [(hfields a ha).2.2.1.sin_addr, (hfields b hb).2.2.1.sin_addr] at hsame
    exact h.address a (hsub a ha) b (hsub b hb) hsame
  · obtain ⟨hmem, hwaiting⟩ := mem_filter.1 ha
    exact ⟨hran.split ▸ mem_append_left _ hmem, of_decide_eq_true hwaiting⟩
  · rw [hran.called, hcalled]
    rfl
  · rw [hran.due, hdue]
    rfl
  · have hrest : a ∈ rest := by
      rw [hran.split] at ha
      refine (mem_append.1 ha).resolve_left fun hgone => hnot ?_
      exact mem_filter.2 ⟨hgone, decide_eq_true hwaiting⟩
    obtain ⟨-, -, hsame, hlate, hother⟩ := hfields a hrest
    by_cases hmem : a ∈ late
    · obtain ⟨hfew, hwaits, htries⟩ := hlate hmem
      rw [if_pos hmem]
      refine ⟨hrest, hwaits, hsame, hfew, ?_⟩
      rw [htries, incr, incr]
      simp only [arp_maxtries] at hfew
      split <;> split <;> omega
    · rw [State.Waiting, hother hmem, if_neg hmem]
      exact ⟨hrest, hwaiting, .refl _, rfl⟩
  · have hnotGone : a ∉ gone := fun hgone => (nodup_append.1 hnodup).2.2 a hgone a ha rfl
    refine ⟨hsub a ha, fun hmem => hnotGone (mem_of_mem_filter hmem), ?_, (hfields a ha).2.2.1.buf⟩
    by_cases hlate : a ∈ late
    · exact (hran.mem a hlate).2
    · rw [State.Waiting, (hfields a ha).2.2.2.2 hlate] at hwaiting
      exact hwaiting

end Timer

/-! ## A lookup -/

section Lookup

variable {s : State} {order : List Nat} {a : Asked} {block now : Nat} {garbage : QEntry}

theorem findEntry_eq (s : State) (addr : Buffer) : ∀ (ys : List Nat) {fuel : Nat} {p : Option Nat},
    Leads (fun aqe => (s.queue aqe).next) p ys none → (∀ b ∈ ys, b ∈ s.allocated) →
    ys.length < fuel → s.findEntry addr fuel p = some (ys.any fun b => s.Matches addr b)
  | [], fuel, p, hleads, _, hfuel => by
    obtain ⟨fuel, rfl⟩ := exists_eq_succ_of_ne_zero (ne_of_gt hfuel)
    rw [show p = none from hleads]
    rfl
  | y :: ys, fuel, p, hleads, halloc, hfuel => by
    obtain ⟨fuel, rfl⟩ := exists_eq_succ_of_ne_zero (ne_of_gt (zero_lt_of_lt hfuel))
    obtain ⟨rfl, hrest⟩ := hleads
    have ih := @findEntry_eq s addr ys fuel (s.queue y).next hrest
      (fun b hb => halloc b (mem_cons_of_mem y hb)) (lt_of_succ_lt_succ hfuel)
    rw [State.findEntry, if_neg (not_not.2 (halloc y mem_cons_self)), any_cons]
    by_cases hmatch : s.Matches addr y
    · rw [if_pos (show SameBytes (s.queue y).sin_addr addr 4 from hmatch),
        decide_eq_true hmatch, Bool.true_or]
    · rw [if_neg (show ¬SameBytes (s.queue y).sin_addr addr 4 from hmatch),
        decide_eq_false hmatch, Bool.false_or, ih]

/-- The entry of a packet before its first request. -/
def newQEntry (s : State) (a : Asked) (garbage : QEntry) : QEntry :=
  ⟨s.arp_lookup_q, a.buf, a.rt, a.sin_family, a.sin_addr, garbage.attempts, garbage.lasttx,
    garbage.status, a.callback⟩

theorem enqueue_eq (hrequest : s.rt_ifp a.rt ≠ none ∧ a.sin_family = AF_INET) :
    ∃ reject, s.enqueue a block garbage now = { s with
        queue := update s.queue block { newQEntry s a garbage with
          status := ARP_WAITING, lasttx := now, attempts := incr garbage.attempts }
        arp_lookup_q := some block
        allocated := block :: s.allocated
        reject } := by
  generalize hs₁ : ({ s.update block fun _ => newQEntry s a garbage with
    arp_lookup_q := some block, allocated := block :: s.allocated } : State) = s₁
  have hself : s₁.queue block = newQEntry s a garbage := by
    rw [← hs₁]
    exact update_self _ _ _
  have hmade : s.enqueue a block garbage now = s₁.arp_send_request block now := by
    rw [← hs₁]
    rfl
  have hifp : ¬s₁.rt_ifp (s₁.queue block).rt = none := by
    rw [hself, ← hs₁]
    exact hrequest.1
  have hfamily : ¬(s₁.queue block).sin_family ≠ AF_INET := by
    rw [hself]
    exact not_not.2 hrequest.2
  have hupdate : (s₁.update block fun e =>
      { e with status := ARP_WAITING, lasttx := now, attempts := incr e.attempts }) =
      { s with
        queue := update s.queue block { newQEntry s a garbage with
          status := ARP_WAITING, lasttx := now, attempts := incr garbage.attempts }
        arp_lookup_q := some block
        allocated := block :: s.allocated } := by
    rw [State.update, hself, ← hs₁]
    simp only [State.update, update_idem]
    rfl
  rw [hmade, State.arp_send_request, if_neg hifp, if_neg hfamily]
  simp only [hupdate]
  exact ⟨_, rfl⟩

/-- The effect of a lookup that puts a packet into the queue. -/
theorem enqueue_effect (h : Queue s order) (hcalled : s.called = []) (hdue : s.due = [])
    (hblock : block ∉ s.allocated) (haddr : ∀ b ∈ order, ¬s.Matches a.sin_addr b)
    (hrequest : s.rt_ifp a.rt ≠ none ∧ a.sin_family = AF_INET) :
    Effect s (s.enqueue a block garbage now) order (block :: order) .ARP_LOOKUP_OK [] []
      (fun buf => buf = a.buf) ∧
    (s.enqueue a block garbage now).queue block = { newQEntry s a garbage with
      status := ARP_WAITING, lasttx := now, attempts := incr garbage.attempts } ∧
    ∀ b ∈ order, (s.enqueue a block garbage now).queue b = s.queue b := by
  obtain ⟨reject, hmade⟩ := @enqueue_eq s a block now garbage hrequest
  rw [hmade]
  generalize hs' : ({ s with
    queue := update s.queue block { newQEntry s a garbage with
      status := ARP_WAITING, lasttx := now, attempts := incr garbage.attempts }
    arp_lookup_q := some block
    allocated := block :: s.allocated
    reject := reject } : State) = s'
  have hself : s'.queue block = { newQEntry s a garbage with
      status := ARP_WAITING, lasttx := now, attempts := incr garbage.attempts } := by
    rw [← hs']
    exact update_self _ _ _
  have hnew : block ∉ order := fun hmem => hblock (h.allocated.mem_iff.2 hmem)
  have hsame : ∀ b ∈ order, s'.queue b = s.queue b := fun b hb => by
    have hne : b ≠ block := fun heq => hnew (heq ▸ hb)
    rw [← hs']
    exact update_of_ne hne _ _
  refine ⟨⟨⟨⟨?_, ?_⟩, nodup_cons.2 ⟨hnew, h.nodup⟩, ?_, ?_, ?_, ?_⟩, nofun, nodup_nil, ?_,
    ?_, nofun, fun b hb hwaiting _ => ?_, fun b hb hwaiting => ?_⟩, hself, hsame⟩
  · rw [← hs']
  · have hnext : (s'.queue block).next = s.arp_lookup_q := by rw [hself]; rfl
    show Leads _ (s'.queue block).next order none
    rw [hnext]
    exact h.chain.congr fun b hb => by rw [hsame b hb]
  · rw [← hs']
    exact h.allocated.cons block
  · intro b hb
    rcases mem_cons.1 hb with rfl | hb
    · left
      rw [State.Waiting, hself]
    · rw [State.Waiting, hsame b hb]
      exact h.status b hb
  · intro b hb
    have hifp : s'.rt_ifp = s.rt_ifp := by rw [← hs']
    rcases mem_cons.1 hb with rfl | hb
    · rw [hself, hifp]
      exact hrequest
    · rw [hsame b hb, hifp]
      exact h.request b hb
  · intro b hb c hc hbc
    rcases mem_cons.1 hb with hb | hb <;> rcases mem_cons.1 hc with hc | hc
    · rw [hb, hc]
    · rw [hb, hself, hsame c hc] at hbc
      exact absurd hbc.symm (haddr c hc)
    · rw [hc, hself, hsame b hb] at hbc
      exact absurd hbc (haddr b hb)
    · rw [hsame b hb, hsame c hc] at hbc
      exact h.address b hb c hc hbc
  · rw [← hs']
    exact hcalled
  · rw [← hs']
    exact hdue
  · rw [State.Waiting, hsame b hb, if_neg not_mem_nil]
    exact ⟨mem_cons_of_mem block hb, hwaiting, .refl _, rfl⟩
  · rcases mem_cons.1 hb with rfl | hb
    · right
      rw [hself]
      rfl
    · rw [State.Waiting, hsame b hb] at hwaiting
      exact .inl ⟨hb, nofun, hwaiting, by rw [hsame b hb]⟩

end Lookup

theorem same_effect {s s' : State} {order : List Nat} {r : Lookup} (h : Queue s order)
    (hcalled : s.called = []) (hdue : s.due = []) (hsame : ∃ cache, s' = { s with cache }) :
    Effect s s' order order r [] [] fun _ => False := by
  obtain ⟨cache, rfl⟩ := hsame
  refine ⟨⟨h.chain, h.nodup, h.allocated, h.status, h.request, h.address⟩, nofun, nodup_nil,
    hcalled, hdue, nofun, fun a ha hwaiting _ => ?_, fun a ha hwaiting => .inl ?_⟩
  · rw [if_neg not_mem_nil]
    exact ⟨ha, hwaiting, .refl _, rfl⟩
  · exact ⟨ha, nofun, hwaiting, rfl⟩

/-! ## Runs -/

/-- The part of the cache comes back, `malloc()` has a block that is not in use, and a packet is
passed once. -/
def Ready (steps : List Step) (s : State) : ArpCall → Prop
  | .request link addr now fresh | .reply link addr now fresh =>
    ∃ cache, insert_cache_entry s.cache link addr now fresh = some cache
  | .resolve a block _ _ => block ∉ s.allocated ∧
      ∀ step ∈ steps, ∀ b n, step.Queued b n → b.buf ≠ a.buf
  | .cleanse clock fuel => ∃ cache, arp_cleanse s.cache clock fuel = some cache
  | .run _ => True

/-- A state after some calls, all of which treat the packets right. -/
inductive KeptQueue : List Step → State → Prop where
  | init {s : State} : s.arp_lookup_q = none → s.allocated = [] → KeptQueue [] s
  | step {steps : List Step} {s s' : State} {call : ArpCall} {step : Step} : KeptQueue steps s →
      QueueRight s call → Ready steps s call → s.step call = some (s', step) →
      KeptQueue (steps ++ [step]) s'

theorem Settled.reset {s : State} {order : List Nat} {a : Asked} {n : Int} {steps : List Step}
    (h : Settled s order a n steps) :
    Settled { s with called := [], due := [] } order a n steps := by
  rcases h with ⟨hfate, aqe, h⟩ | h
  · exact .inl ⟨hfate, aqe, h.mem, h.waiting, h.buf, h.callback, h.sin_addr, h.only, h.tries,
      h.bound⟩
  · exact .inr h

/-- The queue is right, every packet that was put into it is settled, and what waits in it was put
into it. -/
structure QueueInv (steps : List Step) (s : State) (order : List Nat) : Prop where
  queue : Queue s order
  settled : ∀ before step after a n, steps = before ++ step :: after → step.Queued a n →
    Settled s order a n after
  asked : ∀ e ∈ order, s.Waiting e → ∃ step ∈ steps, ∃ a n, step.Queued a n ∧
    a.buf = (s.queue e).buf

section Runs

variable {steps : List Step} {s s' : State} {order order' answered late : List Nat}
  {result : Lookup} {New : Nat → Prop} {t : Step}

/-- The invariant behind a call. -/
theorem QueueInv.effect (h : QueueInv steps s order)
    (heffect : Effect { s with called := [], due := [] } s' order order' result answered late New)
    (hstep : t.called = s'.called ∧ t.due = s'.due)
    (hanswer : ∀ e ∈ answered, t.ReplyFrom (s.queue e).sin_addr ∧ result = .ARP_LOOKUP_OK ∨
      t.IsRun ∧ result = .ARP_LOOKUP_FAILED)
    (hreply : ∀ e ∈ order, s.Waiting e → t.ReplyFrom (s.queue e).sin_addr → e ∈ answered)
    (hnew : ∀ old ∈ steps, ∀ a n, old.Queued a n → ¬New a.buf)
    (hqueued : ∀ a n, t.Queued a n → Settled s' order' a n [])
    (hnewAsked : ∀ buf, New buf → ∃ a n, t.Queued a n ∧ a.buf = buf) :
    QueueInv (steps ++ [t]) s' order' := by
  refine ⟨heffect.queue, fun before old after a n heq hold => ?_, fun e he hwaiting => ?_⟩
  · rcases eq_nil_or_concat after with rfl | ⟨after, last, rfl⟩
    · -- the packet has just been put into the queue
      obtain ⟨-, hlast⟩ := append_inj' heq rfl
      obtain rfl : t = old := singleton_inj.1 hlast
      exact hqueued a n hold
    · rw [concat_eq_append] at heq ⊢
      rw [← cons_append, ← append_assoc] at heq
      obtain ⟨hinit, hlast⟩ := append_inj' heq rfl
      obtain rfl : t = last := singleton_inj.1 hlast
      have hmem : old ∈ steps := by
        rw [hinit]
        exact mem_append_right _ mem_cons_self
      exact heffect.settled hstep hanswer hreply (hnew old hmem a n hold)
        (h.settled before old after a n hinit hold).reset
  · rcases heffect.waited e he hwaiting with ⟨he, -, hwaited, hbuf⟩ | hnewBuf
    · obtain ⟨old, hmem, a, n, hold, heq⟩ := h.asked e he hwaited
      exact ⟨old, mem_append_left _ hmem, a, n, hold, heq.trans hbuf.symm⟩
    · obtain ⟨a, n, hst, heq⟩ := hnewAsked _ hnewBuf
      exact ⟨t, mem_append_right _ (mem_singleton_self t), a, n, hst, heq⟩

theorem QueueInv.same (h : QueueInv steps s order) {c : Cache}
    (hstep : t.called = [] ∧ t.due = []) (hreply : ∀ addr, ¬t.ReplyFrom addr)
    (hqueued : ∀ a n, ¬t.Queued a n) :
    QueueInv (steps ++ [t]) { s with called := [], due := [], cache := c } order := by
  have hqueue : Queue { s with called := [], due := [] } order :=
    ⟨h.queue.chain, h.queue.nodup, h.queue.allocated, h.queue.status, h.queue.request,
      h.queue.address⟩
  refine h.effect (same_effect (r := .ARP_LOOKUP_OK) hqueue rfl rfl ⟨c, rfl⟩) hstep nofun
    (fun e _ _ hfrom => absurd hfrom (hreply _)) (fun _ _ _ _ _ => not_false) ?_ nofun
  exact fun a n hst => absurd hst (hqueued a n)

/-- **Every call that treats the packets right comes back, and the queue is right behind it.** -/
theorem QueueInv.call (h : QueueInv steps s order) {call : ArpCall} (hright : QueueRight s call)
    (hready : Ready steps s call) :
    ∃ s' step order', s.step call = some (s', step) ∧ QueueInv (steps ++ [step]) s' order' := by
  have hqueue : Queue { s with called := [], due := [] } order :=
    ⟨h.queue.chain, h.queue.nodup, h.queue.allocated, h.queue.status, h.queue.request,
      h.queue.address⟩
  cases call with
  | request link addr now fresh =>
    obtain ⟨cache, hcache⟩ := hready
    refine ⟨_, _, order, ?_, h.same (c := cache)
      (t := ⟨.request link addr now fresh, none, [], []⟩) ⟨rfl, rfl⟩ ?_ ?_⟩
    · simp only [State.step, State.apply, hcache, bind_eq_bind, bind_some]
    · rintro _ ⟨_, _, _, _, hcall, -⟩
      cases hcall
    · rintro _ _ ⟨_, _, _, hcall, -⟩
      cases hcall
  | cleanse clock fuel =>
    obtain ⟨cache, hcache⟩ := hready
    refine ⟨_, _, order, ?_, h.same (c := cache)
      (t := ⟨.cleanse clock fuel, none, [], []⟩) ⟨rfl, rfl⟩ ?_ ?_⟩
    · simp only [State.step, State.apply, hcache, bind_eq_bind, bind_some]
    · rintro _ ⟨_, _, _, _, hcall, -⟩
      cases hcall
    · rintro _ _ ⟨_, _, _, hcall, -⟩
      cases hcall
  | run clock =>
    obtain ⟨s', order', answered, late, hrun, heffect⟩ := run_effect hqueue rfl rfl hright
    refine ⟨s', ⟨.run clock, none, s'.called, s'.due⟩, order', ?_, h.effect heffect ⟨rfl, rfl⟩
      (fun e _ => .inr ⟨⟨clock, rfl⟩, rfl⟩) ?_ (fun _ _ _ _ _ => not_false) ?_ nofun⟩
    · simp only [State.step, State.apply, hrun, bind_eq_bind, bind_some]
    · rintro e _ _ ⟨_, _, _, _, hcall, -⟩
      cases hcall
    · rintro _ _ ⟨_, _, _, hcall, -⟩
      cases hcall
  | reply link addr now fresh =>
    obtain ⟨cache, hcache⟩ := hready
    have hnone : ∀ a n st, st.call = .reply link addr now fresh → ¬Step.Queued st a n := by
      rintro a n st hcall ⟨_, _, _, hcall', -⟩
      cases hcall.symm.trans hcall'
    -- the packets that wait for this reply
    have hwaited : ∀ e ∈ order, s.Waiting e → s.Matches addr e →
        nhash_get s.cache.arphash s.cache.key addr 4 = none ∧ e ∈ s.replied addr order := by
      intro e he hwaiting hmatch
      obtain ⟨i, hi⟩ := mem_iff_getElem?.1 he
      obtain ⟨hget, hfront⟩ := hright i e (by rw [h.queue.follow, hi]) hwaiting hmatch
      exact ⟨hget, mem_replied hi hwaiting hmatch fun j b hj hb =>
        hfront j b hj (by rw [h.queue.follow, hb])⟩
    have hfrom : ∀ e st, st.call = .reply link addr now fresh →
        Step.ReplyFrom st (s.queue e).sin_addr → s.Matches addr e := by
      rintro e st hcall ⟨_, _, _, _, hcall', hsame⟩
      obtain ⟨rfl, rfl, rfl, rfl⟩ := ArpCall.reply.inj (hcall.symm.trans hcall')
      exact hsame.symm
    cases hget : nhash_get s.cache.arphash s.cache.key addr 4 with
    | some ace =>
      refine ⟨_, ⟨.reply link addr now fresh, none, [], []⟩, order, ?_, h.effect
        (same_effect (r := .ARP_LOOKUP_OK) hqueue rfl rfl ⟨cache, rfl⟩) ⟨rfl, rfl⟩ nofun
        (fun e he hwaiting hreply => ?_) (fun _ _ _ _ _ => not_false)
        (fun a n hst => absurd hst (hnone a n _ rfl)) nofun⟩
      · simp only [State.step, State.apply, State.reply, hcache, hget, bind_eq_bind,
          bind_some, Option.isNone_some, Bool.false_eq_true, if_false]
      · have hnot := (hwaited e he hwaiting (hfrom e _ rfl hreply)).1
        cases hget.symm.trans hnot
    | none =>
      have hqueue' : Queue { s with called := [], due := [], cache } order :=
        ⟨h.queue.chain, h.queue.nodup, h.queue.allocated, h.queue.status, h.queue.request,
          h.queue.address⟩
      obtain ⟨s', hscan, heffect⟩ := @scan_effect _ order addr hqueue' rfl rfl
      have heffect' : Effect { s with called := [], due := [] } s' order order .ARP_LOOKUP_OK
          (s.replied addr order) [] fun _ => False :=
        ⟨heffect.queue, heffect.waiting, heffect.nodup, heffect.called, heffect.due,
          heffect.lateWaiting, heffect.stays, heffect.waited⟩
      refine ⟨s', ⟨.reply link addr now fresh, none, s'.called, s'.due⟩, order, ?_, h.effect
        heffect' ⟨rfl, rfl⟩ (fun e he => .inl ⟨?_, rfl⟩)
        (fun e he hwaiting hreply => (hwaited e he hwaiting (hfrom e _ rfl hreply)).2)
        (fun _ _ _ _ _ => not_false) (fun a n hst => absurd hst (hnone a n _ rfl)) nofun⟩
      · simp only [State.step, State.apply, State.reply, hcache, hget, bind_eq_bind,
          bind_some, Option.isNone_none, if_true, hscan]
      · exact ⟨link, addr, now, fresh, rfl, (replied_waiting he).2.2.symm⟩
  | resolve a block garbage now =>
    obtain ⟨hblock, hfresh⟩ := hready
    have hnoReply : ∀ addr st, st.call = .resolve a block garbage now →
        ¬Step.ReplyFrom st addr := by
      rintro addr st hcall ⟨_, _, _, _, hcall', -⟩
      cases hcall.symm.trans hcall'
    cases hget : nhash_get s.cache.arphash s.cache.key a.sin_addr 4 with
    | some ace =>
      refine ⟨_, ⟨.resolve a block garbage now, some .ARP_LOOKUP_OK, [], []⟩, order, ?_,
        h.same (c := (arp_resolve s.cache a.sin_addr now).1) ⟨rfl, rfl⟩
          (fun addr => hnoReply addr _ rfl) ?_⟩
      · simp only [State.step, State.apply, State.resolve, arp_resolve, hget,
          bind_eq_bind, bind_some]
      · rintro _ _ ⟨_, _, _, -, hresult, -⟩
        cases hresult
    | none =>
      obtain ⟨hnotFound, hrequest⟩ := hright hget
      have hnoEntry : ∀ b ∈ order, ¬s.Matches a.sin_addr b := by
        intro b hb
        obtain ⟨i, hi⟩ := mem_iff_getElem?.1 hb
        exact hnotFound i b (by rw [h.queue.follow, hi])
      obtain ⟨heffect, hself, hsame⟩ := @enqueue_effect { s with called := [], due := [] } order
        a block now garbage hqueue rfl rfl hblock hnoEntry hrequest
      have hfind : State.findEntry { s with called := [], due := [] } a.sin_addr
          (State.fuel { s with called := [], due := [] }) s.arp_lookup_q = some false := by
        rw [findEntry_eq _ a.sin_addr order hqueue.chain
          (fun b hb => hqueue.allocated.mem_iff.2 hb) hqueue.length_lt_fuel]
        refine congrArg some (any_eq_false.2 fun b hb => ?_)
        rw [decide_eq_true_eq]
        exact hnoEntry b hb
      generalize hs' : State.enqueue { s with called := [], due := [] } a block garbage now = s'
        at heffect hself hsame
      have hresult : ∀ st : Step, st.call = .resolve a block garbage now → ∀ b n,
          st.Queued b n → b = a ∧ n = garbage.attempts := by
        rintro st hcall b n ⟨_, _, _, hcall', -, rfl⟩
        obtain ⟨rfl, rfl, rfl, rfl⟩ := ArpCall.resolve.inj (hcall.symm.trans hcall')
        exact ⟨rfl, rfl⟩
      refine ⟨s', ⟨.resolve a block garbage now, some .ARP_LOOKUP_QUEUED, s'.called, s'.due⟩,
        block :: order, ?_, h.effect heffect ⟨rfl, rfl⟩ nofun
        (fun e _ _ hfrom => absurd hfrom (hnoReply _ _ rfl))
        (fun st hst b n hqueued => hfresh st hst b n hqueued) (fun b n hqueued => ?_)
        fun buf hbuf => ⟨a, garbage.attempts, ⟨block, garbage, now, rfl, rfl, rfl⟩, hbuf.symm⟩⟩
      · simp only [State.step, State.apply, State.resolve, arp_resolve, hget,
          bind_eq_bind, bind_some, hfind, Bool.false_eq_true, if_false, hs']
      · obtain ⟨rfl, rfl⟩ := hresult _ rfl b n hqueued
        refine .inl ⟨.queued, block, mem_cons_self, ?_, ?_, ?_, ?_, ?_, ?_, .inl rfl⟩
        · rw [State.Waiting, hself]
        · rw [hself]
          rfl
        · rw [hself]
          rfl
        · rw [hself]
          rfl
        · intro e he hwaiting hbuf
          rcases mem_cons.1 he with rfl | he
          · rfl
          · -- an older entry would be that of another packet
            rw [State.Waiting, hsame e he] at hwaiting
            rw [hsame e he] at hbuf
            obtain ⟨st, hst, c, m, hqueued', hbuf'⟩ := h.asked e he hwaiting
            exact absurd (hbuf'.trans hbuf) (hfresh st hst c m hqueued')
        · rw [hself]
          exact (Int.add_zero _).symm

/-- **The queue is right after every such run.** -/
theorem KeptQueue.inv (run : KeptQueue steps s) : ∃ order, QueueInv steps s order := by
  induction run with
  | @init s hhead halloc =>
    refine ⟨[], ⟨hhead, nodup_nil, halloc ▸ List.Perm.refl [], nofun, nofun, nofun⟩, ?_, nofun⟩
    intro before step after a n heq
    exact absurd heq.symm (append_ne_nil_of_right_ne_nil _ (cons_ne_nil _ _))
  | step _ hright hready hcall ih =>
    obtain ⟨order, h⟩ := ih
    obtain ⟨s', step, order', hcall', h'⟩ := h.call hright hready
    cases hcall.symm.trans hcall'
    exact ⟨order', h'⟩

/-- In every state of a run the queue leads through the entries that are allocated. A packet that was
told to wait is in the queue until the first reply from its address comes or the timer gives up, and
is called back once then; its last request is found to be too long ago at most as often as the number
of attempts allows. The next call that treats the packets right comes back. -/
theorem arp_queue_runs (run : KeptQueue steps s) :
    (∃ order, Leads (fun aqe => (s.queue aqe).next) s.arp_lookup_q order none ∧
      s.allocated.Perm order ∧ order.Nodup ∧
      ∀ before step after a attempts, steps = before ++ step :: after → step.Queued a attempts →
        (Fate a after none ∧ (timesLate a after = 0 ∨ incr attempts + 2 * timesLate a after ≤ 7) ∧
          ∃ aqe ∈ order, (s.queue aqe).status = ARP_WAITING ∧ (s.queue aqe).buf = a.buf) ∨
        ∃ result, Fate a after (some result)) ∧
    ∀ call, QueueRight s call → Ready steps s call → ∃ s' step, s.step call = some (s', step) := by
  obtain ⟨order, h⟩ := run.inv
  refine ⟨⟨order, h.queue.chain, h.queue.allocated, h.queue.nodup, ?_⟩, fun call hright hready => ?_⟩
  · intro before step after a attempts heq hqueued
    rcases h.settled before step after a attempts heq hqueued with ⟨hfate, aqe, hw⟩ | ⟨hfate, -⟩
    · exact .inl ⟨hfate, hw.bound, aqe, hw.mem, hw.waiting, hw.buf⟩
    · exact .inr hfate
  · obtain ⟨s', step, _, hcall, -⟩ := h.call hright hready
    exact ⟨s', step, hcall⟩

end Runs

/-! ## Examples of runs -/

def noEntry : QEntry := ⟨none, 0, 0, 0, fun _ => 0, 0, 0, 0, 0⟩

/-- Nothing waits, and there is an interface. -/
def idle : State := ⟨.empty, fun _ => noEntry, none, [], fun _ => some 0, fun _ => false, [], []⟩

def State.runCalls (s : State) : List ArpCall → Option (State × List Step)
  | [] => some (s, [])
  | call :: calls => do
    let (s, step) ← s.step call
    let (s, steps) ← s.runCalls calls
    some (s, step :: steps)

/-- Two packets for one address, and one for another. -/
def firstPacket : Asked := ⟨7, 0, AF_INET, firstSender, 1⟩
def samePacket : Asked := ⟨8, 0, AF_INET, firstSender, 2⟩
def otherPacket : Asked := ⟨9, 0, AF_INET, secondSender, 3⟩

def lookUpFirst : ArpCall := .resolve firstPacket 0 noEntry 100
def firstReply : ArpCall := .reply oldLink firstSender 101 0

theorem step_call {s s' : State} {call : ArpCall} {step : Step}
    (h : s.step call = some (s', step)) : step.call = call := by
  unfold State.step at h
  obtain ⟨⟨_, _⟩, -, h⟩ := Option.bind_eq_some_iff.1 h
  rw [← (Prod.mk.inj (Option.some.inj h)).2]

theorem not_fate_nil {a : Asked} {result : Lookup} : ¬Fate a [] (some result) := by
  intro h
  generalize hnil : ([] : List Step) = l at h
  cases h <;> exact absurd hnil.symm (append_ne_nil_of_right_ne_nil _ (cons_ne_nil _ _))

theorem Fate.reply {a : Asked} {step : Step} {r : Option Lookup} (h : Fate a [step] r)
    (hfrom : step.ReplyFrom a.sin_addr) (hrun : ¬step.IsRun) :
    step.calledFor a.buf = [⟨a.callback, .ARP_LOOKUP_OK, a.buf⟩] := by
  generalize hone : [step] = l at h
  cases h with
  | queued => cases hone
  | waits _ hnot _ =>
    obtain ⟨-, hlast⟩ := append_inj' (show [] ++ [step] = _ from hone) rfl
    exact absurd (singleton_inj.1 hlast ▸ hfrom) hnot
  | answered _ _ hcalled =>
    obtain ⟨-, hlast⟩ := append_inj' (show [] ++ [step] = _ from hone) rfl
    rw [singleton_inj.1 hlast]
    exact hcalled
  | failed _ hfailed _ =>
    obtain ⟨-, hlast⟩ := append_inj' (show [] ++ [step] = _ from hone) rfl
    exact absurd (singleton_inj.1 hlast ▸ hfailed) hrun
  | settled hover _ =>
    obtain ⟨hnil, -⟩ := append_inj' (show [] ++ [step] = _ from hone) rfl
    exact absurd (hnil ▸ hover) not_fate_nil

/-- The packet is called back when the reply comes. -/
theorem arp_queue_runs_one : ∃ s queued replied, idle.runCalls [lookUpFirst, firstReply] =
    some (s, [queued, replied]) ∧ replied.calledFor 7 = [⟨1, .ARP_LOOKUP_OK, 7⟩] := by
  have hfirst : KeptQueue ([] ++ [⟨lookUpFirst, some .ARP_LOOKUP_QUEUED, [], []⟩])
      (idle.enqueue firstPacket 0 noEntry 100) := by
    have hright : QueueRight idle lookUpFirst := by
      refine fun _ => ⟨fun i b hb => ?_, nofun, rfl⟩
      cases (Chain.follow_none _ i).symm.trans hb
    exact .step (.init rfl rfl) hright ⟨nofun, nofun⟩ rfl
  have hright : QueueRight (idle.enqueue firstPacket 0 noEntry 100) firstReply := by
    intro i a ha _ _
    refine ⟨rfl, fun j b hj _ => ?_⟩
    cases i with
    | zero => exact absurd hj (not_lt_zero j)
    | succ i => exact absurd ((Chain.follow_none _ i).symm.trans ha) nofun
  obtain ⟨s, replied, hreplied⟩ := (arp_queue_runs hfirst).2 firstReply hright ⟨_, rfl⟩
  have hcall : replied.call = firstReply := step_call hreplied
  refine ⟨s, ⟨lookUpFirst, some .ARP_LOOKUP_QUEUED, [], []⟩, replied, ?_, ?_⟩
  · rw [State.runCalls, show idle.step lookUpFirst = some (idle.enqueue firstPacket 0 noEntry 100,
      ⟨lookUpFirst, some .ARP_LOOKUP_QUEUED, [], []⟩) from rfl]
    simp only [State.runCalls, bind_eq_bind, bind_some, hreplied]
  · obtain ⟨⟨order, -, -, -, hfates⟩, -⟩ := arp_queue_runs (hfirst.step hright ⟨_, rfl⟩ hreplied)
    have hfrom : replied.ReplyFrom firstPacket.sin_addr :=
      ⟨oldLink, firstSender, 101, 0, hcall, fun _ _ => rfl⟩
    have hrun : ¬replied.IsRun := by
      rintro ⟨clock, hclock⟩
      cases hcall.symm.trans hclock
    rcases hfates [] _ [replied] firstPacket 0 rfl ⟨0, noEntry, 100, rfl, rfl, rfl⟩ with
      ⟨hfate, -⟩ | ⟨result, hfate⟩
    · exact hfate.reply hfrom hrun
    · exact hfate.reply hfrom hrun

/-- Both lookups for the address say that the packet waits, but only the first is called back. Where
the older of two entries is complete, it is freed and stays linked, and the next run follows the
link. -/
theorem queue_goes_wrong :
    ((idle.runCalls [lookUpFirst, .resolve samePacket 1 noEntry 100, firstReply]).map fun r =>
      (r.2.map Step.result, r.2.flatMap Step.called, r.1.allocated.map fun b => (r.1.queue b).buf)) =
      some ([some .ARP_LOOKUP_QUEUED, some .ARP_LOOKUP_QUEUED, none],
        [⟨1, .ARP_LOOKUP_OK, 7⟩], [7]) ∧
    ((idle.runCalls [lookUpFirst, .resolve otherPacket 1 noEntry 100, firstReply,
      .run fun _ => 110]).map fun r =>
        (r.1.arp_lookup_q, (r.1.queue 1).next, r.1.allocated)) = some (some 1, some 0, [1]) ∧
    (idle.runCalls [lookUpFirst, .resolve otherPacket 1 noEntry 100, firstReply,
      .run fun _ => 110, .run fun _ => 110]).isNone = true := by
  refine ⟨?_, ?_, ?_⟩
  · decide +kernel
  · decide +kernel
  · decide +kernel

end Arp
