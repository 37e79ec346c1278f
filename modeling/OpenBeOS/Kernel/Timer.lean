import OpenBeOS.Lib.Chain

/-! # Timer events

The event lists of `timer.c`, one for each CPU: the functions between two sections under a
`timer_spinlock`, and what they do to lists that are in order (`Timers.InOrder`).
-/

namespace Kernel

open Chain Function

inductive TimerMode where
  | TIMER_MODE_ONESHOT
  | TIMER_MODE_PERIODIC
  deriving DecidableEq

open TimerMode

def ERR_GENERAL : Int := -1

/-- The timer events, by their addresses, and the first event of each CPU. -/
structure Timers where
  next : Nat → Option Nat
  mode : Nat → TimerMode
  sched_time : Nat → Int
  periodic_time : Nat → Int
  events : Nat → Option Nat

/-- The sum of two times, as `bigtime_t` has it; zero stands for an event that is not scheduled, so
it becomes one. -/
def scheduled (time relative_time : Int) : Int :=
  if Int.bmod (time + relative_time) (2 ^ 64) = 0 then 1
  else Int.bmod (time + relative_time) (2 ^ 64)

theorem scheduled_ne_zero (time relative_time : Int) : scheduled time relative_time ≠ 0 := by
  unfold scheduled
  split
  · decide
  · assumption

namespace Timers

/-! ## The functions -/

section

variable (t : Timers)

def setSchedTime (event : Nat) (time : Int) : Timers :=
  { t with sched_time := update t.sched_time event time }

@[simp]
theorem setSchedTime_sched_time (event : Nat) (time : Int) :
    (t.setSchedTime event time).sched_time = update t.sched_time event time := rfl

/-- The loops do not end without fuel. -/
def add_event_to_list (fuel event cpu : Nat) : Option Timers :=
  match walk t.next (fun e => ¬ t.sched_time e < t.sched_time event) fuel none (t.events cpu) with
  | none => none
  | some (some last, _) =>
    some { t with
      next := update (update t.next event (t.next last)) last (some event) }
  | some (none, next) =>
    some { t with
      next := update t.next event next
      events := update t.events cpu (some event) }

/-- One round of the scan of `timer_interrupt`: the first event, if its time has come. -/
def takeDue (cpu : Nat) (curr_time : Int) : Option (Nat × Timers) :=
  match t.events cpu with
  | some event =>
    if t.sched_time event < curr_time then
      some (event, { t with events := update t.events cpu (t.next event) }.setSchedTime event 0)
    else none
  | none => none

/-- A periodic event goes back into the list behind its callback. -/
def rearm (fuel event cpu : Nat) (now : Int) : Option Timers :=
  (t.setSchedTime event (scheduled now (t.periodic_time event))).add_event_to_list fuel event cpu

def timer_setup_timer (event : Nat) : Timers := t.setSchedTime event 0

/-- `timer_set_event` up to the list, `none` if it panics. -/
def timer_set_event (relative_time now : Int) (mode : TimerMode) (event : Nat) :
    Option Timers :=
  let relative_time := if relative_time < 0 then 0 else relative_time
  if t.sched_time event ≠ 0 then none
  else
    some { t with
      sched_time := update t.sched_time event (scheduled now relative_time)
      mode := update t.mode event mode
      periodic_time :=
        if mode = TIMER_MODE_PERIODIC then update t.periodic_time event relative_time
        else t.periodic_time }

/-- The search of a CPU's list for an event, which is taken out: whether it was there. -/
def searchList (fuel cpu event : Nat) : Option (Bool × Timers) :=
  match walk t.next (fun e => e = event) fuel none (t.events cpu) with
  | none => none
  | some (_, none) => some (false, t)
  | some (last, some e) =>
    some (true,
      if t.events cpu = some e then
        { t with
          next := update t.next e none
          events := update t.events cpu (t.next e) }
      else
        { t with
          next := update
            (last.elim t.next fun last => update t.next last (t.next e)) e none })

end

/-- The value returned by `_local_timer_cancel_event`. -/
def foundResult (foundit : Bool) : Int := if foundit then 0 else ERR_GENERAL

def _local_timer_cancel_event (t : Timers) (fuel curr_cpu event : Nat) : Option (Int × Timers) :=
  (t.searchList fuel curr_cpu event).map fun (foundit, t') => (foundResult foundit, t')

/-! ## Lists in order -/

/-- The lists are sorted by time, and the events in them are those of `queued`. -/
def InOrder (t : Timers) (queued : Nat → Prop) : Prop :=
  ∃ lists, Chains t.next t.events lists ∧
    (∀ cpu, (lists cpu).Pairwise fun e e' => t.sched_time e ≤ t.sched_time e') ∧
    ∀ e, queued e ↔ ∃ cpu, e ∈ lists cpu

variable {t t' : Timers} {queued : Nat → Prop} {event cpu fuel : Nat}

theorem InOrder.setSchedTime (h : t.InOrder queued) (hevent : ¬ queued event) (time : Int) :
    (t.setSchedTime event time).InOrder queued := by
  obtain ⟨lists, hchains, hsorted, hqueued⟩ := h
  refine ⟨lists, hchains, fun cpu => ?_, hqueued⟩
  refine (hsorted cpu).imp_of_mem fun {a b} ha hb hab => ?_
  have hne : ∀ {e}, e ∈ lists cpu → e ≠ event := by
    rintro e he rfl
    exact hevent ((hqueued e).mpr ⟨cpu, he⟩)
  simpa only [Timers.setSchedTime, update_of_ne (hne ha), update_of_ne (hne hb)]
    using hab

/-- `add_event_to_list` puts the event where the order wants it. -/
theorem add_event_to_list_lists {lists : Nat → List Nat}
    (h : Chains t.next t.events lists) (hevent : ∀ cpu, event ∉ lists cpu)
    (hadd : t.add_event_to_list fuel event cpu = some t') :
    t'.sched_time = t.sched_time ∧ Chains t'.next t'.events (update lists cpu
        ((lists cpu).orderedInsert (fun e e' => t.sched_time e ≤ t.sched_time e') event)) := by
  have hlist : (lists cpu).orderedInsert (fun e e' => t.sched_time e ≤ t.sched_time e') event =
      (lists cpu).takeWhile (fun e => !decide (¬ t.sched_time e < t.sched_time event)) ++
        event :: (lists cpu).dropWhile fun e =>
          !decide (¬ t.sched_time e < t.sched_time event) := by
    have hstop : (fun e => !decide (¬ t.sched_time e < t.sched_time event)) =
        fun e => decide (¬ t.sched_time event ≤ t.sched_time e) := by
      funext e
      rw [← decide_not, decide_eq_decide]
      omega
    rw [List.orderedInsert_eq_take_drop, hstop]
  rw [hlist]
  unfold add_event_to_list at hadd
  cases hwalk : walk t.next (fun e => ¬ t.sched_time e < t.sched_time event) fuel none
      (t.events cpu) with
  | none =>
    rw [hwalk] at hadd
    cases hadd
  | some found =>
    obtain ⟨last, rest⟩ := found
    rw [hwalk] at hadd
    cases last with
    | none =>
      cases hadd
      exact ⟨rfl, h.insert_walk hwalk hevent ⟨rfl, rfl⟩⟩
    | some last =>
      cases hadd
      exact ⟨rfl, h.insert_walk hwalk hevent ⟨rfl, rfl⟩⟩

theorem InOrder.add (h : t.InOrder queued) (hevent : ¬ queued event)
    (hadd : t.add_event_to_list fuel event cpu = some t') :
    t'.sched_time = t.sched_time ∧ t'.InOrder fun e => queued e ∨ e = event := by
  obtain ⟨lists, hchains, hsorted, hqueued⟩ := h
  have hout : ∀ cpu, event ∉ lists cpu := fun cpu hmem => hevent ((hqueued event).mpr ⟨cpu, hmem⟩)
  obtain ⟨hsched, hchains'⟩ := add_event_to_list_lists hchains hout hadd
  refine ⟨hsched, _, hchains', fun cpu' => ?_, fun e => ?_⟩
  · rw [hsched]
    by_cases hcpu : cpu' = cpu
    · have htotal : Std.Total fun e e' => t.sched_time e ≤ t.sched_time e' :=
        ⟨fun _ _ => Int.le_total _ _⟩
      have htrans : IsTrans Nat fun e e' => t.sched_time e ≤ t.sched_time e' :=
        ⟨fun _ _ _ => Int.le_trans⟩
      rw [hcpu, update_self]
      exact (hsorted cpu).orderedInsert event _
    · rw [update_of_ne hcpu]
      exact hsorted cpu'
  · rw [mem_some_insert (List.mem_orderedInsert _)]
    exact or_congr_left (hqueued e)

/-- The event whose time has come is taken out. -/
theorem InOrder.takeDue {curr_time : Int} (h : t.InOrder queued)
    (htake : t.takeDue cpu curr_time = some (event, t')) :
    queued event ∧ t'.sched_time = update t.sched_time event 0 ∧
      t'.InOrder fun e => queued e ∧ e ≠ event := by
  unfold Timers.takeDue at htake
  cases hhead : t.events cpu with
  | none =>
    rw [hhead] at htake
    cases htake
  | some first =>
    simp only [hhead] at htake
    by_cases hdue : t.sched_time first < curr_time
    · rw [if_pos hdue, Option.some.injEq, Prod.mk.injEq] at htake
      obtain ⟨rfl, rfl⟩ := htake
      obtain ⟨lists, hchains, hsorted, hqueued⟩ := h
      have hleads := hchains.leads cpu
      rw [hhead] at hleads
      obtain ⟨rest, hlist⟩ : ∃ rest, lists cpu = first :: rest := by
        cases hlist : lists cpu with
        | nil =>
          rw [hlist] at hleads
          cases hleads
        | cons x rest =>
          rw [hlist] at hleads
          exact ⟨rest, by rw [Option.some.inj hleads.1]⟩
      have hchains' := @Chains.remove _ _ _ _ t.next t.next t.events
        (update t.events cpu (t.next first)) lists hchains cpu [] rest first hlist
        ⟨rfl, rfl⟩
      have hnodup := hchains.nodup cpu
      rw [hlist] at hnodup
      have hmem : ∀ e, (∃ cpu', e ∈ update lists cpu rest cpu') ↔ queued e ∧ e ≠ first := by
        intro e
        have hfirst : first ∈ lists cpu := by
          rw [hlist]
          exact List.mem_cons_self ..
        rw [hqueued, hchains.mem_some_remove hfirst]
        rw [hlist, List.mem_cons]
        constructor
        · intro he
          exact ⟨Or.inr he, fun heq => (List.nodup_cons.mp hnodup).1 (heq ▸ he)⟩
        · rintro ⟨rfl | he, hne⟩
          · exact absurd rfl hne
          · exact he
      refine ⟨(hqueued first).mpr ⟨cpu, by rw [hlist]; exact List.mem_cons_self ..⟩, rfl, ?_⟩
      have hrest : InOrder { t with events := update t.events cpu (t.next first) }
          fun e => queued e ∧ e ≠ first := by
        refine ⟨_, hchains', fun cpu' => ?_, fun e => (hmem e).symm⟩
        by_cases hcpu : cpu' = cpu
        · rw [hcpu, update_self]
          have hcons := hsorted cpu
          rw [hlist] at hcons
          exact (List.pairwise_cons.mp hcons).2
        · rw [update_of_ne hcpu]
          exact hsorted cpu'
      exact hrest.setSchedTime (fun h => h.2 rfl) 0
    · rw [if_neg hdue] at htake
      cases htake

end Timers

end Kernel
