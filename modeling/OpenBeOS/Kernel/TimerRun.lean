import OpenBeOS.Kernel.Timer
import OpenBeOS.Lib.Reachable

/-! # Timer events: what holds of every run

The calls of `timer.c` on any number of CPUs, each step being a section between two points where
another call can come in. The lists stay in order as long as no search of a cancellation finds the
event it looks for: `timer_cancel_event` and `_local_timer_cancel_event` leave `sched_time` as it
is, and the result of the local search is lost (`timer_events_consistent`).
-/

namespace Kernel

open Chain TimerMode Function

/-! ## The system -/

/-- Where a call stands. -/
inductive TimerCall where
  | idle
  /-- `timer_set_event` has written the event's fields. -/
  | setting (event : Nat)
  /-- `timer_interrupt` has called the event's function. -/
  | callback (cpu event : Nat) (mode : TimerMode) (curr_time : Int)
  /-- `timer_cancel_event` has found the event scheduled. -/
  | cancelling (event : Nat)
  /-- `timer_cancel_event` has these CPUs left to search. -/
  | searching (event : Nat) (cpus : List Nat)
  deriving DecidableEq

/-- The events `timer_setup_timer` has set up, where each thread stands, and the event and the value
returned if the last step ended a call of `timer_cancel_event`. -/
structure TimerSystem where
  timers : Timers
  setUp : Nat → Bool
  call : Nat → TimerCall
  cancelled : Option (Nat × Int)
  panicked : Bool

inductive TimerAction where
  | setup_timer (event : Nat)
  | set_event (thread : Nat) (relative_time now : Int) (mode : TimerMode) (event : Nat)
  | add (thread cpu : Nat)
  | interrupt (thread cpu : Nat) (curr_time : Int)
  | callbackReturns (thread : Nat) (now : Int)
  | cancel_event (thread event : Nat)
  | cancelLocal (thread cpu : Nat)
  | cancelRemote (thread : Nat)
  | local_cancel_event (cpu event : Nat)

namespace TimerSystem

/-- The thread goes on to another place. -/
def move (s : TimerSystem) (thread : Nat) (t : Timers) (call : TimerCall)
    (cancelled : Option (Nat × Int)) : TimerSystem :=
  { s with timers := t, call := update s.call thread call, cancelled }

/-- The scan of `timer_interrupt` goes on: with the next callback, or to its end. -/
def scan (s : TimerSystem) (thread cpu : Nat) (curr_time : Int) (t : Timers) : TimerSystem :=
  match t.takeDue cpu curr_time with
  | some (event, t') => s.move thread t' (.callback cpu event (t.mode event) curr_time) none
  | none => s.move thread t .idle none

/-- `timer_cancel_event` has not found the event; it goes on to the CPUs that are left. -/
def goOn (s : TimerSystem) (thread : Nat) (t : Timers) (event : Nat) : List Nat → TimerSystem
  | [] => s.move thread t .idle (some (event, ERR_GENERAL))
  | cpus => s.move thread t (.searching event cpus) none

/-- `none` where the thread is not there, or where a loop has not ended with this fuel. -/
def exec (num_cpus fuel : Nat) (s : TimerSystem) : TimerAction → Option TimerSystem
  | .setup_timer event =>
    some { s with
      timers := s.timers.timer_setup_timer event
      setUp := update s.setUp event true
      cancelled := none }
  | .set_event thread relative_time now mode event =>
    if s.call thread = .idle then
      match s.timers.timer_set_event relative_time now mode event with
      | some t => some (s.move thread t (.setting event) none)
      | none => some { s with panicked := true }
    else none
  | .add thread cpu =>
    match s.call thread with
    | .setting event =>
      if cpu < num_cpus then
        (s.timers.add_event_to_list fuel event cpu).map fun t => s.move thread t .idle none
      else none
    | _ => none
  | .interrupt thread cpu curr_time =>
    if s.call thread = .idle ∧ cpu < num_cpus then some (s.scan thread cpu curr_time s.timers)
    else none
  | .callbackReturns thread now =>
    match s.call thread with
    | .callback cpu event TIMER_MODE_PERIODIC curr_time =>
      (s.timers.rearm fuel event cpu now).map fun t => s.scan thread cpu curr_time t
    | .callback cpu _ TIMER_MODE_ONESHOT curr_time => some (s.scan thread cpu curr_time s.timers)
    | _ => none
  | .cancel_event thread event =>
    if s.call thread = .idle then
      if s.timers.sched_time event = 0 then some (s.move thread s.timers .idle (some (event, 0)))
      else some (s.move thread s.timers (.cancelling event) none)
    else none
  | .cancelLocal thread cpu =>
    match s.call thread with
    | .cancelling event =>
      if cpu < num_cpus then
        (s.timers._local_timer_cancel_event fuel cpu event).map fun (rc, t) =>
          if rc < 0 then s.goOn thread t event ((List.range num_cpus).filter (· ≠ cpu))
          else s.move thread t .idle (some (event, ERR_GENERAL))
      else none
    | _ => none
  | .cancelRemote thread =>
    match s.call thread with
    | .searching event (cpu :: cpus) =>
      (s.timers.searchList fuel cpu event).map fun (foundit, t) =>
      if foundit then s.move thread t .idle (some (event, Timers.foundResult foundit))
      else s.goOn thread t event cpus
    | _ => none
  | .local_cancel_event cpu event =>
    if cpu < num_cpus then
      (s.timers._local_timer_cancel_event fuel cpu event).map fun (_, t) =>
        { s with timers := t, cancelled := none }
    else none

/-- A panic stops the system. -/
def Step (num_cpus : Nat) (s : TimerSystem) (a : TimerAction) (s' : TimerSystem) : Prop :=
  s.panicked = false ∧ ∃ fuel, s.exec num_cpus fuel a = some s'

section

variable (s : TimerSystem)

/-- At first, no event is set up and no list has an event. -/
def Init : Prop :=
  s.timers.events = (fun _ => none) ∧ s.setUp = (fun _ => false) ∧
    s.call = (fun _ => .idle) ∧ s.cancelled = none ∧ s.panicked = false

/-! ## What should hold -/

def InList (cpu event : Nat) : Prop :=
  ∃ xs, Leads s.timers.next (s.timers.events cpu) xs none ∧ event ∈ xs

def Queued (event : Nat) : Prop := ∃ cpu, s.InList cpu event

/-- `timer_set_event` is between its two sections. -/
def Setting (event : Nat) : Prop := ∃ thread, s.call thread = .setting event

/-- The calls the callers make: events are set up before they are used, and neither set up nor set
while they are queued or being set. -/
def Allowed : TimerAction → Prop
  | .setup_timer event => ¬ s.Queued event ∧ ¬ s.Setting event
  | .set_event _ _ _ _ event => s.setUp event ∧ ¬ s.Queued event ∧ ¬ s.Setting event
  | .cancel_event _ event => s.setUp event
  | _ => True

end

/-- No search finds its event, and the last one of `timer_cancel_event` ends while the event is
queued; a periodic event is neither queued nor being set when its callback returns. -/
def Safe (num_cpus : Nat) (s : TimerSystem) : TimerAction → Prop
  | .callbackReturns thread _ =>
    ∀ cpu event curr_time, s.call thread = .callback cpu event TIMER_MODE_PERIODIC curr_time →
      ¬ s.Queued event ∧ ¬ s.Setting event
  | .cancelLocal thread cpu =>
    ∀ event, s.call thread = .cancelling event →
      ¬ s.InList cpu event ∧ ((List.range num_cpus).filter (· ≠ cpu) = [] → s.Queued event)
  | .cancelRemote thread =>
    ∀ event cpu cpus, s.call thread = .searching event (cpu :: cpus) →
      ¬ s.InList cpu event ∧ (cpus = [] → s.Queued event)
  | .local_cancel_event cpu event => ¬ s.InList cpu event
  | _ => True

/-- The event lists are sorted and have no common event; an event that is not being set has a time
just if it is queued; `timer_cancel_event` has returned zero just if its event is not queued any
more; and `timer_set_event` has not panicked. -/
structure Consistent (s : TimerSystem) : Prop where
  lists : ∃ lists, Chains s.timers.next s.timers.events lists ∧
    ∀ cpu, (lists cpu).Pairwise fun e e' => s.timers.sched_time e ≤ s.timers.sched_time e'
  scheduled : ∀ event, s.setUp event → ¬ s.Setting event →
    (s.timers.sched_time event ≠ 0 ↔ s.Queued event)
  cancelled : ∀ event rc, s.cancelled = some (event, rc) → (rc = 0 ↔ ¬ s.Queued event)
  no_panic : s.panicked = false

/-! ## The invariant -/

/-- The events of `queued` are those in the lists. -/
structure Sound (s : TimerSystem) (queued : Nat → Prop) : Prop where
  inOrder : s.timers.InOrder queued
  setUp_queued : ∀ event, queued event → s.setUp event
  setUp_call : ∀ thread cpu event mode curr_time,
    s.call thread = .callback cpu event mode curr_time → s.setUp event
  scheduled : ∀ event, s.setUp event →
    (s.timers.sched_time event ≠ 0 ↔ queued event ∨ s.Setting event)
  setting : ∀ event, s.Setting event → s.setUp event ∧ ¬ queued event
  setting_once : ∀ thread thread' event, s.call thread = .setting event →
    s.call thread' = .setting event → thread = thread'
  cancelled : ∀ event rc, s.cancelled = some (event, rc) → (rc = 0 ↔ ¬ queued event)
  no_panic : s.panicked = false

variable {s : TimerSystem} {queued queued' : Nat → Prop} {thread event : Nat}

theorem queued_of_inList (h : s.timers.InOrder queued) {cpu : Nat} (hin : s.InList cpu event) :
    queued event := by
  obtain ⟨lists, hchains, -, hqueued⟩ := h
  obtain ⟨xs, hxs, hmem⟩ := hin
  rw [hxs.unique (hchains.leads cpu)] at hmem
  exact (hqueued event).mpr ⟨cpu, hmem⟩

theorem queued_iff (h : s.timers.InOrder queued) (event : Nat) : s.Queued event ↔ queued event := by
  constructor
  · rintro ⟨cpu, hin⟩
    exact queued_of_inList h hin
  · obtain ⟨lists, hchains, -, hqueued⟩ := h
    intro hq
    obtain ⟨cpu, hmem⟩ := (hqueued event).mp hq
    exact ⟨cpu, lists cpu, hchains.leads cpu, hmem⟩

theorem Sound.consistent (h : s.Sound queued) : s.Consistent := by
  have hq := queued_iff h.inOrder
  refine ⟨?_, fun e hsetUp hset => ?_, fun e rc hrc => ?_, h.no_panic⟩
  · obtain ⟨lists, hchains, hsorted, -⟩ := h.inOrder
    exact ⟨lists, hchains, hsorted⟩
  · rw [h.scheduled e hsetUp, hq, or_iff_left hset]
  · rw [h.cancelled e rc hrc, hq]

variable {cancelled : Option (Nat × Int)} {fuel cpu : Nat} {t : Timers} {call : TimerCall}

theorem setting_move
    (hfrom : ∀ e, s.call thread ≠ .setting e) (hto : ∀ e, call ≠ .setting e) :
    (s.move thread t call cancelled).Setting event ↔ s.Setting event := by
  refine exists_congr fun thread' => ?_
  show update s.call thread call thread' = _ ↔ _
  by_cases hthread : thread' = thread
  · subst hthread
    rw [update_self]
    exact ⟨fun h => absurd h (hto event), fun h => absurd h (hfrom event)⟩
  · rw [update_of_ne hthread]

section

variable (h : s.Sound queued) (hfrom : ∀ e, s.call thread ≠ .setting e)
include h hfrom

/-- A step of a thread that is not setting an event. -/
theorem Sound.move
    (hto : ∀ e, call ≠ .setting e)
    (hcallback : ∀ cpu e mode curr_time, call = .callback cpu e mode curr_time → s.setUp e)
    (hinOrder : t.InOrder queued') (hsetUp : ∀ e, queued' e → s.setUp e)
    (hscheduled : ∀ e, s.setUp e → (t.sched_time e ≠ 0 ↔ queued' e ∨ s.Setting e))
    (hset : ∀ e, s.Setting e → ¬ queued' e)
    (hcancelled : ∀ e rc, cancelled = some (e, rc) → (rc = 0 ↔ ¬ queued' e)) :
    (s.move thread t call cancelled).Sound queued' := by
  refine ⟨hinOrder, hsetUp, fun thread' cpu e mode curr_time hcall => ?_, fun e he => ?_,
    fun e he => ?_, fun thread₁ thread₂ e h₁ h₂ => ?_, hcancelled, h.no_panic⟩
  · by_cases hthread : thread' = thread
    · subst hthread
      exact hcallback cpu e mode curr_time ((update_self ..).symm.trans hcall)
    · exact h.setUp_call thread' cpu e mode curr_time
        ((update_of_ne hthread ..).symm.trans hcall)
  · rw [setting_move hfrom hto]
    exact hscheduled e he
  · rw [setting_move hfrom hto] at he
    exact ⟨(h.setting e he).1, hset e he⟩
  · have hold : ∀ thread', (s.move thread t call cancelled).call thread' = .setting e →
        s.call thread' = .setting e := by
      intro thread' hcall
      by_cases hthread : thread' = thread
      · subst hthread
        exact absurd ((update_self ..).symm.trans hcall) (hto e)
      · exact (update_of_ne hthread ..).symm.trans hcall
    exact h.setting_once thread₁ thread₂ e (hold thread₁ h₁) (hold thread₂ h₂)

theorem Sound.stay (hto : ∀ e, call ≠ .setting e)
    (hcallback : ∀ cpu e mode curr_time, call ≠ .callback cpu e mode curr_time)
    (hcancelled : ∀ e rc, cancelled = some (e, rc) → (rc = 0 ↔ ¬ queued e)) :
    (s.move thread s.timers call cancelled).Sound queued :=
  h.move hfrom hto (fun cpu e mode curr_time hcall => absurd hcall (hcallback cpu e mode curr_time))
    h.inOrder h.setUp_queued h.scheduled (fun e he => (h.setting e he).2) hcancelled

/-! ## The steps keep it -/

theorem Sound.scan (cpu : Nat)
    (curr_time : Int) : ∃ queued', (s.scan thread cpu curr_time s.timers).Sound queued' := by
  unfold TimerSystem.scan
  cases htake : s.timers.takeDue cpu curr_time with
  | none => exact ⟨queued, h.stay hfrom nofun nofun nofun⟩
  | some due =>
    obtain ⟨event, t'⟩ := due
    obtain ⟨hevent, hsched, hinOrder⟩ := h.inOrder.takeDue htake
    refine ⟨_, h.move hfrom nofun ?_ hinOrder (fun e he => h.setUp_queued e he.1) ?_ ?_ nofun⟩
    · rintro _ e _ _ hcall
      injection hcall with _ he
      rw [← he]
      exact h.setUp_queued event hevent
    · intro e he
      rw [hsched]
      by_cases heq : e = event
      · subst heq
        rw [update_self]
        refine ⟨fun hne => absurd rfl hne, ?_⟩
        rintro (⟨-, hne⟩ | hset)
        · exact absurd rfl hne
        · exact absurd hevent (h.setting e hset).2
      · rw [update_of_ne heq, h.scheduled e he, and_iff_left heq]
    · exact fun e hset hq => (h.setting e hset).2 hq.1

end

/-- The event is put back into the list. -/
theorem Sound.rearm (h : s.Sound queued) {now : Int}
    (hsetUp : s.setUp event) (hevent : ¬ queued event) (hset : ¬ s.Setting event)
    (hrearm : s.timers.rearm fuel event cpu now = some t) :
    ({ s with timers := t, cancelled := none } : TimerSystem).Sound
      fun e => queued e ∨ e = event := by
  obtain ⟨hsched, hinOrder⟩ := (h.inOrder.setSchedTime hevent _).add hevent hrearm
  refine ⟨hinOrder, ?_, h.setUp_call, fun e he => ?_, fun e he => ⟨(h.setting e he).1, ?_⟩,
    h.setting_once, nofun, h.no_panic⟩
  · rintro e (he | rfl)
    · exact h.setUp_queued e he
    · exact hsetUp
  · show t.sched_time e ≠ 0 ↔ _ ∨ s.Setting e
    rw [hsched, Timers.setSchedTime_sched_time]
    by_cases heq : e = event
    · subst heq
      rw [update_self]
      exact ⟨fun _ => Or.inl (Or.inr rfl), fun _ => Kernel.scheduled_ne_zero _ _⟩
    · rw [update_of_ne heq, or_iff_left heq]
      exact h.scheduled e he
  · rintro (hq | rfl)
    · exact (h.setting e he).2 hq
    · exact hset he

theorem Sound.setup_timer (h : s.Sound queued) (hevent : ¬ queued event)
    (hset : ¬ s.Setting event) :
    ({ s with
      timers := s.timers.timer_setup_timer event
      setUp := update s.setUp event true
      cancelled := none } : TimerSystem).Sound queued := by
  have hsetUp : ∀ e, s.setUp e = true → update s.setUp event true e = true := by
    intro e he
    by_cases heq : e = event
    · rw [heq, update_self]
    · rwa [update_of_ne heq]
  refine ⟨h.inOrder.setSchedTime hevent 0, fun e he => hsetUp e (h.setUp_queued e he),
    fun thread cpu e mode curr_time hcall => hsetUp e (h.setUp_call thread cpu e mode curr_time hcall),
    fun e he => ?_, fun e he => ⟨hsetUp e (h.setting e he).1, (h.setting e he).2⟩,
    h.setting_once, nofun, h.no_panic⟩
  show update s.timers.sched_time event 0 e ≠ 0 ↔ queued e ∨ s.Setting e
  by_cases heq : e = event
  · subst heq
    rw [update_self]
    exact ⟨fun hne => absurd rfl hne, fun hor => (hor.elim hevent hset).elim⟩
  · rw [update_of_ne heq]
    exact h.scheduled e ((update_of_ne heq ..).symm.trans he)

/-- The fields of the event are written; it is not in a list yet. -/
theorem Sound.set_event (h : s.Sound queued) {relative_time now : Int} {mode : TimerMode}
    (hfrom : s.call thread = .idle) (hsetUp : s.setUp event) (hevent : ¬ queued event)
    (hset : ¬ s.Setting event) :
    ∃ t, s.timers.timer_set_event relative_time now mode event = some t ∧
      (s.move thread t (.setting event) none).Sound queued := by
  have hzero : s.timers.sched_time event = 0 := by
    by_contra hne
    exact ((h.scheduled event hsetUp).mp hne).elim hevent hset
  unfold Timers.timer_set_event
  simp only [hzero, ne_eq, not_true_eq_false, if_false]
  refine ⟨_, rfl, ?_⟩
  have hsetting : ∀ e, (∃ thread', update s.call thread (.setting event) thread' =
      .setting e) ↔ s.Setting e ∨ e = event := by
    intro e
    constructor
    · rintro ⟨thread', hcall⟩
      by_cases hthread : thread' = thread
      · subst hthread
        rw [update_self] at hcall
        injection hcall with he
        exact Or.inr he.symm
      · rw [update_of_ne hthread] at hcall
        exact Or.inl ⟨thread', hcall⟩
    · rintro (⟨thread', hcall⟩ | rfl)
      · refine ⟨thread', ?_⟩
        rw [update_of_ne]
        · exact hcall
        · rintro rfl
          cases hfrom.symm.trans hcall
      · exact ⟨thread, update_self ..⟩
  refine ⟨h.inOrder.setSchedTime hevent _, h.setUp_queued, fun thread' cpu e mode' curr_time hcall => ?_,
    fun e he => ?_, fun e he => ?_, fun thread₁ thread₂ e h₁ h₂ => ?_, nofun, h.no_panic⟩
  · refine h.setUp_call thread' cpu e mode' curr_time ?_
    by_cases hthread : thread' = thread
    · subst hthread
      cases (update_self ..).symm.trans hcall
    · exact (update_of_ne hthread ..).symm.trans hcall
  · refine Iff.trans ?_ (or_congr_right (hsetting e).symm)
    show update s.timers.sched_time event _ e ≠ 0 ↔ _
    by_cases heq : e = event
    · subst heq
      rw [update_self]
      exact ⟨fun _ => Or.inr (Or.inr rfl), fun _ => Kernel.scheduled_ne_zero _ _⟩
    · rw [update_of_ne heq, or_iff_left heq]
      exact h.scheduled e he
  · rcases (hsetting e).mp he with he | rfl
    · exact h.setting e he
    · exact ⟨hsetUp, hevent⟩
  · have hold : ∀ thread', update s.call thread (.setting event) thread' = .setting e →
        thread' ≠ thread → s.call thread' = .setting e := by
      intro thread' hcall hthread
      rwa [update_of_ne hthread] at hcall
    have hnew : ∀ thread', update s.call thread (.setting event) thread' = .setting e →
        thread' = thread → e = event := by
      rintro thread' hcall rfl
      rw [update_self] at hcall
      injection hcall with he
      exact he.symm
    by_cases hthread₁ : thread₁ = thread
    · by_cases hthread₂ : thread₂ = thread
      · rw [hthread₁, hthread₂]
      · have he := hnew thread₁ h₁ hthread₁
        exact absurd ⟨thread₂, he ▸ hold thread₂ h₂ hthread₂⟩ hset
    · by_cases hthread₂ : thread₂ = thread
      · have he := hnew thread₂ h₂ hthread₂
        exact absurd ⟨thread₁, he ▸ hold thread₁ h₁ hthread₁⟩ hset
      · exact h.setting_once _ _ e (hold thread₁ h₁ hthread₁) (hold thread₂ h₂ hthread₂)

/-- The event gets into the list. -/
theorem Sound.add (h : s.Sound queued)
    (hfrom : s.call thread = .setting event)
    (hadd : s.timers.add_event_to_list fuel event cpu = some t) :
    (s.move thread t .idle none).Sound fun e => queued e ∨ e = event := by
  obtain ⟨hsetUp, hevent⟩ := h.setting event ⟨thread, hfrom⟩
  obtain ⟨hsched, hinOrder⟩ := h.inOrder.add hevent hadd
  have hold : ∀ thread' call, update s.call thread .idle thread' = call → call ≠ .idle →
      thread' ≠ thread ∧ s.call thread' = call := by
    intro thread' call hcall hidle
    by_cases hthread : thread' = thread
    · subst hthread
      exact absurd ((update_self ..).symm.trans hcall).symm hidle
    · exact ⟨hthread, (update_of_ne hthread ..).symm.trans hcall⟩
  have hsetting : ∀ e, (∃ thread', update s.call thread .idle thread' = .setting e) ↔
      s.Setting e ∧ e ≠ event := by
    intro e
    constructor
    · rintro ⟨thread', hcall⟩
      obtain ⟨hne, hcall'⟩ := hold thread' _ hcall nofun
      refine ⟨⟨thread', hcall'⟩, ?_⟩
      rintro rfl
      exact hne (h.setting_once thread' thread e hcall' hfrom)
    · rintro ⟨⟨thread', hcall⟩, hne⟩
      refine ⟨thread', ?_⟩
      rw [update_of_ne]
      · exact hcall
      · rintro rfl
        rw [hfrom] at hcall
        injection hcall with he
        exact hne he.symm
  refine ⟨hinOrder, ?_, fun thread' cpu e mode curr_time hcall => ?_, fun e he => ?_,
    fun e he => ?_, fun thread₁ thread₂ e h₁ h₂ => ?_, nofun, h.no_panic⟩
  · rintro e (he | rfl)
    · exact h.setUp_queued e he
    · exact hsetUp
  · exact h.setUp_call thread' cpu e mode curr_time (hold thread' _ hcall nofun).2
  · refine Iff.trans ?_ (or_congr_right (hsetting e).symm)
    show t.sched_time e ≠ 0 ↔ _
    rw [hsched, h.scheduled e he]
    by_cases heq : e = event
    · subst heq
      exact ⟨fun _ => Or.inl (Or.inr rfl), fun _ => Or.inr ⟨thread, hfrom⟩⟩
    · rw [or_iff_left heq, and_iff_left heq]
  · obtain ⟨hset, hne⟩ := (hsetting e).mp he
    refine ⟨(h.setting e hset).1, ?_⟩
    rintro (hq | heq)
    · exact (h.setting e hset).2 hq
    · exact hne heq
  · exact h.setting_once _ _ e (hold thread₁ _ h₁ nofun).2 (hold thread₂ _ h₂ nofun).2

/-- A search that does not find the event changes nothing. -/
theorem searchList_of_not_inList (h : s.timers.InOrder queued) {foundit : Bool} (hout : ¬ s.InList cpu event)
    (hsearch : s.timers.searchList fuel cpu event = some (foundit, t)) :
    foundit = false ∧ t = s.timers := by
  obtain ⟨lists, hchains, -, -⟩ := h
  unfold Timers.searchList at hsearch
  cases hwalk : walk s.timers.next (fun e => e = event) fuel none (s.timers.events cpu) with
  | none =>
    rw [hwalk] at hsearch
    cases hsearch
  | some found =>
    have hfound := walk_some (hchains.leads cpu) hwalk
    have hnone : found.2 = none := by
      rw [hfound]
      cases hhead : ((lists cpu).dropWhile fun e => !decide (e = event)).head? with
      | none => rfl
      | some e =>
        have hmem := (List.dropWhile_sublist _).subset (List.mem_of_head? hhead)
        have hstop := List.head?_dropWhile_not (fun e => !decide (e = event)) (lists cpu)
        rw [hhead] at hstop
        have he : e = event := by simpa using hstop
        exact absurd ⟨lists cpu, hchains.leads cpu, he ▸ hmem⟩ hout
    obtain ⟨last, rest⟩ := found
    obtain rfl : rest = none := hnone
    rw [hwalk] at hsearch
    cases hsearch
    exact ⟨rfl, rfl⟩

theorem Sound.goOn (h : s.Sound queued) {cpus : List Nat} (hfrom : ∀ e, s.call thread ≠ .setting e)
    (hend : cpus = [] → queued event) : (s.goOn thread s.timers event cpus).Sound queued := by
  cases cpus with
  | nil =>
    refine h.stay hfrom nofun nofun ?_
    rintro e rc heq
    cases heq
    exact ⟨fun hrc => absurd hrc (by decide), fun hq => absurd (hend rfl) hq⟩
  | cons cpu cpus => exact h.stay hfrom nofun nofun nofun

theorem local_search_of_not_inList (h : s.timers.InOrder queued) {rc : Int} (hout : ¬ s.InList cpu event)
    (hsearch : s.timers._local_timer_cancel_event fuel cpu event = some (rc, t)) :
    rc = ERR_GENERAL ∧ t = s.timers := by
  obtain ⟨⟨foundit, t'⟩, hlist, heq⟩ := Option.map_eq_some_iff.mp hsearch
  obtain ⟨rfl, rfl⟩ := searchList_of_not_inList h hout hlist
  cases heq
  exact ⟨rfl, rfl⟩

theorem Sound.step {num_cpus : Nat} {a : TimerAction} {s' : TimerSystem} (h : s.Sound queued)
    (hallowed : s.Allowed a) (hsafe : s.Safe num_cpus a) (hstep : s.Step num_cpus a s') :
    ∃ queued', s'.Sound queued' := by
  obtain ⟨-, fuel, hexec⟩ := hstep
  have hq := queued_iff h.inOrder
  cases a with
  | setup_timer event =>
    cases hexec
    exact ⟨queued, h.setup_timer (fun he => hallowed.1 ((hq event).mpr he)) hallowed.2⟩
  | set_event thread relative_time now mode event =>
    obtain ⟨hsetUp, hqueued, hset⟩ := hallowed
    by_cases hidle : s.call thread = .idle
    · obtain ⟨t, ht, hsound⟩ := @Sound.set_event s queued thread event h relative_time now mode
        hidle hsetUp (fun he => hqueued ((hq event).mpr he)) hset
      simp only [exec, if_pos hidle, ht] at hexec
      cases hexec
      exact ⟨queued, hsound⟩
    · simp only [exec, if_neg hidle] at hexec
      cases hexec
  | add thread cpu =>
    simp only [exec] at hexec
    generalize hcall : s.call thread = call at hexec
    cases call with
    | setting event =>
      dsimp only at hexec
      split at hexec
      · obtain ⟨t, hadd, rfl⟩ := Option.map_eq_some_iff.mp hexec
        exact ⟨_, h.add hcall hadd⟩
      · cases hexec
    | _ => cases hexec
  | interrupt thread cpu curr_time =>
    simp only [exec] at hexec
    split at hexec
    · rename_i hidle
      cases hexec
      exact h.scan (fun e => by rw [hidle.1]; nofun) cpu curr_time
    · cases hexec
  | callbackReturns thread now =>
    simp only [exec] at hexec
    generalize hcall : s.call thread = call at hexec
    cases call with
    | callback cpu event mode curr_time =>
      have hfrom : ∀ e, s.call thread ≠ .setting e := fun e => by rw [hcall]; nofun
      cases mode with
      | TIMER_MODE_PERIODIC =>
        obtain ⟨hqueued, hset⟩ := hsafe cpu event curr_time hcall
        obtain ⟨t, hrearm, rfl⟩ := Option.map_eq_some_iff.mp hexec
        have hsound := h.rearm (h.setUp_call thread cpu event _ curr_time hcall)
          (fun he => hqueued ((hq event).mpr he)) hset hrearm
        exact hsound.scan hfrom cpu curr_time
      | TIMER_MODE_ONESHOT =>
        cases hexec
        exact h.scan hfrom cpu curr_time
    | _ => cases hexec
  | cancel_event thread event =>
    simp only [exec] at hexec
    split at hexec
    · rename_i hidle
      have hfrom : ∀ e, s.call thread ≠ .setting e := fun e => by rw [hidle]; nofun
      split at hexec
      · rename_i hzero
        cases hexec
        refine ⟨queued, h.stay hfrom nofun nofun ?_⟩
        rintro e rc heq
        cases heq
        refine ⟨fun _ he => ?_, fun _ => rfl⟩
        exact (h.scheduled event hallowed).mpr (Or.inl he) hzero
      · cases hexec
        exact ⟨queued, h.stay hfrom nofun nofun nofun⟩
    · cases hexec
  | cancelLocal thread cpu =>
    simp only [exec] at hexec
    generalize hcall : s.call thread = call at hexec
    cases call with
    | cancelling event =>
      obtain ⟨hout, hend⟩ := hsafe event hcall
      dsimp only at hexec
      split at hexec
      · obtain ⟨⟨rc, t⟩, hsearch, rfl⟩ := Option.map_eq_some_iff.mp hexec
        obtain ⟨rfl, rfl⟩ := local_search_of_not_inList h.inOrder hout hsearch
        exact ⟨queued, h.goOn (fun e => by rw [hcall]; nofun) fun hnil => (hq event).mp (hend hnil)⟩
      · cases hexec
    | _ => cases hexec
  | cancelRemote thread =>
    simp only [exec] at hexec
    generalize hcall : s.call thread = call at hexec
    cases call with
    | searching event cpus =>
      cases cpus with
      | nil =>
        cases hexec
      | cons cpu cpus =>
        obtain ⟨hout, hend⟩ := hsafe event cpu cpus hcall
        obtain ⟨⟨foundit, t⟩, hsearch, rfl⟩ := Option.map_eq_some_iff.mp hexec
        obtain ⟨rfl, rfl⟩ := searchList_of_not_inList h.inOrder hout hsearch
        exact ⟨queued, h.goOn (fun e => by rw [hcall]; nofun) fun hnil => (hq event).mp (hend hnil)⟩
    | _ => cases hexec
  | local_cancel_event cpu event =>
    simp only [exec] at hexec
    split at hexec
    · obtain ⟨⟨rc, t⟩, hsearch, rfl⟩ := Option.map_eq_some_iff.mp hexec
      obtain ⟨-, rfl⟩ := local_search_of_not_inList h.inOrder hsafe hsearch
      exact ⟨queued, h.inOrder, h.setUp_queued, h.setUp_call, h.scheduled, h.setting,
        h.setting_once, nofun, h.no_panic⟩
    · cases hexec

theorem Sound.init (h : s.Init) : s.Sound fun _ => False := by
  obtain ⟨hevents, hsetUp, hcall, hcancelled, hpanic⟩ := h
  have hset : ∀ e, ¬ s.Setting e := by
    rintro e ⟨thread, h⟩
    rw [hcall] at h
    cases h
  refine ⟨⟨fun _ => [], ⟨fun cpu => ?_, fun _ => List.nodup_nil, nofun⟩, fun _ => .nil, ?_⟩, nofun,
    fun thread cpu e mode curr_time h => ?_, fun e h => ?_, fun e h => absurd h (hset e),
    fun thread _ e h _ => absurd ⟨thread, h⟩ (hset e), fun e rc h => ?_, hpanic⟩
  · rw [hevents]
    rfl
  · simp
  · rw [hcall] at h
    cases h
  · rw [hsetUp] at h
    cases h
  · rw [hcancelled] at h
    cases h

end TimerSystem

/-- In every run whose steps meet the condition, the timers stay consistent. -/
theorem timer_events_consistent {num_cpus : Nat} {s : TimerSystem}
    (h : Reachable.By TimerSystem.Init (fun s a => s.Allowed a ∧ s.Safe num_cpus a)
      (TimerSystem.Step num_cpus) s) : s.Consistent := by
  have hsound : ∃ queued, s.Sound queued := by
    apply h.invariant fun s => ∃ queued, s.Sound queued
    · exact fun s hs => ⟨_, TimerSystem.Sound.init hs⟩
    · rintro s a s' ⟨queued, hs⟩ ⟨hallowed, hsafe⟩ hstep
      exact hs.step hallowed hsafe hstep
  obtain ⟨queued, hqueued⟩ := hsound
  exact hqueued.consistent

/-! ## Two runs on one CPU -/

namespace TimerSystem

/-- Before the first call. -/
def boot : TimerSystem :=
  { timers :=
      { next := fun _ => none
        mode := fun _ => TIMER_MODE_ONESHOT
        sched_time := fun _ => 0
        periodic_time := fun _ => 0
        events := fun _ => none }
    setUp := fun _ => false
    call := fun _ => .idle
    cancelled := none
    panicked := false }

theorem init_boot : boot.Init := ⟨rfl, rfl, rfl, rfl, rfl⟩

theorem not_queued_of_empty {s : TimerSystem} (h : ∀ cpu, s.timers.events cpu = none)
    (event : Nat) : ¬ s.Queued event := by
  rintro ⟨cpu, xs, hxs, hmem⟩
  rw [h cpu] at hxs
  rw [hxs.unique (show Leads _ none [] none from rfl)] at hmem
  exact absurd hmem List.not_mem_nil

theorem not_setting_of_idle {s : TimerSystem} (h : ∀ thread, s.call thread = .idle)
    (event : Nat) : ¬ s.Setting event := by
  rintro ⟨thread, hcall⟩
  rw [h thread] at hcall
  cases hcall

/-- Event 0 is set up. -/
def setUpOnce : TimerSystem :=
  { boot with
    timers := boot.timers.timer_setup_timer 0
    setUp := update boot.setUp 0 true }

/-- Event 0 is set to fire in ten microseconds, and not in the list yet. -/
def setting : TimerSystem :=
  setUpOnce.move 0
    { setUpOnce.timers with
      sched_time := update setUpOnce.timers.sched_time 0 110
      mode := update setUpOnce.timers.mode 0 TIMER_MODE_ONESHOT }
    (.setting 0) none

/-- Event 0 is in the list of CPU 0. -/
def queuedOnce : TimerSystem :=
  setting.move 0
    { setting.timers with
      next := update setting.timers.next 0 none
      events := update setting.timers.events 0 (some 0) } .idle none

theorem reachable_queuedOnce :
    Reachable.By Init (fun s a => s.Allowed a ∧ s.Safe 1 a) (Step 1) queuedOnce := by
  have hempty : ∀ cpu, setUpOnce.timers.events cpu = none := fun _ => rfl
  have hsetUp : Reachable.By Init (fun s a => s.Allowed a ∧ s.Safe 1 a) (Step 1) setUpOnce :=
    .step (.init init_boot) (a := .setup_timer 0)
      ⟨⟨not_queued_of_empty (fun _ => rfl) 0, not_setting_of_idle (fun _ => rfl) 0⟩, trivial⟩
      ⟨rfl, 0, rfl⟩
  have hsetting : Reachable.By Init (fun s a => s.Allowed a ∧ s.Safe 1 a) (Step 1) setting :=
    .step hsetUp (a := .set_event 0 10 100 TIMER_MODE_ONESHOT 0)
      ⟨⟨rfl, not_queued_of_empty hempty 0, not_setting_of_idle (fun _ => rfl) 0⟩, trivial⟩
      ⟨rfl, 0, rfl⟩
  exact .step hsetting (a := .add 0 0) ⟨trivial, trivial⟩ ⟨rfl, 1, rfl⟩

/-- Its time has come, and its function has been called. -/
def firing : TimerSystem :=
  queuedOnce.move 0
    { queuedOnce.timers with
      events := update queuedOnce.timers.events 0 none
      sched_time := update queuedOnce.timers.sched_time 0 0 }
    (.callback 0 0 TIMER_MODE_ONESHOT 200) none

/-- Cancelling it finds it in the list of the own CPU. -/
def cancelledOnce : TimerSystem :=
  (queuedOnce.move 1 queuedOnce.timers (.cancelling 0) none).move 1
    { queuedOnce.timers with
      next := update queuedOnce.timers.next 0 none
      events := update queuedOnce.timers.events 0 none } .idle (some (0, ERR_GENERAL))

theorem not_queued_cancelledOnce : ¬ cancelledOnce.Queued 0 := by
  refine not_queued_of_empty (fun cpu => ?_) 0
  show update (update (fun _ => none) 0 (some 0)) 0 none cpu = none
  by_cases hcpu : cpu = 0
  · rw [hcpu, update_self]
  · rw [update_of_ne hcpu, update_of_ne hcpu]

end TimerSystem

/-- An event that fires: a later `timer_cancel_event` returns zero. -/
theorem timer_events_consistent_fired :
    ∃ s : TimerSystem, s.cancelled = some (0, 0) ∧ s.Consistent := by
  have hfiring : Reachable.By TimerSystem.Init (fun s a => s.Allowed a ∧ s.Safe 1 a)
      (TimerSystem.Step 1) TimerSystem.firing :=
    .step TimerSystem.reachable_queuedOnce (a := .interrupt 0 0 200) ⟨trivial, trivial⟩
      ⟨rfl, 0, rfl⟩
  refine ⟨_, ?_, timer_events_consistent (.step hfiring (a := .cancel_event 1 0)
    ⟨rfl, trivial⟩ ⟨rfl, 0, rfl⟩)⟩
  rfl

/-- Cancelled on its own CPU, the event is out of the list; the value returned says that it is not,
and its time that it is queued. -/
theorem timer_events_inconsistent :
    ¬ ∀ s, Reachable.By TimerSystem.Init TimerSystem.Allowed (TimerSystem.Step 1) s →
      s.Consistent := by
  intro hall
  have hqueued : Reachable.By TimerSystem.Init TimerSystem.Allowed (TimerSystem.Step 1)
      TimerSystem.queuedOnce := TimerSystem.reachable_queuedOnce.mono fun _ _ hok => hok.1
  have hcancel : Reachable.By TimerSystem.Init TimerSystem.Allowed (TimerSystem.Step 1)
      TimerSystem.cancelledOnce :=
    .step (.step hqueued (a := .cancel_event 1 0) rfl ⟨rfl, 0, rfl⟩) (a := .cancelLocal 1 0)
      trivial ⟨rfl, 2, rfl⟩
  have hzero := ((hall _ hcancel).cancelled 0 ERR_GENERAL rfl).mpr
    TimerSystem.not_queued_cancelledOnce
  exact absurd hzero (by decide)

end Kernel
