import OpenBeOS.Kernel.OnePlace

/-! # A kill is not lost

A kill that finds a thread asleep wakes it, and one that finds it awake is seen before it sleeps or
when it leaves the kernel. `Alert` is the invariant behind this: what the kill finds in the thread
agrees with the queue that the thread is in, at every point of `acquire_sem_etc`.
-/

namespace Kernel

open SemError ThreadState Reachable Function Option

theorem Pc.not_blocking_ite {c : Prop} [Decidable c] {pc pc' : Pc} (h : ¬ pc.Blocking)
    (h' : ¬ pc'.Blocking) : ¬ (if c then pc else pc').Blocking := by
  split
  · exact h
  · exact h'

namespace Sched

variable {s s' : Sched} {lists lists' : QueueId → List Nat} {cpu t fuel : Nat}
  {skip : Nat → Bool} {pc : Pc}

/-! ## The invariant -/

/-- The thread can be interrupted in its wait. -/
def Interruptible (s : Sched) (t : Nat) : Prop :=
  (s.thread t).state = THREAD_STATE_WAITING ∧ (s.thread t).sem_flags &&& B_CAN_INTERRUPT ≠ 0

/-- A thread with a pending kill is not asleep, or a CPU is on the way to wake it. -/
def Roused (s : Sched) (lists : QueueId → List Nat) (t : Nat) : Prop :=
  s.Killed t = true → (s.thread t).state ≠ THREAD_STATE_SUSPENDED ∧
    (s.Interruptible t → ∀ slot, t ∈ lists (.sem slot) →
      ∃ c < s.cpus, ∃ rest, s.pc c = .sem_interrupt_thread t slot rest)

/-- The thread is in the queue of the semaphore that it says. -/
def WaitsFor (s : Sched) (t slot : Nat) : Prop :=
  (s.sems slot).id = (s.thread t).sem_blocking ∧ slot = Kernel.slot (s.thread t).sem_blocking ∧
    0 ≤ (s.thread t).sem_blocking

/-- What the thread of a CPU has announced at this point. -/
def Announces (s : Sched) (lists : QueueId → List Nat) (t : Nat) : Pc → Prop
  | .acquireBlocked id flags => (s.thread t).sem_flags = flags ∧ (s.thread t).sem_blocking = id
  | .acquireKilled id => (s.thread t).sem_blocking = id
  | .acquireWoken => ∀ slot, t ∉ lists (.sem slot)
  | _ => (s.thread t).next_state ≠ THREAD_STATE_WAITING

structure Alert (s : Sched) (lists : QueueId → List Nat) : Prop where
  roused : ∀ t, s.Roused lists t
  waits : ∀ slot, ∀ t ∈ lists (.sem slot), s.WaitsFor t slot
  announces : ∀ c < s.cpus, s.Announces lists (s.current c) (s.pc c)
  known : ∀ t, s.Killed t = true → t < s.next_thread_id

theorem announces_iff (hpc : ¬ pc.Blocking) :
    s.Announces lists t pc ↔ (s.thread t).next_state ≠ THREAD_STATE_WAITING := by
  cases pc with
  | acquireBlocked _ _ | acquireKilled _ | acquireWoken => exact absurd trivial hpc
  | _ => exact Iff.rfl

theorem roused_of_awake (hstate : (s.thread t).state ≠ THREAD_STATE_SUSPENDED)
    (hwaiting : (s.thread t).state ≠ THREAD_STATE_WAITING) : s.Roused lists t :=
  fun _ => ⟨hstate, fun hint => absurd hint.1 hwaiting⟩

theorem roused_of_ready (hstate : (s.thread t).state = THREAD_STATE_READY) : s.Roused lists t :=
  roused_of_awake (by rw [hstate]; nofun) (by rw [hstate]; nofun)

theorem roused_of_running (hstate : (s.thread t).state = THREAD_STATE_RUNNING) : s.Roused lists t :=
  roused_of_awake (by rw [hstate]; nofun) (by rw [hstate]; nofun)

theorem Roused.keep (h : s.Roused lists t) (hkilled : s'.Killed t = true → s.Killed t = true)
    (hstate : (s'.thread t).state = (s.thread t).state)
    (hflags : (s'.thread t).sem_flags = (s.thread t).sem_flags)
    (hsub : ∀ slot, t ∈ lists' (.sem slot) → t ∈ lists (.sem slot)) (hcpus : s'.cpus = s.cpus)
    (hpc : ∀ c slot rest, s.pc c = .sem_interrupt_thread t slot rest → t ∈ lists' (.sem slot) →
      s'.pc c = s.pc c) : s'.Roused lists' t := by
  intro hkill
  obtain ⟨hsuspended, hwoken⟩ := h (hkilled hkill)
  refine ⟨hstate ▸ hsuspended, fun hint slot ht => ?_⟩
  have hint' : s.Interruptible t := by
    unfold Interruptible at hint ⊢
    rwa [hstate, hflags] at hint
  obtain ⟨c, hc, rest, hc'⟩ := hwoken hint' slot (hsub slot ht)
  exact ⟨c, hcpus ▸ hc, rest, (hpc c slot rest hc' ht).trans hc'⟩

/-- What the invariant needs of a thread that did not act. -/
def Alike (s s' : Sched) (t : Nat) : Prop :=
  (s'.thread t).sem_flags = (s.thread t).sem_flags ∧
    (s'.thread t).sem_blocking = (s.thread t).sem_blocking ∧
    ((s'.thread t).next_state = THREAD_STATE_WAITING →
      (s.thread t).next_state = THREAD_STATE_WAITING)

theorem alike_of_eq (h : s'.thread t = s.thread t) : s.Alike s' t := by
  unfold Alike
  rw [h]
  exact ⟨rfl, rfl, id⟩

theorem Announces.keep (h : s.Announces lists t pc) (halike : s.Alike s' t)
    (hsub : ∀ slot, t ∈ lists' (.sem slot) → t ∈ lists (.sem slot)) :
    s'.Announces lists' t pc := by
  obtain ⟨hflags, hblocking, hnext⟩ := halike
  cases pc with
  | acquireBlocked id flags => exact ⟨hflags.trans h.1, hblocking.trans h.2⟩
  | acquireKilled id => exact hblocking.trans h
  | acquireWoken => exact fun slot ht => h slot (hsub slot ht)
  | _ => exact fun hwaiting => h (hnext hwaiting)

theorem WaitsFor.keep {slot : Nat} (h : s.WaitsFor t slot) (halike : s.Alike s' t)
    (hid : (s'.sems slot).id = (s.sems slot).id) : s'.WaitsFor t slot := by
  unfold WaitsFor
  rw [halike.2.1, hid]
  exact h

/-! ## What a section leaves alone -/

/-- The other CPUs, and the threads that wait or run elsewhere. -/
structure Frame (s : Sched) (cpu : Nat) (lists : QueueId → List Nat) (s' : Sched)
    (lists' : QueueId → List Nat) : Prop where
  cpus : s'.cpus = s.cpus
  others : ∀ c, c ≠ cpu → s'.pc c = s.pc c ∧ s'.current c = s.current c
  sem : ∀ slot, ∀ t ∈ lists' (.sem slot),
    t ∈ lists (.sem slot) ∧ (s'.sems slot).id = (s.sems slot).id
  waiting : ∀ slot, ∀ t ∈ lists (.sem slot), s.Alike s' t
  running : ∀ c < s.cpus, c ≠ cpu → s.Alike s' (s.current c)

theorem Alert.step (h : s.Alert lists) (hframe : s.Frame cpu lists s' lists')
    (hroused : ∀ t, s'.Roused lists' t)
    (hannounces : cpu < s.cpus → s'.Announces lists' (s'.current cpu) (s'.pc cpu))
    (hknown : ∀ t, s'.Killed t = true → t < s'.next_thread_id) : s'.Alert lists' := by
  refine ⟨hroused, fun slot t ht => ?_, fun c hc => ?_, hknown⟩
  · obtain ⟨hin, hid⟩ := hframe.sem slot t ht
    exact (h.waits slot t hin).keep (hframe.waiting slot t hin) hid
  · rw [hframe.cpus] at hc
    by_cases hccpu : c = cpu
    · rw [hccpu]
      exact hannounces (hccpu ▸ hc)
    · obtain ⟨hpc, hcurrent⟩ := hframe.others c hccpu
      rw [hpc, hcurrent]
      exact (h.announces c hc).keep (hframe.running c hc hccpu)
        fun slot ht => (hframe.sem slot _ ht).1

/-- The CPU gets to another point, and the threads stay as they are. -/
theorem Alert.turn (h : s.Alert lists) (hthread : s'.thread = s.thread)
    (hkilled : ∀ t, s'.Killed t = true → s.Killed t = true) (hcurrent : s'.current = s.current)
    (hcpus : s'.cpus = s.cpus) (hid : s'.next_thread_id = s.next_thread_id)
    (hids : ∀ slot, (s'.sems slot).id = (s.sems slot).id)
    (hpc : s'.pc = update s.pc cpu pc)
    (hinterrupt : ∀ t slot rest, s.pc cpu ≠ .sem_interrupt_thread t slot rest)
    (hsub : ∀ slot, ∀ t ∈ lists' (.sem slot), t ∈ lists (.sem slot))
    (hannounces : cpu < s.cpus → s.Announces lists (s.current cpu) pc) : s'.Alert lists' := by
  have hother : ∀ c, c ≠ cpu → s'.pc c = s.pc c := fun c hc => by
    rw [hpc, update_of_ne hc]
  have halike : ∀ t, s.Alike s' t := fun t => alike_of_eq (congrFun hthread t)
  have hframe : s.Frame cpu lists s' lists' :=
    ⟨hcpus, fun c hc => ⟨hother c hc, congrFun hcurrent c⟩,
      fun slot t ht => ⟨hsub slot t ht, hids slot⟩, fun _ t _ => halike t, fun c _ _ => halike _⟩
  refine h.step hframe (fun t => ?_) (fun hcpu => ?_) fun t ht => ?_
  · refine (h.roused t).keep (hkilled t) ?_ ?_ (fun slot => hsub slot t) hcpus ?_
    · rw [hthread]
    · rw [hthread]
    · exact fun c slot rest hc _ => hother c fun heq => hinterrupt t slot rest (heq ▸ hc)
  · rw [hpc, update_self, hcurrent]
    exact (hannounces hcpu).keep (halike _) fun slot => hsub slot _
  · rw [hid]
    exact h.known t (hkilled t ht)

/-- A thread changes, but not in what it waits for. -/
theorem Alert.modify (h : s.Alert lists) {f : Thread → Thread}
    (hflags : (f (s.thread t)).sem_flags = (s.thread t).sem_flags)
    (hblocking : (f (s.thread t)).sem_blocking = (s.thread t).sem_blocking)
    (hnext : (f (s.thread t)).next_state = THREAD_STATE_WAITING →
      (s.thread t).next_state = THREAD_STATE_WAITING)
    (hstate : s.Killed t = true → (f (s.thread t)).state = (s.thread t).state ∨
      (f (s.thread t)).state ≠ THREAD_STATE_SUSPENDED ∧
        (f (s.thread t)).state ≠ THREAD_STATE_WAITING) : (s.modify t f).Alert lists := by
  have hself := modify_self s t f
  have hother : ∀ t', t' ≠ t → (s.modify t f).thread t' = s.thread t' := fun t' ht' =>
    update_of_ne ht' ..
  have halike : ∀ t', s.Alike (s.modify t f) t' := by
    intro t'
    by_cases ht' : t' = t
    · rw [ht']
      unfold Alike
      rw [hself]
      exact ⟨hflags, hblocking, hnext⟩
    · exact alike_of_eq (hother t' ht')
  refine ⟨fun t' => ?_, fun slot t' ht' => (h.waits slot t' ht').keep (halike t') rfl,
    fun c hc => (h.announces c hc).keep (halike _) fun _ => id, h.known⟩
  have hkeep : ((s.modify t f).thread t').state = (s.thread t').state →
      (s.modify t f).Roused lists t' := fun hsame =>
    (h.roused t').keep id hsame (halike t').1 (fun _ => id) rfl fun _ _ _ _ _ => rfl
  by_cases ht' : t' = t
  · rw [ht'] at hkeep ⊢
    rw [hself] at hkeep
    intro hkill
    rcases hstate hkill with hsame | ⟨hsuspended, hwaiting⟩
    · exact hkeep hsame hkill
    · rw [← hself] at hsuspended hwaiting
      exact roused_of_awake hsuspended hwaiting hkill
  · exact hkeep (by rw [hother t' ht'])

theorem Alert.calm (h : s.Alert lists) (hcpu : cpu < s.cpus) (hblocking : ¬ (s.pc cpu).Blocking) :
    (s.thread (s.current cpu)).next_state ≠ THREAD_STATE_WAITING :=
  (announces_iff hblocking).mp (h.announces cpu hcpu)

/-! ## `thread_resched` -/

/-- The thread that gives up the CPU may sleep. -/
def MaySleep (s : Sched) (lists : QueueId → List Nat) (t : Nat) : Prop :=
  s.Killed t = true → (s.thread t).next_state ≠ THREAD_STATE_SUSPENDED ∧
    ((s.thread t).next_state = THREAD_STATE_WAITING →
      (s.thread t).sem_flags &&& B_CAN_INTERRUPT ≠ 0 → ∀ slot, t ∉ lists (.sem slot))

theorem Alert.resched (h : s.Alert lists) (hsleep : s.MaySleep lists (s.current cpu))
    (hresched : s.thread_resched cpu skip = some s') (hblocking : ¬ pc.Blocking)
    (hinterrupt : ∀ t slot rest, s.pc cpu ≠ .sem_interrupt_thread t slot rest)
    (hsub : ∀ slot, ∀ t ∈ lists' (.sem slot), t ∈ lists (.sem slot)) :
    (s'.setPc cpu pc).Alert lists' := by
  obtain ⟨p, next, -, heq⟩ := thread_resched_cases hresched
  obtain ⟨hthread, -⟩ := putBack_same (s.restate (s.current cpu)) (s.current cpu)
  obtain ⟨q, q_next, thread, priority, current, hsame⟩ := thread_resched_same hresched
  have hnext : s'.thread next = { s.restate (s.current cpu) |>.thread next with
      state := THREAD_STATE_RUNNING, next_state := THREAD_STATE_READY } := by
    rw [heq, ← hthread]
    exact update_self ..
  have hrest : ∀ t, t ≠ next → s'.thread t = (s.restate (s.current cpu)).thread t := by
    intro t ht
    rw [heq, ← hthread]
    exact update_of_ne ht ..
  have hcurrent : s'.current = update s.current cpu next := by rw [heq]
  have hpc : ∀ c, c ≠ cpu → (s'.setPc cpu pc).pc c = s.pc c := by
    intro c hc
    show update s'.pc cpu pc c = s.pc c
    rw [update_of_ne hc, hsame]
  -- the fields that the semaphores use stay, and only the next state READY is new
  have hrestate : ∀ t, s.Alike (s.restate (s.current cpu)) t := by
    intro t
    by_cases ht : t = s.current cpu
    · rw [ht]
      unfold Alike
      rw [restate_self]
      exact ⟨rfl, rfl, id⟩
    · exact alike_of_eq (restate_of_ne ht)
  have halike : ∀ t, s.Alike (s'.setPc cpu pc) t := by
    intro t
    obtain ⟨hflags, hblocks, hwaiting⟩ := hrestate t
    by_cases ht : t = next
    · have hself : (s'.setPc cpu pc).thread t = _ := ht ▸ hnext
      unfold Alike
      rw [hself]
      exact ⟨hflags, hblocks, nofun⟩
    · have hself : (s'.setPc cpu pc).thread t = _ := hrest t ht
      unfold Alike
      rw [hself]
      exact ⟨hflags, hblocks, hwaiting⟩
  have hkilled : ∀ t, (s'.setPc cpu pc).Killed t = s.Killed t := fun t => by
    rw [hsame]
    rfl
  have hcpus : (s'.setPc cpu pc).cpus = s.cpus := by
    rw [hsame]
    rfl
  have hframe : s.Frame cpu lists (s'.setPc cpu pc) lists' := by
    refine ⟨hcpus, fun c hc => ⟨hpc c hc, ?_⟩, fun slot t ht => ⟨hsub slot t ht, ?_⟩,
      fun _ t _ => halike t, fun c _ _ => halike _⟩
    · show s'.current c = s.current c
      rw [hcurrent, update_of_ne hc]
    · rw [hsame]
      rfl
  refine h.step hframe (fun t => ?_) (fun _ => ?_) fun t ht => ?_
  · by_cases htnext : t = next
    · refine roused_of_running ?_
      show (s'.thread t).state = THREAD_STATE_RUNNING
      rw [htnext, hnext]
    · have hself : (s'.setPc cpu pc).thread t = (s.restate (s.current cpu)).thread t := hrest t htnext
      by_cases htold : t = s.current cpu
      · -- the old thread goes to sleep now
        have hold : (s'.setPc cpu pc).thread t =
            { s.thread t with state := (s.thread t).next_state } := by
          rw [hself, htold, restate_self]
        intro hkill
        rw [hkilled t] at hkill
        rw [← htold] at hsleep
        obtain ⟨hsuspended, hwaiting⟩ := hsleep hkill
        unfold Interruptible
        rw [hold]
        exact ⟨hsuspended, fun hint slot ht =>
          absurd (hsub slot t ht) (hwaiting hint.1 hint.2 slot)⟩
      · have hold : (s'.setPc cpu pc).thread t = s.thread t := hself.trans (restate_of_ne htold)
        refine (h.roused t).keep (fun hkill => hkilled t ▸ hkill) (by rw [hold]) (by rw [hold])
          (fun slot => hsub slot t) hcpus fun c slot rest hc _ => ?_
        exact hpc c fun heq => hinterrupt t slot rest (heq ▸ hc)
  · have hidle : (s'.setPc cpu pc).pc cpu = pc := update_self ..
    have hself : (s'.setPc cpu pc).current cpu = next := by
      show s'.current cpu = next
      rw [hcurrent, update_self]
    rw [hidle, hself]
    refine (announces_iff hblocking).mpr ?_
    rw [show (s'.setPc cpu pc).thread next = _ from hnext]
    nofun
  · rw [hkilled t] at ht
    have hid : (s'.setPc cpu pc).next_thread_id = s.next_thread_id := by
      rw [hsame]
      rfl
    rw [hid]
    exact h.known t ht

theorem Alert.maySleep (h : s.Alert lists) (hcpu : cpu < s.cpus)
    (hblocking : ¬ (s.pc cpu).Blocking)
    (hsuspend : (s.thread (s.current cpu)).next_state = THREAD_STATE_SUSPENDED →
      s.Killed (s.current cpu) = false) : s.MaySleep lists (s.current cpu) := by
  intro hkill
  refine ⟨fun hnext => ?_, fun hnext => absurd hnext (h.calm hcpu hblocking)⟩
  rw [hsuspend hnext] at hkill
  exact Bool.false_ne_true hkill

/-! ## Semaphores -/

/-- Threads of a semaphore are made ready. -/
theorem Alert.moved (h : s.Alert lists) {slot : Nat} {sem : Sem} {queue : thread_queue}
    (hmoved : Moved slot cpu (s.sem slot) sem lists lists')
    (hid : sem.id = (s.sems slot).id ∨ lists' (.sem slot) = [])
    (hroused : ∀ t slot' rest, s.pc cpu = .sem_interrupt_thread t slot' rest →
      t ∉ lists' (.sem slot'))
    (hannounces : cpu < s.cpus → s.Announces lists' (s.current cpu) pc) :
    ((s.setSem cpu slot sem queue).setPc cpu pc).Alert lists' := by
  have hsub : ∀ slot', ∀ t ∈ lists' (.sem slot'), t ∈ lists (.sem slot') := by
    intro slot' t ht
    rcases hmoved.mem _ t ht with ht | ⟨hk, -⟩
    · exact ht
    · cases hk
  have halike : ∀ t, s.Alike ((s.setSem cpu slot sem queue).setPc cpu pc) t := fun t =>
    ⟨hmoved.sem_flags t, hmoved.sem_blocking t, fun hnext => (hmoved.next_state t).symm.trans hnext⟩
  have hpc : ∀ c, c ≠ cpu → ((s.setSem cpu slot sem queue).setPc cpu pc).pc c = s.pc c :=
    fun c hc => update_of_ne hc ..
  have hframe : s.Frame cpu lists ((s.setSem cpu slot sem queue).setPc cpu pc) lists' := by
    refine ⟨rfl, fun c hc => ⟨hpc c hc, rfl⟩, fun slot' t ht => ⟨hsub slot' t ht, ?_⟩,
      fun _ t _ => halike t, fun c _ _ => halike _⟩
    show (update s.sems slot _ slot').id = (s.sems slot').id
    by_cases hslot : slot' = slot
    · rw [hslot, update_self]
      refine hid.resolve_right fun hnil => ?_
      rw [hslot, hnil] at ht
      exact absurd ht List.not_mem_nil
    · rw [update_of_ne hslot]
  refine h.step hframe (fun t => ?_) (fun hcpu => ?_) h.known
  · rcases hmoved.state t with hstate | ⟨hstate, -⟩
    · refine (h.roused t).keep id hstate (halike t).1 (fun slot' => hsub slot' t) rfl
        fun c slot' rest hc ht => hpc c fun heq => ?_
      exact hroused t slot' rest (heq ▸ hc) ht
    · exact roused_of_ready hstate
  · show Sched.Announces _ lists' (s.current cpu) (update s.pc cpu pc cpu)
    rw [update_self]
    exact (hannounces hcpu).keep (halike _) fun _ => id

/-- The thread of the CPU gets into the queue. -/
theorem Alert.block (h : s.Alert lists) (hsound : s.Sound Always lists) (hcpu : cpu < s.cpus)
    (hblocking : ¬ (s.pc cpu).Blocking)
    (hinterrupt : ∀ t slot rest, s.pc cpu ≠ .sem_interrupt_thread t slot rest) {id count : Int}
    {flags : BitVec 32} (hpos : 0 ≤ id) (hid : (s.sems (slot id)).id = id)
    (hsub : ∀ slot', ∀ t ∈ lists' (.sem slot'),
      t ∈ lists (.sem slot') ∨ t = s.current cpu ∧ slot' = slot id) :
    ((s.setSem cpu (slot id) (({ s.sem (slot id) with
      count := (s.sem (slot id)).count - count }).block (s.current cpu) count flags)
        (s.q (.onStack cpu))).setPc cpu (.acquireBlocked id flags)).Alert lists' := by
  have hout := hsound.out hcpu hblocking
  have hrunning := hsound.running cpu hcpu trivial
  generalize hsem : ({ s.sem (slot id) with
    count := (s.sem (slot id)).count - count } : Sem).block (s.current cpu) count flags = sem
  have hself : (sem.thread (s.current cpu)).state = (s.thread (s.current cpu)).state ∧
      (sem.thread (s.current cpu)).sem_flags = flags ∧
      (sem.thread (s.current cpu)).sem_blocking = id := by
    rw [← hsem]
    unfold Sem.block Sem.modify
    dsimp only
    rw [update_self]
    exact ⟨rfl, rfl, hid⟩
  have hother : ∀ t, t ≠ s.current cpu → sem.thread t = s.thread t := by
    intro t ht
    rw [← hsem]
    exact update_of_ne ht ..
  have hids : ∀ slot', (update s.sems (slot id) ⟨sem.id, sem.count⟩ slot').id =
      (s.sems slot').id := by
    intro slot'
    by_cases hslot : slot' = slot id
    · rw [hslot, update_self, ← hsem]
      rfl
    · rw [update_of_ne hslot]
  have hpc : ∀ c, c ≠ cpu → update s.pc cpu (.acquireBlocked id flags) c = s.pc c :=
    fun c hc => update_of_ne hc ..
  refine ⟨fun t => ?_, fun slot' t ht => ?_, fun c hc => ?_, h.known⟩
  · by_cases ht : t = s.current cpu
    · rw [ht]
      rcases hrunning with hready | hrunning
      · exact roused_of_ready (hself.1.trans hready)
      · exact roused_of_running (hself.1.trans hrunning)
    · refine (h.roused t).keep (fun hkill => hkill) (congrArg Thread.state (hother t ht))
        (congrArg Thread.sem_flags (hother t ht)) (fun slot' ht' => ?_) rfl
        fun c slot' rest hc _ => hpc c fun heq => hinterrupt t slot' rest (heq ▸ hc)
      exact (hsub slot' t ht').resolve_right fun hcurrent => ht hcurrent.1
  · rcases hsub slot' t ht with ht | ⟨rfl, rfl⟩
    · have hne : t ≠ s.current cpu := fun heq => hout _ (heq ▸ ht)
      exact (h.waits slot' t ht).keep (alike_of_eq (hother t hne)) (hids slot')
    · refine ⟨?_, ?_, ?_⟩
      · exact (hids (slot id)).trans (hid.trans hself.2.2.symm)
      · exact congrArg slot hself.2.2.symm
      · exact le_of_le_of_eq hpos hself.2.2.symm
  · show Sched.Announces _ lists' (s.current c) (update s.pc cpu _ c)
    by_cases hccpu : c = cpu
    · rw [hccpu, update_self]
      exact hself.2
    · have hne : s.current c ≠ s.current cpu := fun heq => hccpu (hsound.distinct c hc cpu hcpu heq)
      rw [hpc c hccpu]
      exact (h.announces c hc).keep (alike_of_eq (hother _ hne)) fun slot' ht =>
        (hsub slot' _ ht).resolve_right fun hcurrent => hne hcurrent.1

/-! ## Signals -/

theorem killed_or (s : Sched) (t : Nat) : (s.pending_signals t ||| SIG_KILL) &&& SIG_KILL ≠ 0 := by
  have hbit : ∀ x : BitVec 32, (x ||| SIG_KILL) &&& SIG_KILL = SIG_KILL := by
    intro x
    unfold SIG_KILL
    ext i
    simp
    grind
  rw [hbit]
  decide

theorem suspend_or (x : BitVec 32) : (x ||| SIG_SUSPEND) &&& SIG_KILL = x &&& SIG_KILL := by
  unfold SIG_SUSPEND SIG_KILL
  ext i
  simp
  grind

theorem suspend_and (x : BitVec 32) : (x &&& ~~~SIG_SUSPEND) &&& SIG_KILL = x &&& SIG_KILL := by
  rw [BitVec.and_assoc]
  rfl

theorem kill_and (x : BitVec 32) : (x &&& ~~~SIG_KILL) &&& SIG_KILL = 0 := by
  rw [BitVec.and_assoc]
  simp [SIG_KILL]

def setPending (s : Sched) (t : Nat) (pending : BitVec 32) : Sched :=
  { s with pending_signals := update s.pending_signals t pending }

theorem killed_update {pending : BitVec 32} {t' : Nat}
    (hpending : pending &&& SIG_KILL ≠ 0 → s.Killed t = true)
    (hkill : decide (update s.pending_signals t pending t' &&& SIG_KILL ≠ 0) = true) :
    s.Killed t' = true := by
  by_cases ht : t' = t
  · rw [ht, update_self] at hkill
    rw [ht]
    exact hpending (of_decide_eq_true hkill)
  · rw [update_of_ne ht] at hkill
    exact hkill

/-- A kill is set, and the thread is awake, or a CPU goes to wake it. -/
theorem Alert.kill (h : s.Alert lists) (hframe : s.Frame cpu lists s' lists')
    (hpending : s'.pending_signals = update s.pending_signals t (s.pending_signals t ||| SIG_KILL))
    (hother : ∀ t', t' ≠ t → s'.thread t' = s.thread t')
    (hinterrupt : ∀ t slot rest, s.pc cpu ≠ .sem_interrupt_thread t slot rest)
    (hid : s'.next_thread_id = s.next_thread_id) (ht : t < s.next_thread_id)
    (hcurrent : s'.current cpu = s.current cpu) (halike : s.Alike s' (s.current cpu))
    (hblocking : ¬ (s.pc cpu).Blocking) (hblocking' : ¬ (s'.pc cpu).Blocking)
    (hroused : s'.Roused lists' t) : s'.Alert lists' := by
  have hkilled : ∀ t', t' ≠ t → (s'.Killed t' = true → s.Killed t' = true) := by
    intro t' ht' hkill
    unfold Killed at hkill
    rw [hpending, update_of_ne ht'] at hkill
    exact hkill
  refine h.step hframe (fun t' => ?_) (fun hcpu => ?_) fun t' ht' => ?_
  · by_cases heq : t' = t
    · rw [heq]
      exact hroused
    · refine (h.roused t').keep (hkilled t' heq) (by rw [hother t' heq]) (by rw [hother t' heq])
        (fun slot hin => (hframe.sem slot t' hin).1) hframe.cpus fun c slot rest hc _ => ?_
      exact (hframe.others c fun hccpu => hinterrupt t' slot rest (hccpu ▸ hc)).1
  · rw [hcurrent]
    exact (announces_iff hblocking').mpr fun hnext => h.calm hcpu hblocking (halike.2.2 hnext)
  · rw [hid]
    by_cases heq : t' = t
    · rw [heq]
      exact ht
    · exact h.known t' (hkilled t' heq ht')

theorem Alert.deliver_signal (h : s.Alert lists) (hsound : s.Sound Always lists)
    (hcpu : cpu < s.cpus) (hblocking : ¬ (s.pc cpu).Blocking)
    (hinterrupt : ∀ t slot rest, s.pc cpu ≠ .sem_interrupt_thread t slot rest) (t : Nat)
    (rest : Option (List Nat))
    (hsub : ∀ slot, ∀ t ∈ lists' (.sem slot), t ∈ lists (.sem slot)) :
    (s.deliver_signal cpu t rest).Alert lists' := by
  have hafter := Pc.not_blocking_afterKill rest
  unfold Sched.deliver_signal
  split
  · exact h.turn rfl (fun _ => id) rfl rfl rfl (fun _ => rfl) rfl hinterrupt hsub fun _ =>
      (announces_iff hafter).mpr (h.calm hcpu hblocking)
  · rename_i hnot
    have ht : t < s.next_thread_id := by
      refine hsound.hashed t ?_
      by_contra hhash
      exact hnot (Or.inl (Bool.not_eq_true _ ▸ hhash))
    -- the threads stay as they are
    have hstay : ∀ {pc : Pc}, ¬ pc.Blocking →
        ((s.setPending t (s.pending_signals t ||| SIG_KILL)).setPc cpu pc).Roused lists' t →
        ((s.setPending t (s.pending_signals t ||| SIG_KILL)).setPc cpu pc).Alert lists' := by
      intro pc hpc hroused
      have hpcpu : update s.pc cpu pc cpu = pc := update_self ..
      refine h.kill ⟨rfl, fun c hc => ⟨update_of_ne hc .., rfl⟩,
        fun slot t' ht' => ⟨hsub slot t' ht', rfl⟩, fun _ _ _ => alike_of_eq rfl,
        fun _ _ _ => alike_of_eq rfl⟩ rfl (fun _ _ => rfl) hinterrupt rfl ht rfl (alike_of_eq rfl)
        hblocking ?_ hroused
      show ¬ (update s.pc cpu pc cpu).Blocking
      rw [hpcpu]
      exact hpc
    dsimp only
    split
    · rename_i hstate
      -- the thread is woken
      have halike : ∀ t', s.Alike ((((s.setPending t (s.pending_signals t ||| SIG_KILL)).modify t
          fun thread =>
            { thread with state := THREAD_STATE_READY, next_state := THREAD_STATE_READY }
          ).thread_enqueue_run_q t).setPc cpu (.afterKill rest)) t' := by
        intro t'
        by_cases ht' : t' = t
        · unfold Alike
          show (update s.thread t _ t').sem_flags = _ ∧ (update s.thread t _ t').sem_blocking = _ ∧
            ((update s.thread t _ t').next_state = _ → _)
          rw [ht', update_self]
          exact ⟨rfl, rfl, nofun⟩
        · exact alike_of_eq (update_of_ne ht' ..)
      refine h.kill ⟨rfl, fun c hc => ⟨update_of_ne hc .., rfl⟩,
        fun slot t' ht' => ⟨hsub slot t' ht', rfl⟩, fun _ t' _ => halike t',
        fun c _ _ => halike _⟩ rfl (fun t' ht' => update_of_ne ht' ..) hinterrupt rfl ht
        rfl (halike _) hblocking ?_ ?_
      · show ¬ (update s.pc cpu _ cpu).Blocking
        rw [update_self]
        exact hafter
      · refine roused_of_ready ?_
        show (update s.thread t _ t).state = THREAD_STATE_READY
        rw [update_self]
    · rename_i hstate
      have hsuspended : (s.thread t).state ≠ THREAD_STATE_SUSPENDED := by rw [hstate]; nofun
      split
      · rename_i hint
        refine hstay (fun hpc => hpc) fun _ => ⟨hsuspended, fun _ slot ht' => ?_⟩
        have hwaits := h.waits slot t (hsub slot t ht')
        refine ⟨cpu, hcpu, rest, ?_⟩
        show update s.pc cpu _ cpu = _
        rw [update_self, hwaits.2.1]
      · rename_i hnint
        refine hstay hafter fun _ => ⟨hsuspended, fun hint slot ht' => ?_⟩
        have hwaits := h.waits slot t (hsub slot t ht')
        exact absurd ⟨hwaits.2.2, hint.2⟩ hnint
    · rename_i hsuspended hwaiting
      exact hstay hafter (roused_of_awake hsuspended hwaiting)

theorem Alert.pending (h : s.Alert lists) {pending_signals : Nat → BitVec 32}
    (hkilled : ∀ t, decide (pending_signals t &&& SIG_KILL ≠ 0) = true → s.Killed t = true)
    (in_kernel exiting : Nat → Bool) :
    Alert { s with pending_signals, in_kernel, exiting } lists :=
  ⟨fun t => (h.roused t).keep (hkilled t) rfl rfl (fun _ => id) rfl fun _ _ _ _ _ => rfl,
    fun slot t ht => (h.waits slot t ht).keep (alike_of_eq rfl) rfl,
    fun c hc => (h.announces c hc).keep (alike_of_eq rfl) fun _ => id,
    fun t ht => h.known t (hkilled t ht)⟩

theorem Alert.check_for_thread_sigs (h : s.Alert lists) (hcpu : cpu < s.cpus)
    (hblocking : ¬ (s.pc cpu).Blocking)
    (hinterrupt : ∀ t slot rest, s.pc cpu ≠ .sem_interrupt_thread t slot rest) {r : Bool × Sched}
    (hr : s.check_for_thread_sigs cpu skip = some r)
    (hsub : ∀ slot, ∀ t ∈ lists' (.sem slot), t ∈ lists (.sem slot)) :
    (r.2.setPc cpu .idle).Alert lists' := by
  have hidle : s.Announces lists (s.current cpu) .idle := h.calm hcpu hblocking
  unfold Sched.check_for_thread_sigs at hr
  dsimp only at hr
  split at hr
  · cases hr
    exact h.turn rfl (fun _ => id) rfl rfl rfl (fun _ => rfl) rfl hinterrupt hsub fun _ => hidle
  · split at hr
    · cases hr
      refine h.turn rfl (fun t => killed_update fun hkill => ?_) rfl rfl rfl (fun _ => rfl) rfl
        hinterrupt hsub fun _ => hidle
      exact absurd (kill_and _) hkill
    · rename_i hnot
      split at hr
      · obtain ⟨s₁, hs₁, rfl⟩ := map_eq_some_iff.mp hr
        have hsuspend : (s.pending_signals (s.current cpu) &&& ~~~SIG_SUSPEND) &&& SIG_KILL ≠ 0 →
            s.Killed (s.current cpu) = true := fun hkill => by
          rw [suspend_and] at hkill
          exact decide_eq_true hkill
        have hpending : (s.setPending (s.current cpu)
            (s.pending_signals (s.current cpu) &&& ~~~SIG_SUSPEND)).Alert lists :=
          h.pending (fun t => killed_update hsuspend) s.in_kernel s.exiting
        have hmodify := hpending.modify (t := s.current cpu) (f := fun thread =>
          { thread with next_state := THREAD_STATE_SUSPENDED }) rfl rfl nofun fun _ => Or.inl rfl
        exact hmodify.resched (fun hkill => absurd (killed_update hsuspend hkill) hnot) hs₁ id
          hinterrupt hsub
      · cases hr
        exact h.turn rfl (fun _ => id) rfl rfl rfl (fun _ => rfl) rfl hinterrupt hsub fun _ => hidle

/-! ## One section -/

theorem thread_set_priority_same {priority : Int}
    (h : s.thread_set_priority fuel t priority = some s') :
    ∃ q q_next priority, s' = { s with q, q_next, priority } := by
  unfold thread_set_priority at h
  split at h
  · exact ⟨s.q, s.q_next, s.priority, (Option.some.inj h).symm⟩
  · split at h
    · obtain ⟨r, -, rfl⟩ := map_eq_some_iff.mp h
      exact ⟨_, _, _, rfl⟩
    · cases h
      exact ⟨_, _, _, rfl⟩

/-- A new thread has no pending signals. -/
theorem Alert.create (h : s.Alert lists) (hsound : s.Sound Always lists) (hcpu : cpu < s.cpus)
    (hblocking : ¬ (s.pc cpu).Blocking)
    (hinterrupt : ∀ t slot rest, s.pc cpu ≠ .sem_interrupt_thread t slot rest) (priority : Int)
    (p : Proc) (alive : Bool) (hsub : ∀ slot, ∀ t ∈ lists' (.sem slot), t ∈ lists (.sem slot)) :
    ((s.create_thread_struct priority).setPc cpu (.createHashed s.next_thread_id p alive)).Alert
      lists' := by
  generalize hs' : (s.create_thread_struct priority).setPc cpu
    (.createHashed s.next_thread_id p alive) = s'
  have hthread : ∀ t, t < s.next_thread_id → s'.thread t = s.thread t := fun t ht => by
    rw [← hs']
    exact update_of_ne (Nat.ne_of_lt ht) ..
  have hcurrent : s'.current = s.current := by rw [← hs']; rfl
  have hpc : ∀ c, c ≠ cpu → s'.pc c = s.pc c := fun c hc => by
    rw [← hs']
    exact update_of_ne hc ..
  have hkilled : ∀ t, s'.Killed t = true → s.Killed t = true := by
    intro t hkill
    rw [← hs'] at hkill
    exact killed_update (fun hne => absurd (BitVec.zero_and) hne) hkill
  have hframe : s.Frame cpu lists s' lists' := by
    refine ⟨by rw [← hs']; rfl, fun c hc => ⟨hpc c hc, congrFun hcurrent c⟩,
      fun slot t ht => ⟨hsub slot t ht, by rw [← hs']; rfl⟩, fun slot t ht => ?_, fun c hc _ => ?_⟩
    · exact alike_of_eq (hthread t (hsound.queued.made _ t ht))
    · exact alike_of_eq (hthread _ (hsound.made c hc))
  refine h.step hframe (fun t => ?_) (fun _ => ?_) fun t ht => ?_
  · by_cases ht : s.Killed t = true
    · have hold := hthread t (h.known t ht)
      refine (h.roused t).keep (hkilled t) (by rw [hold]) (by rw [hold]) (fun slot => hsub slot t)
        hframe.cpus fun c slot rest hc _ => ?_
      exact hpc c fun heq => hinterrupt t slot rest (heq ▸ hc)
    · exact fun hkill => absurd (hkilled t hkill) ht
  · have hself : s'.pc cpu = .createHashed s.next_thread_id p alive := by
      rw [← hs']
      exact update_self ..
    have hold := hthread _ (hsound.made cpu hcpu)
    rw [hself, hcurrent]
    show (s'.thread (s.current cpu)).next_state ≠ THREAD_STATE_WAITING
    rw [hold]
    exact h.calm hcpu hblocking
  · have hid : s'.next_thread_id = s.next_thread_id + 1 := by rw [← hs']; rfl
    rw [hid]
    exact Nat.lt_succ_of_lt (h.known t (hkilled t ht))

/-- No thread is put to sleep until it is resumed that has a pending kill. -/
def SleepSafe (s : Sched) (cpu : Nat) : Pc → Prop
  | .releaseWoken _ _ | .deleteWoken | .thread_resched | .putReleased =>
    (s.thread (s.current cpu)).next_state = THREAD_STATE_SUSPENDED →
      s.Killed (s.current cpu) = false
  | _ => True

theorem Sound.plugged_unique {ok : Nat → Prop} {slot : Nat} {sem : Sem} {queue : thread_queue}
    {lists₁ : QueueId → List Nat}
    (h : ((s.setSem cpu slot sem queue).setPc cpu pc).Sound ok lists')
    (hplugged : sem.Plugged s.q slot cpu queue lists₁) : lists₁ = lists' :=
  funext fun k => (hplugged.holds k).unique (h.queued.queues.holds k)

section

variable (h : s.Alert lists)
include h

theorem Alert.wake_turn (hcpu : cpu < s.cpus)
    (hblocking : ¬ (s.pc cpu).Blocking)
    (hinterrupt : ∀ t slot rest, s.pc cpu ≠ .sem_interrupt_thread t slot rest)
    (hpc : ¬ pc.Blocking)
    (hwake : (Sched.wakeAll cpu fuel s).map (fun s => s.setPc cpu pc) = some s')
    (hsub : ∀ slot, ∀ t ∈ lists' (.sem slot), t ∈ lists (.sem slot)) : s'.Alert lists' := by
  obtain ⟨s₁, hs₁, rfl⟩ := map_eq_some_iff.mp hwake
  obtain ⟨q, q_next, priority, rfl⟩ := wakeAll_same hs₁
  exact h.turn rfl (fun _ => id) rfl rfl rfl (fun _ => rfl) rfl hinterrupt hsub fun _ =>
    (announces_iff hpc).mpr (h.calm hcpu hblocking)

theorem Alert.wake_yield
    (hsleep : s.MaySleep lists (s.current cpu))
    (hinterrupt : ∀ t slot rest, s.pc cpu ≠ .sem_interrupt_thread t slot rest)
    (hpc : ¬ pc.Blocking)
    (hwake : ((Sched.wakeAll cpu fuel s).bind fun s =>
      (s.thread_resched cpu skip).map fun s => s.setPc cpu pc) = some s')
    (hsub : ∀ slot, ∀ t ∈ lists' (.sem slot), t ∈ lists (.sem slot)) : s'.Alert lists' := by
  obtain ⟨s₁, hs₁, hresched⟩ := bind_eq_some_iff.mp hwake
  obtain ⟨q, q_next, priority, rfl⟩ := wakeAll_same hs₁
  obtain ⟨s₂, hs₂, rfl⟩ := map_eq_some_iff.mp hresched
  have hwoken : Sched.Alert { s with q, q_next, priority } lists :=
    ⟨h.roused, h.waits, h.announces, h.known⟩
  exact hwoken.resched hsleep hs₂ hpc hinterrupt hsub

/-- The sections of the threads that block. -/
theorem Alert.run_blocking (hsound : s.Sound Always lists)
    (hcpu : cpu < s.cpus) (hblocking : (s.pc cpu).Blocking)
    (hrun : s.run cpu fuel skip = some s') (hsound' : s'.Sound Always lists')
    (hsub : ∀ slot, ∀ t ∈ lists' (.sem slot), t ∈ lists (.sem slot)) : s'.Alert lists' := by
  have hinterrupt : ∀ t slot rest, s.pc cpu ≠ .sem_interrupt_thread t slot rest := by
    intro t slot rest heq
    rw [heq] at hblocking
    exact hblocking
  have hidle : ¬ Pc.idle.Blocking := fun hpc => hpc
  have hannounced := hsound.announced cpu hcpu trivial hblocking
  have hannounces := h.announces cpu hcpu
  -- the thread is to wait, not to be suspended
  have hsleep : ((s.thread (s.current cpu)).sem_flags &&& B_CAN_INTERRUPT ≠ 0 →
      s.Killed (s.current cpu) = true → ∀ slot, s.current cpu ∉ lists (.sem slot)) →
      s.MaySleep lists (s.current cpu) := by
    intro hwaits hkill
    refine ⟨?_, fun _ hflags => hwaits hflags hkill⟩
    rw [hannounced]
    nofun
  unfold Sched.run at hrun
  generalize hpc : s.pc cpu = pc at hrun
  cases pc with
  | acquireBlocked id flags =>
    rw [hpc] at hannounces
    dsimp only at hrun
    split at hrun
    · cases hrun
      exact h.turn rfl (fun _ hkill => hkill) rfl rfl rfl (fun _ => rfl) rfl hinterrupt hsub
        fun _ => hannounces.2
    · rename_i hnot
      obtain ⟨s₁, hs₁, rfl⟩ := map_eq_some_iff.mp hrun
      refine h.resched (hsleep fun hflags hkill => ?_) hs₁ hidle hinterrupt hsub
      rw [hannounces.1] at hflags
      exact absurd ⟨hflags, hkill⟩ hnot
  | acquireKilled id =>
    rw [hpc] at hannounces
    dsimp only at hrun
    split at hrun
    · obtain ⟨r, hr, rfl⟩ := map_eq_some_iff.mp hrun
      obtain ⟨⟨result, sem, queue⟩, hsem, rfl⟩ := map_eq_some_iff.mp hr
      have hwoken : ¬ (s.pc cpu).Woken := by rw [hpc]; exact fun hpc => hpc
      obtain ⟨lists₁, hplugged, hmoved, hid, hout⟩ :=
        (hsound.plugged (hsound.onStack_nil hwoken) (slot id)).remove hsem
      obtain rfl := hsound'.plugged_unique hplugged
      refine h.moved hmoved (Or.inl hid) (fun t slot' rest heq => ?_) fun _ slot' ht => ?_
      · exact absurd heq (hinterrupt t slot' rest)
      · -- it waited for this semaphore
        have hwaits := h.waits slot' _ (hsub slot' _ ht)
        rw [hwaits.2.1, show (s.thread (s.current cpu)).sem_blocking = id from hannounces] at ht
        exact hout ht
    · rename_i hgone
      cases hrun
      refine h.turn rfl (fun _ hkill => hkill) rfl rfl rfl (fun _ => rfl) rfl hinterrupt
        hsub fun _ slot' ht => ?_
      have hwaits := h.waits slot' _ ht
      have hid : (s.thread (s.current cpu)).sem_blocking = id := hannounces
      rw [hwaits.2.1, hid] at hwaits
      exact hgone (hwaits.1.trans hid)
  | acquireWoken =>
    rw [hpc] at hannounces
    exact h.wake_yield (hsleep fun _ _ => hannounces) hinterrupt hidle hrun hsub
  | _ =>
    rw [hpc] at hblocking
    exact absurd hblocking id

/-- The section that wakes the thread that was killed. -/
theorem Alert.run_interrupt (hsound : s.Sound Always lists)
    (hblocking : ¬ (s.pc cpu).Blocking) (hcpu : cpu < s.cpus) {t slot : Nat}
    {rest : Option (List Nat)} (hpc : s.pc cpu = .sem_interrupt_thread t slot rest)
    (hrun : s.run cpu fuel skip = some s') (hsound' : s'.Sound Always lists') :
    s'.Alert lists' := by
  have hwoken : ¬ (s.pc cpu).Woken := by rw [hpc]; exact fun hpc => hpc
  unfold Sched.run at hrun
  rw [hpc] at hrun
  dsimp only at hrun
  split at hrun
  · obtain ⟨r, hr, hrest⟩ := bind_eq_some_iff.mp hrun
    split at hrest
    · cases hrest
    · cases hrest
      obtain ⟨⟨result, sem, queue⟩, hsem, rfl⟩ := map_eq_some_iff.mp hr
      obtain ⟨lists₁, hplugged, hmoved, hid, hout⟩ :=
        (hsound.plugged (hsound.onStack_nil hwoken) slot).remove hsem
      obtain rfl := hsound'.plugged_unique hplugged
      refine h.moved hmoved (Or.inl hid) (fun t' slot' rest' heq => ?_) fun _ => ?_
      · obtain ⟨rfl, rfl, -⟩ := Pc.sem_interrupt_thread.inj (hpc.symm.trans heq)
        exact hout
      · show (s.thread (s.current cpu)).next_state ≠ THREAD_STATE_WAITING
        exact h.calm hcpu hblocking
  · cases hrun

/-- The other sections, without those that kill. -/
theorem Alert.run_other (hsound : s.Sound Always lists)
    (hcpu : cpu < s.cpus) (hsafe : s.SleepSafe cpu (s.pc cpu))
    (hblocking : ¬ (s.pc cpu).Blocking)
    (hinterrupt : ∀ t slot rest, s.pc cpu ≠ .sem_interrupt_thread t slot rest)
    (hacquire : ∀ id count flags timeout, s.pc cpu ≠ .acquire_sem_etc id count flags timeout)
    (hrun : s.run cpu fuel skip = some s') (hsound' : s'.Sound Always lists')
    (hsub : ∀ slot, ∀ t ∈ lists' (.sem slot), t ∈ lists (.sem slot)) : s'.Alert lists' := by
  have hidle : ¬ Pc.idle.Blocking := fun hpc => hpc
  have hcalm := h.calm hcpu hblocking
  have hannounces : ∀ {pc : Pc}, ¬ pc.Blocking → cpu < s.cpus →
      s.Announces lists (s.current cpu) pc := fun hpc _ => (announces_iff hpc).mpr hcalm
  unfold Sched.run at hrun
  generalize hpc : s.pc cpu = pc at hrun
  cases pc with
  | idle =>
    cases hrun
  | acquireBlocked _ _ | acquireKilled _ | acquireWoken =>
    rw [hpc] at hblocking
    exact absurd trivial hblocking
  | acquire_sem_etc id count flags timeout => exact absurd hpc (hacquire id count flags timeout)
  | sem_interrupt_thread t slot rest => exact absurd hpc (hinterrupt t slot rest)
  | release_sem_etc id count flags death =>
    have hwoken : ¬ (s.pc cpu).Woken := by rw [hpc]; exact fun hpc => hpc
    obtain ⟨⟨err, sem, queue⟩, hsem, rfl⟩ := map_eq_some_iff.mp hrun
    obtain ⟨lists₁, hplugged, hmoved, hid⟩ :=
      (hsound.plugged (hsound.onStack_nil hwoken) (slot id)).release hsem
    obtain rfl := hsound'.plugged_unique hplugged
    refine h.moved hmoved (Or.inl hid) (fun t slot' rest heq => ?_) fun _ => ?_
    · exact absurd heq (hinterrupt t slot' rest)
    · have hnext : ¬ (Pc.releaseWoken flags death).Blocking := fun hpc => hpc
      exact (announces_iff (Pc.not_blocking_ite (Pc.not_blocking_afterRelease death)
        hnext)).mpr hcalm
  | releaseWoken flags death =>
    rw [hpc] at hsafe
    have hafter := Pc.not_blocking_afterRelease death
    obtain ⟨s₁, hs₁, hrest⟩ := bind_eq_some_iff.mp hrun
    split at hrest
    · exact h.wake_yield (h.maySleep hcpu hblocking hsafe) hinterrupt hafter
        (bind_eq_some_iff.mpr ⟨s₁, hs₁, hrest⟩) hsub
    · exact h.wake_turn hcpu hblocking hinterrupt hafter
        (map_eq_some_iff.mpr ⟨s₁, hs₁, Option.some.inj hrest⟩) hsub
  | delete_sem_etc id return_code =>
    have hwoken : ¬ (s.pc cpu).Woken := by rw [hpc]; exact fun hpc => hpc
    obtain ⟨⟨sem, queue⟩, hsem, rfl⟩ := map_eq_some_iff.mp hrun
    obtain ⟨lists₁, hplugged, hmoved, hid⟩ :=
      (hsound.plugged (hsound.onStack_nil hwoken) (slot id)).delete hsem
    obtain rfl := hsound'.plugged_unique hplugged
    refine h.moved hmoved hid (fun t slot' rest heq => ?_) fun _ => ?_
    · exact absurd heq (hinterrupt t slot' rest)
    · have hnext : ¬ Pc.deleteWoken.Blocking := fun hpc => hpc
      exact (announces_iff (Pc.not_blocking_ite hidle hnext)).mpr hcalm
  | deleteWoken =>
    rw [hpc] at hsafe
    exact h.wake_yield (h.maySleep hcpu hblocking hsafe) hinterrupt hidle hrun hsub
  | sem_timeout id t =>
    cases hrun
    exact h.turn rfl (fun _ hkill => hkill) rfl rfl rfl (fun _ => rfl) rfl hinterrupt hsub
      (hannounces (Pc.not_blocking_ite (fun hpc => hpc) hidle))
  | timeoutFound id t =>
    have hwoken : ¬ (s.pc cpu).Woken := by rw [hpc]; exact fun hpc => hpc
    dsimp only at hrun
    split at hrun
    · obtain ⟨r, hr, rfl⟩ := map_eq_some_iff.mp hrun
      obtain ⟨⟨result, sem, queue⟩, hsem, rfl⟩ := map_eq_some_iff.mp hr
      obtain ⟨lists₁, hplugged, hmoved, hid, -⟩ :=
        (hsound.plugged (hsound.onStack_nil hwoken) (slot id)).remove hsem
      obtain rfl := hsound'.plugged_unique hplugged
      refine h.moved hmoved (Or.inl hid) (fun t slot' rest heq => ?_) fun _ => hcalm
      exact absurd heq (hinterrupt t slot' rest)
    · cases hrun
  | timeoutWoken =>
    exact h.wake_turn hcpu hblocking hinterrupt hidle hrun hsub
  | kill t rest =>
    cases hrun
    exact h.deliver_signal hsound hcpu hblocking hinterrupt t rest hsub
  | interruptWoken rest =>
    exact h.wake_turn hcpu hblocking hinterrupt (Pc.not_blocking_afterKill rest) hrun hsub
  | killLoop ts =>
    cases hrun
    exact h.turn rfl (fun _ hkill => hkill) rfl rfl rfl (fun _ => rfl) rfl hinterrupt hsub
      (hannounces (Pc.not_blocking_afterKill _))
  | thread_suspend_thread t =>
    cases hrun
    unfold Sched.thread_suspend_thread
    split
    · exact h.turn rfl (fun _ hkill => hkill) rfl rfl rfl (fun _ => rfl) rfl hinterrupt hsub
        (hannounces hidle)
    · split
      · refine h.turn rfl (fun t' => killed_update fun hkill => ?_) rfl rfl rfl (fun _ => rfl) rfl
          hinterrupt hsub (hannounces hidle)
        rw [suspend_or] at hkill
        exact decide_eq_true hkill
      · have hmodify := h.modify (t := t) (f := fun thread =>
          { thread with next_state := THREAD_STATE_SUSPENDED }) rfl rfl nofun fun _ => Or.inl rfl
        exact hmodify.turn rfl (fun _ hkill => hkill) rfl rfl rfl (fun _ => rfl) rfl hinterrupt
          hsub fun _ => (announces_iff hidle).mpr (hmodify.calm hcpu hblocking)
  | thread_resume_thread t =>
    cases hrun
    unfold Sched.thread_resume_thread
    split
    · have hmodify := h.modify (t := t) (f := fun thread =>
        { thread with state := THREAD_STATE_READY, next_state := THREAD_STATE_READY }) rfl rfl
        nofun fun _ => Or.inr ⟨nofun, nofun⟩
      exact hmodify.turn rfl (fun _ hkill => hkill) rfl rfl rfl (fun _ => rfl) rfl hinterrupt
        hsub fun _ => (announces_iff hidle).mpr (hmodify.calm hcpu hblocking)
    · exact h.turn rfl (fun _ hkill => hkill) rfl rfl rfl (fun _ => rfl) rfl hinterrupt hsub
        (hannounces hidle)
  | thread_set_priority t priority =>
    obtain ⟨s₁, hs₁, rfl⟩ := map_eq_some_iff.mp hrun
    obtain ⟨q, q_next, priority, rfl⟩ := thread_set_priority_same hs₁
    exact h.turn rfl (fun _ hkill => hkill) rfl rfl rfl (fun _ => rfl) rfl hinterrupt hsub
      (hannounces hidle)
  | thread_resched | putReleased =>
    rw [hpc] at hsafe
    obtain ⟨s₁, hs₁, rfl⟩ := map_eq_some_iff.mp hrun
    exact h.resched (h.maySleep hcpu hblocking hsafe) hs₁ hidle hinterrupt hsub
  | thread_atkernel_entry =>
    obtain ⟨r, hr, rfl⟩ := map_eq_some_iff.mp hrun
    have hinside : (s.setInKernel (s.current cpu) true).Alert lists :=
      h.pending (fun _ hkill => hkill) _ s.exiting
    exact hinside.check_for_thread_sigs hcpu hblocking hinterrupt hr hsub
  | thread_atkernel_exit =>
    obtain ⟨r, hr, rfl⟩ := map_eq_some_iff.mp hrun
    have hchecked := h.check_for_thread_sigs hcpu hblocking hinterrupt hr hsub
    split
    · exact hchecked.pending (fun _ hkill => hkill) _ r.2.exiting
    · exact hchecked
  | create_thread priority p alive =>
    cases hrun
    exact h.create hsound hcpu hblocking hinterrupt priority p alive hsub
  | createHashed t p alive | thread_exit2 index | createAborted t | thread_exit =>
    cases hrun
    exact h.turn rfl (fun _ hkill => hkill) rfl rfl rfl (fun _ => rfl) rfl hinterrupt hsub
      (hannounces fun hpc => hpc)
  | createInserted t p alive =>
    cases hrun
    split
    · exact h.turn rfl (fun _ hkill => hkill) rfl rfl rfl (fun _ => rfl) rfl hinterrupt hsub
        (hannounces hidle)
    · exact h.turn rfl (fun _ hkill => hkill) rfl rfl rfl (fun _ => rfl) rfl hinterrupt hsub
        (hannounces fun hpc => hpc)
  | exitRemoved index =>
    cases hrun
    have hmodify := h.modify (t := s.current cpu) (f := fun thread =>
      { thread with next_state := THREAD_STATE_FREE_ON_RESCHED }) rfl rfl nofun fun _ => Or.inl rfl
    have hnext : ¬ (Pc.put_death_stack_and_reschedule index).Blocking := fun hpc => hpc
    exact hmodify.turn rfl (fun _ hkill => hkill) rfl rfl rfl (fun _ => rfl) rfl hinterrupt
      hsub fun _ => (announces_iff hnext).mpr (hmodify.calm hcpu hblocking)
  | get_death_stack =>
    dsimp only at hrun
    split at hrun
    · cases hrun
    · cases hrun
      exact h.turn rfl (fun _ hkill => hkill) rfl rfl rfl (fun _ => rfl) rfl hinterrupt hsub
        (hannounces hidle)
  | put_death_stack_and_reschedule index =>
    dsimp only at hrun
    split at hrun
    · cases hrun
      exact h.turn rfl (fun _ hkill => hkill) rfl rfl rfl (fun _ => rfl) rfl hinterrupt hsub
        (hannounces fun hpc => hpc)
    · cases hrun

end

/-! ## Runs -/

/-- The steps of a run that loses no kill: those of `OnceSafe`, of which none puts a thread with a
pending kill to sleep until it is resumed, and `_create_thread` ends with a thread that was not
killed. -/
def KillSafeStep (s : Sched) : SchedAction → Prop
  | .run cpu _ _ => s.OnceSafe cpu (s.pc cpu) ∧ s.SleepSafe cpu (s.pc cpu)
  | .created t => s.Killed t = false
  | _ => True

theorem KillSafeStep.once {a : SchedAction} (h : s.KillSafeStep a) : s.OnceSafeStep a := by
  cases a with
  | run cpu fuel skip => exact h.1
  | _ => trivial

theorem Alert.run (h : s.Alert lists) (hsound : s.Sound Always lists) (hcpu : cpu < s.cpus)
    (honce : s.OnceSafe cpu (s.pc cpu)) (hsleep : s.SleepSafe cpu (s.pc cpu))
    (hrun : s.run cpu fuel skip = some s') :
    ∃ lists', s'.Sound Always lists' ∧ s'.Alert lists' := by
  obtain ⟨lists', hsound', hmem⟩ := hsound.run hcpu honce hrun
  refine ⟨lists', hsound', ?_⟩
  by_cases hacquire : ∃ id count flags timeout, s.pc cpu = .acquire_sem_etc id count flags timeout
  · obtain ⟨id, count, flags, timeout, hpc⟩ := hacquire
    have hblocking : ¬ (s.pc cpu).Blocking := by rw [hpc]; exact fun hpc => hpc
    have hinterrupt : ∀ t slot rest, s.pc cpu ≠ .sem_interrupt_thread t slot rest := by
      rw [hpc]
      nofun
    have hmem' : ∀ slot', ∀ t ∈ lists' (.sem slot'), t ∈ lists (.sem slot') ∨
        (t = s.current cpu ∧ slot' = slot id) ∧ s'.pc cpu = .acquireBlocked id flags := by
      intro slot' t ht
      refine (hmem slot' t ht).imp_right ?_
      rintro ⟨hcurrent, id', flags', hpc', hslot, count', timeout', heq⟩
      obtain ⟨rfl, -, rfl, -⟩ := Pc.acquire_sem_etc.inj (hpc.symm.trans heq)
      exact ⟨⟨hcurrent, hslot⟩, hpc'⟩
    unfold Sched.run at hrun
    rw [hpc] at hrun
    cases hrun
    rcases acquire_cases (s.sem (slot id)) (s.current cpu) id count flags timeout
      (s.Killed (s.current cpu)) with ⟨hreturns, -, -, hthread, hid⟩ | ⟨hid, hblocks⟩
    · rw [if_neg hreturns] at hmem' ⊢
      refine h.turn hthread (fun _ hkill => hkill) rfl rfl rfl (fun slot' => ?_) rfl hinterrupt
        (fun slot' t ht => (hmem' slot' t ht).resolve_right ?_) fun hcpu => h.calm hcpu hblocking
      · show (update s.sems (slot id) _ slot').id = _
        by_cases hslot : slot' = slot id
        · rw [hslot, update_self]
          exact hid
        · rw [update_of_ne hslot]
      · rintro ⟨-, hpc'⟩
        change update s.pc cpu .idle cpu = _ at hpc'
        rw [update_self] at hpc'
        cases hpc'
    · have hpos : 0 ≤ id := by
        unfold Sem.acquire_sem_etc at hblocks
        split at hblocks
        · exact absurd (Prod.mk.inj hblocks).1 nofun
        · rename_i hneg
          exact Int.not_lt.mp hneg
      rw [hblocks, if_pos rfl]
      exact h.block hsound hcpu hblocking hinterrupt hpos hid fun slot' t ht =>
        (hmem' slot' t ht).imp_right And.left
  · have hacquire' : ∀ id count flags timeout, s.pc cpu ≠ .acquire_sem_etc id count flags timeout :=
      fun id count flags timeout hpc => hacquire ⟨id, count, flags, timeout, hpc⟩
    have hsub : ∀ slot, ∀ t ∈ lists' (.sem slot), t ∈ lists (.sem slot) := by
      intro slot t ht
      refine (hmem slot t ht).resolve_right ?_
      rintro ⟨-, id, flags, -, -, count, timeout, hpc⟩
      exact hacquire' id count flags timeout hpc
    by_cases hblocking : (s.pc cpu).Blocking
    · exact h.run_blocking hsound hcpu hblocking hrun hsound' hsub
    · by_cases hinterrupt : ∃ t slot rest, s.pc cpu = .sem_interrupt_thread t slot rest
      · obtain ⟨t, slot, rest, hpc⟩ := hinterrupt
        exact h.run_interrupt hsound hblocking hcpu hpc hrun hsound'
      · exact h.run_other hsound hcpu hsleep hblocking
          (fun t slot rest hpc => hinterrupt ⟨t, slot, rest, hpc⟩) hacquire' hrun hsound' hsub

theorem Alert.init (h : s.Init) : s.Alert fun _ => [] := by
  obtain ⟨hq, hnext, hcpu, hthread⟩ := h
  have hnone : ∀ t, s.Killed t ≠ true := by
    intro t hkill
    unfold Killed at hkill
    rw [(hthread t).1] at hkill
    exact absurd hkill (by decide)
  refine ⟨fun t hkill => absurd hkill (hnone t), fun _ _ ht => absurd ht List.not_mem_nil,
    fun c hc => ?_, fun t hkill => absurd hkill (hnone t)⟩
  rw [(hcpu c).1, (hcpu c).2]
  show (s.thread c).next_state ≠ THREAD_STATE_WAITING
  rw [((hthread c).2.2 hc).2.1]
  nofun

theorem Alert.step_run {a : SchedAction} (h : s.Alert lists) (hsound : s.Sound Always lists)
    (hsafe : s.KillSafeStep a) (hstep : Step s a s') :
    ∃ lists', s'.Sound Always lists' ∧ s'.Alert lists' := by
  obtain ⟨lists', hsound', hmem⟩ := hsound.step hsafe.once hstep
  have hsub : (∀ cpu fuel skip, a ≠ .run cpu fuel skip) →
      ∀ slot, ∀ t ∈ lists' (.sem slot), t ∈ lists (.sem slot) := by
    intro hrun slot t ht
    refine (hmem slot t ht).resolve_right ?_
    rintro ⟨cpu, fuel, skip, heq, -⟩
    exact hrun cpu fuel skip heq
  cases a
  all_goals simp only [Step, Sched.step] at hstep
  case call cpu pc =>
    split at hstep
    · rename_i hcall
      have hblocking : ¬ (s.pc cpu).Blocking := by rw [hcall.2.1]; exact fun hpc => hpc
      have hinterrupt : ∀ t slot rest, s.pc cpu ≠ .sem_interrupt_thread t slot rest := by
        simp [hcall.2.1]
      cases hstep
      refine ⟨lists', hsound', h.turn rfl (fun _ hkill => hkill) rfl rfl rfl (fun _ => rfl) rfl
        hinterrupt (hsub (by simp)) fun hcpu => ?_⟩
      exact (announces_iff (Pc.plain_of_start hcall.2.2).1).mpr (h.calm hcpu hblocking)
    · cases hstep
  case run cpu fuel skip =>
    split at hstep
    · rename_i hrun
      exact h.run hsound hrun.1 hsafe.1 hsafe.2 hstep
    · cases hstep
  case setOwnPriority cpu priority =>
    split at hstep
    · rename_i hidle
      have hblocking : ¬ (s.pc cpu).Blocking := by rw [hidle.2]; exact fun hpc => hpc
      cases hstep
      exact ⟨lists, hsound.setOwnPriority hidle.1 hblocking _, h.roused, h.waits, h.announces,
        h.known⟩
    · cases hstep
  case created t =>
    split at hstep
    · rename_i hbirth
      cases hstep
      refine ⟨lists, hsound.created hbirth.1, h.modify rfl rfl (fun hnext => hnext) fun hkill => ?_⟩
      exact absurd (hsafe.symm.trans hkill) Bool.false_ne_true
    · cases hstep
  case leave cpu =>
    split at hstep
    · cases hstep
      exact ⟨lists, hsound.same s.sems s.pending_signals _ s.proc s.death_stack_bitmap s.exiting,
        h.pending (fun _ hkill => hkill) _ s.exiting⟩
    · cases hstep

/-! ## What clears a kill -/

/-- The thread is in `_check_for_thread_sigs`, and goes on to `thread_exit`. -/
def Dies (s : Sched) (cpu t : Nat) (s' : Sched) : Prop :=
  t = s.current cpu ∧ (s.pc cpu = .thread_atkernel_entry ∨ s.pc cpu = .thread_atkernel_exit) ∧
    s'.exiting t = true

theorem killed_same (hpending : s'.pending_signals = s.pending_signals)
    (hkill : s.Killed t = true) : s'.Killed t = true := by
  unfold Killed at hkill ⊢
  rwa [hpending]

theorem killed_kept {pending : BitVec 32} {t' : Nat}
    (hpending : s'.pending_signals = update s.pending_signals t' pending)
    (hkept : s.Killed t' = true → pending &&& SIG_KILL ≠ 0) (hkill : s.Killed t = true) :
    s'.Killed t = true := by
  unfold Killed
  rw [hpending]
  by_cases ht : t = t'
  · rw [ht, update_self]
    exact decide_eq_true (hkept (ht ▸ hkill))
  · rw [update_of_ne ht]
    exact hkill

theorem resched_kept (hresched : (s.thread_resched cpu skip).map (fun s => s.setPc cpu pc) = some s')
    (hkill : s.Killed t = true) : s'.Killed t = true := by
  obtain ⟨s₁, hs₁, rfl⟩ := map_eq_some_iff.mp hresched
  obtain ⟨q, q_next, thread, priority, current, rfl⟩ := thread_resched_same hs₁
  exact hkill

theorem wakeAll_kept (hwake : (Sched.wakeAll cpu fuel s).map (fun s => s.setPc cpu pc) = some s')
    (hkill : s.Killed t = true) : s'.Killed t = true := by
  obtain ⟨s₁, hs₁, rfl⟩ := map_eq_some_iff.mp hwake
  obtain ⟨q, q_next, priority, rfl⟩ := wakeAll_same hs₁
  exact hkill

theorem wakeAll_resched_kept (hwake : ((Sched.wakeAll cpu fuel s).bind fun s =>
      (s.thread_resched cpu skip).map fun s => s.setPc cpu pc) = some s')
    (hkill : s.Killed t = true) : s'.Killed t = true := by
  obtain ⟨s₁, hs₁, hresched⟩ := bind_eq_some_iff.mp hwake
  obtain ⟨q, q_next, priority, rfl⟩ := wakeAll_same hs₁
  exact resched_kept hresched hkill

theorem deliver_signal_kept (t' : Nat) (rest : Option (List Nat)) (hkill : s.Killed t = true) :
    (s.deliver_signal cpu t' rest).Killed t = true := by
  have hkept : (s.setPending t' (s.pending_signals t' ||| SIG_KILL)).Killed t = true :=
    killed_kept rfl (fun _ => killed_or s t') hkill
  unfold Sched.deliver_signal
  split
  · exact hkill
  · dsimp only
    split
    · exact hkept
    · split <;> exact hkept
    · exact hkept

/-- A kill that `_check_for_thread_sigs` clears sends the thread to `thread_exit`. -/
theorem check_for_thread_sigs_kept {r : Bool × Sched}
    (hr : s.check_for_thread_sigs cpu skip = some r) (hkill : s.Killed t = true) :
    r.2.Killed t = true ∨ t = s.current cpu ∧ r.2.exiting t = true := by
  unfold Sched.check_for_thread_sigs at hr
  dsimp only at hr
  split at hr
  · exact Or.inl (Option.some.inj hr ▸ hkill)
  · split at hr
    · cases hr
      by_cases ht : t = s.current cpu
      · refine Or.inr ⟨ht, ?_⟩
        show update s.exiting (s.current cpu) true t = true
        rw [ht, update_self]
      · refine Or.inl ?_
        show decide (update s.pending_signals (s.current cpu) _ t &&& SIG_KILL ≠ 0) = true
        rw [update_of_ne ht]
        exact hkill
    · rename_i hnot
      split at hr
      · obtain ⟨s₁, hs₁, rfl⟩ := map_eq_some_iff.mp hr
        obtain ⟨q, q_next, thread, priority, current, rfl⟩ := thread_resched_same hs₁
        exact Or.inl (killed_kept rfl (fun hcurrent => absurd hcurrent hnot) hkill)
      · exact Or.inl (Option.some.inj hr ▸ hkill)

theorem run_kept (hrun : s.run cpu fuel skip = some s') (hkill : s.Killed t = true)
    (hknown : t < s.next_thread_id) : s'.Killed t = true ∨ s.Dies cpu t s' := by
  have hremoved : ∀ {t' slot : Nat} {err : SemError} {pc : Pc},
      (s.remove_thread_from_sem cpu fuel t' slot err).map (fun r => r.2.setPc cpu pc) = some s' →
        s'.Killed t = true := by
    intro t' slot err pc hremove
    obtain ⟨r, hr, rfl⟩ := map_eq_some_iff.mp hremove
    obtain ⟨sems, q, q_next, thread, hsame⟩ := remove_thread_from_sem_same hr
    exact killed_same (by rw [hsame]; rfl) hkill
  unfold Sched.run at hrun
  generalize hpc : s.pc cpu = pc at hrun
  cases pc with
  | idle =>
    cases hrun
  | thread_atkernel_entry =>
    obtain ⟨r, hr, rfl⟩ := map_eq_some_iff.mp hrun
    have hinside : (s.setInKernel (s.current cpu) true).Killed t = true := hkill
    refine (check_for_thread_sigs_kept hr hinside).imp_right ?_
    rintro ⟨ht, hexit⟩
    exact ⟨ht, Or.inl hpc, hexit⟩
  | thread_atkernel_exit =>
    obtain ⟨r, hr, rfl⟩ := map_eq_some_iff.mp hrun
    rcases check_for_thread_sigs_kept hr hkill with hkept | ⟨ht, hexit⟩
    · refine Or.inl ?_
      split <;> exact hkept
    · refine Or.inr ⟨ht, Or.inr hpc, ?_⟩
      split <;> exact hexit
  | create_thread priority p alive =>
    cases hrun
    refine Or.inl ?_
    show decide (update s.pending_signals s.next_thread_id 0 t &&& SIG_KILL ≠ 0) = true
    rw [update_of_ne (Nat.ne_of_lt hknown)]
    exact hkill
  | kill t' rest =>
    cases hrun
    exact Or.inl (deliver_signal_kept t' rest hkill)
  | acquireBlocked id flags =>
    dsimp only at hrun
    split at hrun
    · exact Or.inl (Option.some.inj hrun ▸ hkill)
    · exact Or.inl (resched_kept hrun hkill)
  | acquireKilled id =>
    dsimp only at hrun
    split at hrun
    · exact Or.inl (hremoved hrun)
    · exact Or.inl (Option.some.inj hrun ▸ hkill)
  | timeoutFound id t' =>
    dsimp only at hrun
    split at hrun
    · exact Or.inl (hremoved hrun)
    · cases hrun
  | sem_interrupt_thread t' slot rest =>
    dsimp only at hrun
    split at hrun
    · obtain ⟨r, hr, hrest⟩ := bind_eq_some_iff.mp hrun
      split at hrest
      · cases hrest
      · exact Or.inl (hremoved (map_eq_some_iff.mpr ⟨r, hr, Option.some.inj hrest⟩))
    · cases hrun
  | releaseWoken flags death =>
    obtain ⟨s₁, hs₁, hrest⟩ := bind_eq_some_iff.mp hrun
    split at hrest
    · exact Or.inl (wakeAll_resched_kept (bind_eq_some_iff.mpr ⟨s₁, hs₁, hrest⟩) hkill)
    · exact Or.inl (wakeAll_kept
        (map_eq_some_iff.mpr ⟨s₁, hs₁, Option.some.inj hrest⟩) hkill)
  | acquireWoken | deleteWoken =>
    exact Or.inl (wakeAll_resched_kept hrun hkill)
  | timeoutWoken | interruptWoken rest =>
    exact Or.inl (wakeAll_kept hrun hkill)
  | thread_resched | putReleased =>
    exact Or.inl (resched_kept hrun hkill)
  | release_sem_etc id count flags death | delete_sem_etc id return_code =>
    obtain ⟨r, -, rfl⟩ := map_eq_some_iff.mp hrun
    exact Or.inl hkill
  | thread_suspend_thread t' =>
    cases hrun
    refine Or.inl ?_
    unfold Sched.thread_suspend_thread
    split
    · exact hkill
    · split
      · have hkept : (s.setPending t' (s.pending_signals t' ||| SIG_SUSPEND)).Killed t = true := by
          refine killed_kept rfl (fun hkilled => ?_) hkill
          rw [suspend_or]
          exact of_decide_eq_true hkilled
        exact hkept
      · exact hkill
  | thread_resume_thread t' =>
    cases hrun
    refine Or.inl ?_
    unfold Sched.thread_resume_thread
    split <;> exact hkill
  | thread_set_priority t' priority =>
    obtain ⟨s₁, hs₁, rfl⟩ := map_eq_some_iff.mp hrun
    obtain ⟨q, q_next, priority, rfl⟩ := thread_set_priority_same hs₁
    exact Or.inl hkill
  | get_death_stack =>
    dsimp only at hrun
    split at hrun
    · cases hrun
    · exact Or.inl (Option.some.inj hrun ▸ hkill)
  | put_death_stack_and_reschedule index =>
    dsimp only at hrun
    split at hrun
    · exact Or.inl (Option.some.inj hrun ▸ hkill)
    · cases hrun
  | createInserted t' p alive =>
    cases hrun
    refine Or.inl ?_
    split <;> exact hkill
  | _ =>
    exact Or.inl (Option.some.inj hrun ▸ hkill)

theorem step_kept {a : SchedAction} (hstep : Step s a s') (hkill : s.Killed t = true)
    (hknown : t < s.next_thread_id) :
    s'.Killed t = true ∨ ∃ cpu fuel skip, a = .run cpu fuel skip ∧ s.Dies cpu t s' := by
  cases a with
  | run cpu fuel skip =>
    simp only [Step, Sched.step] at hstep
    split at hstep
    · exact (run_kept hstep hkill hknown).imp_right fun hdies => ⟨cpu, fuel, skip, rfl, hdies⟩
    · cases hstep
  | _ =>
    simp only [Step, Sched.step] at hstep
    split at hstep
    · exact Or.inl (Option.some.inj hstep ▸ hkill)
    · cases hstep

/-! ## Runs -/

/-- The thread is in the queue of a semaphore, in an acquire with B_CAN_INTERRUPT. A thread that
`acquire_sem_etc` took out again has the state WAITING until it runs, but waits for nothing. -/
def WaitsInterruptibly (s : Sched) (t : Nat) : Prop :=
  s.Interruptible t ∧ ∃ slot ts, Holds s.q_next (s.q (.sem slot)) ts ∧ t ∈ ts

/-- No kill is lost: while no CPU is in a section under `thread_spinlock`, no thread with a pending
kill sleeps in a way that a kill ends, and the thread that clears it exits. -/
structure NoKillLost (s : Sched) : Prop where
  suspended : s.Free .thread_spinlock → ∀ t, s.Killed t = true →
    (s.thread t).state ≠ THREAD_STATE_SUSPENDED
  waiting : s.Free .thread_spinlock → ∀ t, s.Killed t = true → ¬ s.WaitsInterruptibly t
  cleared : ∀ a s', Step s a s' → ∀ t, s.Killed t = true →
    s'.Killed t = true ∨ ∃ cpu fuel skip, a = .run cpu fuel skip ∧ s.Dies cpu t s'

theorem kill_not_lost (h : By Init KillSafeStep Step s) : s.NoKillLost := by
  obtain ⟨lists, hsound, halert⟩ : ∃ lists, s.Sound Always lists ∧ s.Alert lists := by
    refine h.invariant (fun s => ∃ lists, s.Sound Always lists ∧ s.Alert lists)
      (fun s hinit => ⟨_, .init hinit, .init hinit⟩) ?_
    rintro s a s' ⟨lists, hsound, halert⟩ hsafe hstep
    exact halert.step_run hsound hsafe hstep
  refine ⟨fun _ t hkill => (halert.roused t hkill).1, fun hfree t hkill hwaits => ?_,
    fun a s' hstep t hkill => step_kept hstep hkill (halert.known t hkill)⟩
  obtain ⟨hint, slot, ts, hholds, ht⟩ := hwaits
  obtain rfl := hholds.unique (hsound.queued.queues.holds (.sem slot))
  obtain ⟨c, hc, rest, hpc⟩ := (halert.roused t hkill).2 hint slot ht
  refine hfree c hc ?_
  rw [hpc]
  cases rest <;> exact List.mem_cons_self

/-- A condition on the steps that can be decided. -/
def CalmStep (s : Sched) : SchedAction → Prop
  | .run cpu _ _ => s.AloneAt cpu (s.pc cpu) ∧
      (s.thread (s.current cpu)).next_state ≠ THREAD_STATE_SUSPENDED
  | .created t => s.Killed t = false
  | _ => True

instance (s : Sched) : DecidablePred s.CalmStep := fun a => by
  induction a using SchedAction.casesOn with
  | run cpu _ _ => exact inferInstanceAs (Decidable (s.AloneAt cpu (s.pc cpu) ∧ _ ≠ _))
  | created t => exact inferInstanceAs (Decidable (_ = false))
  | _ => exact inferInstanceAs (Decidable True)

theorem CalmStep.safe {a : SchedAction} (h : s.CalmStep a) : s.KillSafeStep a := by
  cases a with
  | run cpu fuel skip =>
    refine ⟨AloneAt.safe h.1, ?_⟩
    cases s.pc cpu with
    | releaseWoken _ _ | deleteWoken | thread_resched | putReleased =>
      exact fun hnext => absurd hnext h.2
    | _ => trivial
  | created t => exact h
  | _ => trivial

/-- A thread that waits is killed, runs again and exits. -/
theorem kill_not_lost_waiting : ∃ s, By Init KillSafeStep Step s ∧ s.NoKillLost ∧
    s.exiting 2 = true := by
  have hexec : (exec (guarded CalmStep step)
      (spawn 0 2 .user ++ section1 1 .thread_resched ++
        section1 1 (.acquire_sem_etc 1 1 B_CAN_INTERRUPT 0) ++ [go 1] ++
        section1 0 (.kill 2 none) ++ [go 0, go 0] ++
        section1 1 .thread_resched ++ section1 1 .thread_atkernel_exit) twoCpus).map
      (fun s => s.exiting 2) = some true := by decide +kernel
  obtain ⟨s, hs, hexit⟩ := map_eq_some_iff.mp hexec
  have hreach : By Init KillSafeStep Step s :=
    By.exec (fun _ _ _ h => (guarded_some h).imp_left CalmStep.safe) _ (.init init_twoCpus) hs
  exact ⟨s, hreach, kill_not_lost hreach, hexit⟩

/-- A thread is killed while it is created. -/
theorem kill_lost : ¬ ∀ s, By Init (fun _ _ => True) Step s → s.NoKillLost := by
  intro hall
  have hexec : (exec step
      ([.call 0 (.create_thread (-1) .user true), go 0, go 0, go 0] ++ section1 1 (.kill 2 none) ++
        [.created 2]) twoCpus).map
      (fun s => (s.Killed 2, (s.thread 2).state, decide (s.Free .thread_spinlock))) =
      some (true, THREAD_STATE_SUSPENDED, true) := by decide +kernel
  obtain ⟨s, hs, hfound⟩ := map_eq_some_iff.mp hexec
  obtain ⟨hkill, hfound⟩ := Prod.mk.inj hfound
  obtain ⟨hstate, hfree⟩ := Prod.mk.inj hfound
  have hreach : By Init (fun _ _ => True) Step s :=
    By.exec (fun _ _ _ h => ⟨trivial, h⟩) _ (.init init_twoCpus) hs
  exact (hall s hreach).suspended (of_decide_eq_true hfree) 2 hkill hstate

end Sched

end Kernel
