import OpenBeOS.Kernel.Sem

/-! # The scheduler

Threads, their queues and the CPUs: the sections of `thread.c` and `sem.c` under `thread_spinlock`,
`proc_spinlock` and the locks of the semaphores. A step of a CPU is a section, from taking a lock to
the next point at which it needs another one or gives one back. A panic, a null pointer and a loop
that does not end have no result. The timers are left out: `sem_timeout` may be called at any time.
-/

namespace Kernel

open SemError ThreadState Function

def B_DO_NOT_RESCHEDULE : BitVec 32 := 2
def SIG_SUSPEND : BitVec 32 := 1
def SIG_KILL : BitVec 32 := 2

def MAX_SEMS : Int := 4096

def THREAD_IDLE_PRIORITY : Nat := 0
def THREAD_MIN_PRIORITY : Nat := 1
def THREAD_MEDIUM_PRIORITY : Nat := 24
def THREAD_MAX_PRIORITY : Nat := 47
def THREAD_NUM_RT_PRIORITY_LEVELS : Nat := 16
def THREAD_MIN_RT_PRIORITY : Nat := THREAD_MAX_PRIORITY + 1

/-- The slot of a semaphore. -/
def slot (id : Int) : Nat := (id % MAX_SEMS).toNat

/-! ## The state -/

/-- The queues of threads. `onStack` is the `release_queue` or `wakeup_queue` of the call that a CPU
is in. -/
inductive QueueId where
  | run (priority : Nat)
  | sem (slot : Nat)
  | onStack (cpu : Nat)
  | dead
  deriving DecidableEq

inductive SpinLock where
  | proc_spinlock
  | thread_spinlock
  | sem (slot : Nat)
  deriving DecidableEq

inductive Proc where
  | kernel_proc
  | user
  deriving DecidableEq

/-- The section that a CPU comes to next. `death` says that `put_death_stack_and_reschedule` is the
caller, and `rest` has the threads that the loop of `thread_exit` still kills. -/
inductive Pc where
  | idle
  | acquire_sem_etc (id count : Int) (flags : BitVec 32) (timeout : Int)
  | acquireBlocked (id : Int) (flags : BitVec 32)
  | acquireKilled (id : Int)
  | acquireWoken
  | release_sem_etc (id count : Int) (flags : BitVec 32) (death : Bool)
  | releaseWoken (flags : BitVec 32) (death : Bool)
  | delete_sem_etc (id return_code : Int)
  | deleteWoken
  | sem_timeout (id : Int) (t : Nat)
  | timeoutFound (id : Int) (t : Nat)
  | timeoutWoken
  | kill (t : Nat) (rest : Option (List Nat))
  | sem_interrupt_thread (t slot : Nat) (rest : Option (List Nat))
  | interruptWoken (rest : Option (List Nat))
  | killLoop (ts : List Nat)
  | thread_suspend_thread (t : Nat)
  | thread_resume_thread (t : Nat)
  | thread_set_priority (t : Nat) (priority : Int)
  | thread_resched
  | thread_atkernel_entry
  | thread_atkernel_exit
  | create_thread (priority : Int) (p : Proc) (alive : Bool)
  | createHashed (t : Nat) (p : Proc) (alive : Bool)
  | createInserted (t : Nat) (p : Proc) (alive : Bool)
  | createAborted (t : Nat)
  | thread_exit
  | thread_exit2 (index : Nat)
  | exitRemoved (index : Nat)
  | get_death_stack
  | put_death_stack_and_reschedule (index : Nat)
  | putReleased
  deriving DecidableEq

namespace Pc

/-- The locks that the CPU has at this point. -/
def holds : Pc → List SpinLock
  | .acquireKilled _ | .acquireWoken | .putReleased => [.thread_spinlock]
  | .release_sem_etc _ _ _ true | .releaseWoken _ true => [.thread_spinlock]
  | .kill _ (some _) => [.proc_spinlock]
  | .sem_interrupt_thread _ _ none | .interruptWoken none => [.thread_spinlock]
  | .sem_interrupt_thread _ _ (some _) | .interruptWoken (some _) =>
    [.thread_spinlock, .proc_spinlock]
  | _ => []

/-- The lock that the CPU takes, or spins for, at this point. -/
def wants : Pc → Option SpinLock
  | .idle | .acquireWoken | .interruptWoken _ | .putReleased => none
  | .acquire_sem_etc id _ _ _ | .acquireKilled id | .release_sem_etc id _ _ _
  | .delete_sem_etc id _ | .timeoutFound id _ => some (.sem (slot id))
  | .sem_interrupt_thread _ slot _ => some (.sem slot)
  | .killLoop _ | .createInserted _ _ _ | .thread_exit | .thread_exit2 _ => some .proc_spinlock
  | _ => some .thread_spinlock

/-- The calls; with bad arguments they return at once. -/
def Start (current : Nat) : Pc → Bool
  | .acquire_sem_etc id count _ _ => 0 ≤ id ∧ 0 < count
  | .release_sem_etc id count _ death => 0 ≤ id ∧ 0 < count ∧ death = false
  | .delete_sem_etc id _ | .sem_timeout id _ => 0 ≤ id
  | .kill _ rest => rest = none
  | .thread_set_priority t _ => t ≠ current
  | .killLoop _ | .thread_suspend_thread _ | .thread_resume_thread _ | .thread_resched
  | .thread_atkernel_entry | .thread_atkernel_exit | .create_thread _ _ _ | .thread_exit
  | .thread_exit2 _ | .get_death_stack => true
  | _ => false

/-- Behind a kill: the next one, if it is the loop of `thread_exit` that kills. -/
def afterKill : Option (List Nat) → Pc
  | some (t :: ts) => .kill t (some ts)
  | _ => .idle

def afterRelease (death : Bool) : Pc := if death then .putReleased else .idle

end Pc

structure sem_entry where
  id : Int
  count : Int
  deriving DecidableEq

/-- The threads, by their ids, and what the CPUs do. A thread of `exiting` was sent to `thread_exit`
by a signal. -/
structure Sched where
  cpus : Nat
  sems : Nat → sem_entry
  q : QueueId → thread_queue
  q_next : Nat → Option Nat
  thread : Nat → Thread
  priority : Nat → Int
  pending_signals : Nat → BitVec 32
  in_kernel : Nat → Bool
  proc : Nat → Option Proc
  thread_hash : Nat → Bool
  next_thread_id : Nat
  death_stack_bitmap : BitVec 32
  death_stack_sem : Int
  current : Nat → Nat
  pc : Nat → Pc
  exiting : Nat → Bool

namespace Sched

def setPc (s : Sched) (cpu : Nat) (pc : Pc) : Sched := { s with pc := update s.pc cpu pc }

def modify (s : Sched) (t : Nat) (f : Thread → Thread) : Sched :=
  { s with thread := update s.thread t (f (s.thread t)) }

/-- The thread has a pending kill signal. -/
def Killed (s : Sched) (t : Nat) : Bool := s.pending_signals t &&& SIG_KILL ≠ 0

def sem (s : Sched) (slot : Nat) : Sem where
  id := (s.sems slot).id
  count := (s.sems slot).count
  q := s.q (.sem slot)
  q_next := s.q_next
  thread := s.thread

/-- What a section under the lock of a semaphore leaves, with the queue on the stack. -/
def setSem (s : Sched) (cpu slot : Nat) (sem : Sem) (queue : thread_queue) : Sched :=
  { s with
    sems := update s.sems slot ⟨sem.id, sem.count⟩
    q := update (update s.q (.sem slot) sem.q) (.onStack cpu) queue
    q_next := sem.q_next
    thread := sem.thread }

/-! ## Queues -/

def enqueue (s : Sched) (k : QueueId) (t : Nat) : Sched :=
  { s with
    q := update s.q k (thread_enqueue s.q_next t (s.q k)).1
    q_next := (thread_enqueue s.q_next t (s.q k)).2 }

def dequeue (s : Sched) (k : QueueId) : Option Nat × Sched :=
  ((thread_dequeue s.q_next (s.q k)).1,
    { s with q := update s.q k (thread_dequeue s.q_next (s.q k)).2 })

/-- The priority of a thread in a run queue. -/
def clamp (priority : Int) : Int :=
  if priority > THREAD_MAX_PRIORITY then THREAD_MAX_PRIORITY
  else if priority < 0 then 0
  else priority

def thread_enqueue_run_q (s : Sched) (t : Nat) : Sched :=
  enqueue { s with priority := update s.priority t (clamp (s.priority t)) }
    (.run (clamp (s.priority t)).toNat) t

/-- The threads of the queue on the stack get into the run queues. -/
def wakeAll (cpu : Nat) : Nat → Sched → Option Sched
  | 0, _ => none
  | fuel + 1, s =>
    match (s.dequeue (.onStack cpu)).1 with
    | none => some s
    | some t => wakeAll cpu fuel ((s.dequeue (.onStack cpu)).2.thread_enqueue_run_q t)

/-! ## `thread_resched` -/

/-- The highest of the first `n` real-time priorities with a thread. -/
def searchRealTime (s : Sched) : Nat → Option Nat
  | 0 => none
  | n + 1 =>
    if (s.q (.run (THREAD_MIN_RT_PRIORITY + n))).head = none then s.searchRealTime n
    else some (THREAD_MIN_RT_PRIORITY + n)

/-- The regular priorities up to `n`; `skip` says for which ones `_rand` is not above `0x3000`, and
the last one skipped is taken in the end. -/
def searchRegular (s : Sched) (skip : Nat → Bool) : Nat → Option Nat → Option Nat
  | 0, last_thread_pri => last_thread_pri
  | n + 1, last_thread_pri =>
    if (s.q (.run (n + 1))).head = none then s.searchRegular skip n last_thread_pri
    else if skip (n + 1) then s.searchRegular skip n (some (n + 1))
    else some (n + 1)

/-- The priority of the thread that runs next. -/
def choosePriority (s : Sched) (skip : Nat → Bool) : Nat :=
  ((s.searchRealTime THREAD_NUM_RT_PRIORITY_LEVELS).or
    (s.searchRegular skip THREAD_MAX_PRIORITY none)).getD THREAD_IDLE_PRIORITY

/-- The thread that runs on the CPU gets into the queue that its `next_state` says. -/
def putBack (s : Sched) (t : Nat) : Sched :=
  match (s.thread t).next_state with
  | THREAD_STATE_RUNNING | THREAD_STATE_READY => s.thread_enqueue_run_q t
  | THREAD_STATE_FREE_ON_RESCHED => s.enqueue .dead t
  | _ => s

/-- Run queues without a thread are a panic. -/
def thread_resched (s : Sched) (cpu : Nat) (skip : Nat → Bool) : Option Sched :=
  let old_thread := s.current cpu
  let s := (s.putBack old_thread).modify old_thread fun thread =>
    { thread with state := thread.next_state }
  let r := s.dequeue (.run (s.choosePriority skip))
  r.1.map fun next_thread =>
    { r.2.modify next_thread fun thread =>
        { thread with state := THREAD_STATE_RUNNING, next_state := THREAD_STATE_READY } with
      current := update s.current cpu next_thread }

/-! ## Semaphores -/

end Sched

/-- The loop of `delete_sem_etc`. -/
def Sem.deleteLoop (return_code : Int) : Nat → Sem → thread_queue → Option (Sem × thread_queue)
  | 0, _, _ => none
  | fuel + 1, s, release_queue =>
    if thread_lookat_queue s.q = none then some (s, release_queue)
    else
      let r := s.wake release_queue fun thread =>
        { thread with
          sem_errcode := B_BAD_SEM_ID
          sem_deleted_retcode := return_code
          sem_count := 0 }
      deleteLoop return_code fuel r.1 r.2

def Sem.delete_sem_etc (s : Sem) (fuel : Nat) (id return_code : Int) :
    Option (Sem × thread_queue) :=
  if s.id ≠ id then some (s, ⟨none, none⟩)
  else (s.deleteLoop return_code fuel ⟨none, none⟩).map fun r => ({ r.1 with id := -1 }, r.2)

namespace Sched

def remove_thread_from_sem (s : Sched) (cpu fuel t slot : Nat) (sem_errcode : SemError) :
    Option (SemError × Sched) :=
  ((s.sem slot).remove_thread_from_sem fuel t ⟨none, none⟩ sem_errcode).map fun r =>
    (r.1, s.setSem cpu slot r.2.1 r.2.2)

/-! ## Signals -/

/-- `_thread_kill_thread` and `deliver_signal`, up to `sem_interrupt_thread`. -/
def deliver_signal (s : Sched) (cpu t : Nat) (rest : Option (List Nat)) : Sched :=
  if s.thread_hash t = false ∨ s.proc t = some .kernel_proc then s.setPc cpu (.afterKill rest)
  else
    let s := { s with
      pending_signals := update s.pending_signals t (s.pending_signals t ||| SIG_KILL) }
    match (s.thread t).state with
    | THREAD_STATE_SUSPENDED =>
      ((s.modify t fun thread =>
      { thread with state := THREAD_STATE_READY, next_state := THREAD_STATE_READY }
      ).thread_enqueue_run_q t).setPc cpu (.afterKill rest)
    | THREAD_STATE_WAITING =>
      if 0 ≤ (s.thread t).sem_blocking ∧ (s.thread t).sem_flags &&& B_CAN_INTERRUPT ≠ 0 then
        s.setPc cpu (.sem_interrupt_thread t (slot (s.thread t).sem_blocking) rest)
      else s.setPc cpu (.afterKill rest)
    | _ => s.setPc cpu (.afterKill rest)

/-- Whether the caller goes on at once: not if the thread goes on to `thread_exit`, or reschedules
first. -/
def check_for_thread_sigs (s : Sched) (cpu : Nat) (skip : Nat → Bool) : Option (Bool × Sched) :=
  let t := s.current cpu
  if s.pending_signals t = 0 then some (true, s)
  else if s.Killed t then
    some (false, { s with
      pending_signals := update s.pending_signals t (s.pending_signals t &&& ~~~SIG_KILL)
      exiting := update s.exiting t true })
  else if s.pending_signals t &&& SIG_SUSPEND ≠ 0 then
    (({ s with
      pending_signals :=
        update s.pending_signals t (s.pending_signals t &&& ~~~SIG_SUSPEND) }.modify t
      fun thread => { thread with next_state := THREAD_STATE_SUSPENDED }).thread_resched cpu
        skip).map fun s => (false, s)
  else some (true, s)

def setInKernel (s : Sched) (t : Nat) (inside : Bool) : Sched :=
  { s with in_kernel := update s.in_kernel t inside }

/-! ## Other calls -/

def thread_suspend_thread (s : Sched) (t : Nat) : Sched :=
  if s.thread_hash t = false ∨ s.proc t = some .kernel_proc then s
  else if s.in_kernel t then
    { s with
      pending_signals := update s.pending_signals t (s.pending_signals t ||| SIG_SUSPEND) }
  else s.modify t fun thread => { thread with next_state := THREAD_STATE_SUSPENDED }

def thread_resume_thread (s : Sched) (t : Nat) : Sched :=
  if s.thread_hash t ∧ (s.thread t).state = THREAD_STATE_SUSPENDED then
    (s.modify t fun thread =>
      { thread with state := THREAD_STATE_READY, next_state := THREAD_STATE_READY }
      ).thread_enqueue_run_q t
  else s

/-- The priority that `thread_set_priority` sets. -/
def bounded (priority : Int) : Int := max THREAD_MIN_PRIORITY (min THREAD_MAX_PRIORITY priority)

def thread_set_priority (s : Sched) (fuel t : Nat) (priority : Int) : Option Sched :=
  if s.thread_hash t = false then some s
  else if (s.thread t).state = THREAD_STATE_READY ∧ s.priority t ≠ bounded priority then
    (thread_dequeue_id fuel s.q_next (s.q (.run (s.priority t).toNat)) t).map fun r =>
      thread_enqueue_run_q
        { s with
          q := update s.q (.run (s.priority t).toNat) r.2.1
          q_next := r.2.2
          priority := update s.priority t (bounded priority) } t
  else some { s with priority := update s.priority t (bounded priority) }

/-- What `create_thread_struct` and `_create_thread` set. -/
def newThread : Thread where
  state := THREAD_STATE_BIRTH
  next_state := THREAD_STATE_SUSPENDED
  sem_flags := 0
  sem_blocking := -1
  sem_count := 0
  sem_acquire_count := 0
  sem_deleted_retcode := 0
  sem_errcode := B_NO_ERROR

/-- The new thread may use the memory of a dead one. -/
def create_thread_struct (s : Sched) (priority : Int) : Sched :=
  { (s.dequeue .dead).2 with
    q_next := update s.q_next s.next_thread_id none
    thread := update s.thread s.next_thread_id newThread
    priority := update s.priority s.next_thread_id
      (if priority = -1 then THREAD_MEDIUM_PRIORITY else priority)
    pending_signals := update s.pending_signals s.next_thread_id 0
    in_kernel := update s.in_kernel s.next_thread_id true
    proc := update s.proc s.next_thread_id none
    next_thread_id := s.next_thread_id + 1 }

def setHash (s : Sched) (t : Nat) (inside : Bool) : Sched :=
  { s with thread_hash := update s.thread_hash t inside }

def setProc (s : Sched) (t : Nat) (p : Proc) : Sched := { s with proc := update s.proc t (some p) }

/-- The lowest bit of a death stack that is not in use. -/
def freeDeathStack (bitmap : BitVec 32) : BitVec 32 := ~~~bitmap &&& ~~~(~~~bitmap - 1)

/-! ## Sections -/

/-- The section that the CPU is at. -/
def run (s : Sched) (cpu fuel : Nat) (skip : Nat → Bool) : Option Sched :=
  let t := s.current cpu
  match s.pc cpu with
  | .idle => none
  | .acquire_sem_etc id count flags timeout =>
    let r := (s.sem (slot id)).acquire_sem_etc t id count flags timeout (s.Killed t)
    some ((s.setSem cpu (slot id) r.2 (s.q (.onStack cpu))).setPc cpu
      (if r.1 = .blocks then .acquireBlocked id flags else .idle))
  | .acquireBlocked id flags =>
    if flags &&& B_CAN_INTERRUPT ≠ 0 ∧ s.Killed t then some (s.setPc cpu (.acquireKilled id))
    else (s.thread_resched cpu skip).map fun s => s.setPc cpu .idle
  | .acquireKilled id =>
    if (s.sems (slot id)).id = id then
      (s.remove_thread_from_sem cpu fuel t (slot id) EINTR).map fun r => r.2.setPc cpu .acquireWoken
    else some (s.setPc cpu .acquireWoken)
  | .acquireWoken =>
    (wakeAll cpu fuel s).bind fun s =>
    (s.thread_resched cpu skip).map fun s => s.setPc cpu .idle
  | .release_sem_etc id count flags death =>
    ((s.sem (slot id)).release_sem_etc fuel id count).map fun r =>
    (s.setSem cpu (slot id) r.2.1 r.2.2).setPc cpu
      (if r.2.2.head = none then .afterRelease death else .releaseWoken flags death)
  | .releaseWoken flags death =>
    (wakeAll cpu fuel s).bind fun s =>
    if flags &&& B_DO_NOT_RESCHEDULE = 0 then
      (s.thread_resched cpu skip).map fun s => s.setPc cpu (.afterRelease death)
    else some (s.setPc cpu (.afterRelease death))
  | .delete_sem_etc id return_code =>
    ((s.sem (slot id)).delete_sem_etc fuel id return_code).map fun r =>
    (s.setSem cpu (slot id) r.1 r.2).setPc cpu
      (if r.2.head = none then .idle else .deleteWoken)
  | .deleteWoken =>
    (wakeAll cpu fuel s).bind fun s =>
    (s.thread_resched cpu skip).map fun s => s.setPc cpu .idle
  | .sem_timeout id t => some (s.setPc cpu (if s.thread_hash t then .timeoutFound id t else .idle))
  | .timeoutFound id t =>
    if (s.sems (slot id)).id = id then
      (s.remove_thread_from_sem cpu fuel t (slot id) B_TIMED_OUT).map fun r =>
        r.2.setPc cpu .timeoutWoken
    else none
  | .timeoutWoken => (wakeAll cpu fuel s).map fun s => s.setPc cpu .idle
  | .kill t rest => some (s.deliver_signal cpu t rest)
  | .sem_interrupt_thread t slot rest =>
    if (s.sems slot).id = (s.thread t).sem_blocking then
      (s.remove_thread_from_sem cpu fuel t slot EINTR).bind fun r =>
        if r.1 = ERR_NOT_FOUND then none else some (r.2.setPc cpu (.interruptWoken rest))
    else none
  | .interruptWoken rest => (wakeAll cpu fuel s).map fun s => s.setPc cpu (.afterKill rest)
  | .killLoop ts => some (s.setPc cpu (.afterKill (some ts)))
  | .thread_suspend_thread t => some ((s.thread_suspend_thread t).setPc cpu .idle)
  | .thread_resume_thread t => some ((s.thread_resume_thread t).setPc cpu .idle)
  | .thread_set_priority t priority =>
    (s.thread_set_priority fuel t priority).map fun s => s.setPc cpu .idle
  | .thread_resched => (s.thread_resched cpu skip).map fun s => s.setPc cpu .idle
  | .thread_atkernel_entry =>
    ((s.setInKernel t true).check_for_thread_sigs cpu skip).map fun r => r.2.setPc cpu .idle
  | .thread_atkernel_exit =>
    (s.check_for_thread_sigs cpu skip).map fun r =>
    (if r.1 then r.2.setInKernel t false else r.2).setPc cpu .idle
  | .create_thread priority p alive =>
    some ((s.create_thread_struct priority).setPc cpu
      (.createHashed s.next_thread_id p alive))
  | .createHashed t p alive => some ((s.setHash t true).setPc cpu (.createInserted t p alive))
  | .createInserted t p alive =>
    some (if alive then (s.setProc t p).setPc cpu .idle else s.setPc cpu (.createAborted t))
  | .createAborted t => some ((s.setHash t false).setPc cpu .idle)
  | .thread_exit => some ((s.setProc t .kernel_proc).setPc cpu .idle)
  | .thread_exit2 index => some (s.setPc cpu (.exitRemoved index))
  | .exitRemoved index =>
    some (((s.setHash t false).modify t fun thread =>
    { thread with next_state := THREAD_STATE_FREE_ON_RESCHED }).setPc cpu
      (.put_death_stack_and_reschedule index))
  | .get_death_stack =>
    if freeDeathStack s.death_stack_bitmap = 0 then none
    else some ({ s with
      death_stack_bitmap :=
        s.death_stack_bitmap ||| freeDeathStack s.death_stack_bitmap }.setPc cpu .idle)
  | .put_death_stack_and_reschedule index =>
    if s.death_stack_bitmap.getLsbD index then
      some ({ s with
        death_stack_bitmap := s.death_stack_bitmap &&& ~~~((1 : BitVec 32) <<< index) }.setPc cpu
          (.release_sem_etc s.death_stack_sem 1 B_DO_NOT_RESCHEDULE true))
    else none
  | .putReleased => (s.thread_resched cpu skip).map fun s => s.setPc cpu .idle

/-! ## Steps -/

/-- A CPU calls a function, goes through a section, or does what needs no lock: a thread sets its own
priority, `_create_thread` ends, and a thread that was suspended in `thread_atkernel_exit` leaves. -/
inductive SchedAction where
  | call (cpu : Nat) (pc : Pc)
  | run (cpu fuel : Nat) (skip : Nat → Bool)
  | setOwnPriority (cpu : Nat) (priority : Int)
  | created (t : Nat)
  | leave (cpu : Nat)

/-- No CPU holds the lock. -/
def Free (s : Sched) (lock : SpinLock) : Prop := ∀ cpu < s.cpus, lock ∉ (s.pc cpu).holds

instance (s : Sched) (lock : SpinLock) : Decidable (s.Free lock) := by
  unfold Free
  infer_instance

def step (s : Sched) : SchedAction → Option Sched
  | .call cpu pc =>
    if cpu < s.cpus ∧ s.pc cpu = .idle ∧ pc.Start (s.current cpu) = true then
      some (s.setPc cpu pc)
    else none
  | .run cpu fuel skip =>
    if cpu < s.cpus ∧ ∀ lock ∈ (s.pc cpu).wants, s.Free lock then s.run cpu fuel skip else none
  | .setOwnPriority cpu priority =>
    if cpu < s.cpus ∧ s.pc cpu = .idle then
      some { s with
        priority := update s.priority (s.current cpu) (bounded priority) }
    else none
  | .created t =>
    if (s.thread t).state = THREAD_STATE_BIRTH ∧ s.thread_hash t = true ∧ s.proc t ≠ none then
      some (s.modify t fun thread => { thread with state := THREAD_STATE_SUSPENDED })
    else none
  | .leave cpu =>
    if cpu < s.cpus ∧ s.pc cpu = .idle then some (s.setInKernel (s.current cpu) false) else none

def Step (s : Sched) (a : SchedAction) (s' : Sched) : Prop := s.step a = some s'

/-- The idle threads run, and there are no others. -/
def Init (s : Sched) : Prop :=
  (∀ k, s.q k = ⟨none, none⟩) ∧ s.next_thread_id = s.cpus ∧
    (∀ cpu, s.pc cpu = .idle ∧ s.current cpu = cpu) ∧
    (∀ t, s.pending_signals t = 0 ∧ (s.thread_hash t = true → t < s.cpus) ∧
      (t < s.cpus → (s.thread t).state = THREAD_STATE_RUNNING ∧
        (s.thread t).next_state = THREAD_STATE_READY ∧ s.proc t = some .kernel_proc ∧
        s.priority t = THREAD_IDLE_PRIORITY))

end Sched

end Kernel
