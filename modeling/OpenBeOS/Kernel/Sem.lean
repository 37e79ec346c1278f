import OpenBeOS.Kernel.ThreadQueue

/-! # Semaphores

A semaphore of `sem.c` and the threads that wait for it: the sections under its lock. All `int`
values are taken to be in range.
-/

namespace Kernel

inductive SemError where
  | B_NO_ERROR
  | B_BAD_SEM_ID
  | ERR_INVALID_ARGS
  | ERR_SEM_TIMED_OUT
  | ERR_NOT_FOUND
  | B_TIMED_OUT
  | EINTR
  deriving DecidableEq

inductive ThreadState where
  | THREAD_STATE_READY
  | THREAD_STATE_RUNNING
  | THREAD_STATE_WAITING
  | THREAD_STATE_SUSPENDED
  | THREAD_STATE_FREE_ON_RESCHED
  | THREAD_STATE_BIRTH
  deriving DecidableEq

open SemError ThreadState

def B_CAN_INTERRUPT : BitVec 32 := 1
def B_TIMEOUT : BitVec 32 := 8
def B_ABSOLUTE_TIMEOUT : BitVec 32 := 16

/-- What the semaphores keep of a thread, its `q_next` aside. -/
structure Thread where
  state : ThreadState
  next_state : ThreadState
  sem_flags : BitVec 32
  sem_blocking : Int
  sem_count : Int
  sem_acquire_count : Int
  sem_deleted_retcode : Int
  sem_errcode : SemError
  deriving DecidableEq

/-- A semaphore and the threads. -/
structure Sem where
  id : Int
  count : Int
  q : thread_queue
  q_next : Nat → Option Nat
  thread : Nat → Thread

namespace Sem

def modify (s : Sem) (t : Nat) (f : Thread → Thread) : Sem :=
  { s with thread := Function.update s.thread t (f (s.thread t)) }

/-- The count grows. -/
def give (s : Sem) (count : Int) : Sem := { s with count := s.count + count }

/-- How a call of `acquire_sem_etc` leaves its section under the lock. -/
inductive AcquireResult where
  | returns (err : SemError)
  | blocks
  deriving DecidableEq

/-- The thread is put into the queue. -/
def block (s : Sem) (t : Nat) (count : Int) (flags : BitVec 32) : Sem :=
  { s with
    q := (thread_enqueue s.q_next t s.q).1
    q_next := (thread_enqueue s.q_next t s.q).2 }.modify t fun thread =>
    { thread with
      next_state := THREAD_STATE_WAITING
      sem_flags := flags
      sem_blocking := s.id
      sem_acquire_count := count
      sem_count := min (-s.count) count
      sem_deleted_retcode := 0
      sem_errcode := B_NO_ERROR }

/-- The call by the thread `t`, up to the release of the lock; `sig_kill` says whether it has a
pending kill signal. -/
def acquire_sem_etc (s : Sem) (t : Nat) (id count : Int) (flags : BitVec 32) (timeout : Int)
    (sig_kill : Bool) : AcquireResult × Sem :=
  if id < 0 then (.returns B_BAD_SEM_ID, s)
  else if count ≤ 0 then (.returns ERR_INVALID_ARGS, s)
  else if s.id ≠ id then (.returns B_BAD_SEM_ID, s)
  else if s.count - count < 0 ∧ flags &&& B_TIMEOUT ≠ 0 ∧ timeout ≤ 0 then
    (.returns ERR_SEM_TIMED_OUT, s)
  else if s.count - count < 0 then
    if flags &&& B_CAN_INTERRUPT ≠ 0 ∧ sig_kill then (.returns EINTR, s)
    else (.blocks, { s with count := s.count - count }.block t count flags)
  else (.returns B_NO_ERROR, { s with count := s.count - count })

/-- The first thread of the queue is made ready and put into another queue. -/
def wake (s : Sem) (queue : thread_queue) (f : Thread → Thread) : Sem × thread_queue :=
  match thread_dequeue s.q_next s.q with
  | (none, _) => (s, queue)
  | (some t, q) =>
    let (queue', q_next) := thread_enqueue s.q_next t queue
    ({ s with q, q_next }.modify t fun thread => { f thread with state := THREAD_STATE_READY },
      queue')

/-- The thread waits for fewer units. -/
def lessen (s : Sem) (t : Nat) (delta : Int) : Sem :=
  s.modify t fun thread => { thread with sem_count := thread.sem_count - delta }

/-- A round of the loop of `release_sem_etc` that gives units to the first thread `t`. -/
def releaseRound (s : Sem) (t : Nat) (release_queue : thread_queue) (delta : Int) :
    Sem × thread_queue :=
  if ((s.lessen t delta).thread t).sem_count ≤ 0 then
    let (s', release_queue) := (s.lessen t delta).wake release_queue fun thread =>
      { thread with sem_count := 0, sem_deleted_retcode := 0 }
    (s'.give delta, release_queue)
  else ((s.lessen t delta).give delta, release_queue)

/-- `none` where the loop has not ended with this fuel, or where it reads a field of the null
pointer. -/
def releaseLoop : Nat → Sem → thread_queue → Int → Option (Sem × thread_queue)
  | 0, _, _, _ => none
  | fuel + 1, s, release_queue, count =>
    if count > 0 then
      if s.count < 0 then
        match thread_lookat_queue s.q with
        | none => none
        | some t =>
          let delta := min count (s.thread t).sem_count
          let (s', release_queue) := s.releaseRound t release_queue delta
          releaseLoop fuel s' release_queue (count - delta)
      else releaseLoop fuel (s.give count) release_queue (count - count)
    else some (s, release_queue)

/-- The error, the semaphore and the queue of the threads released. -/
def release_sem_etc (s : Sem) (fuel : Nat) (id count : Int) :
    Option (SemError × Sem × thread_queue) :=
  if id < 0 then some (B_BAD_SEM_ID, s, ⟨none, none⟩)
  else if count ≤ 0 then some (ERR_INVALID_ARGS, s, ⟨none, none⟩)
  else if s.id ≠ id then some (B_BAD_SEM_ID, s, ⟨none, none⟩)
  else (releaseLoop fuel s ⟨none, none⟩ count).map fun (s, queue) => (B_NO_ERROR, s, queue)

/-- The loop of `remove_thread_from_sem`. The thread it looks at is `t`, at first the one removed,
and later the one dequeued last. -/
def wakeLoop : Nat → Sem → Nat → thread_queue → Option (Sem × thread_queue)
  | 0, _, _, _ => none
  | fuel + 1, s, t, queue =>
    if s.count > 0 then
      match thread_lookat_queue s.q with
      | none => some (s, queue)
      | some t1 =>
        let delta := min (s.thread t).sem_count s.count
        let s' := s.lessen t delta
        if (s'.thread t).sem_count ≤ 0 then
          let (s'', queue) := s'.wake queue fun thread => thread
          wakeLoop fuel (s''.give (-delta)) t1 queue
        else wakeLoop fuel (s'.give (-delta)) t queue
    else some (s, queue)

/-- The threads to be woken up are added to `queue`. -/
def remove_thread_from_sem (s : Sem) (fuel t : Nat) (queue : thread_queue)
    (sem_errcode : SemError) : Option (SemError × Sem × thread_queue) :=
  match thread_dequeue_id fuel s.q_next s.q t with
  | none => none
  | some (none, _, _) => some (ERR_NOT_FOUND, s, queue)
  | some (some _, q, q_next) =>
    let (queue, q_next) := thread_enqueue q_next t queue
    let s := { s with
      count := s.count + (s.thread t).sem_acquire_count
      q
      q_next }.modify t fun thread => { thread with state := THREAD_STATE_READY, sem_errcode }
    (wakeLoop fuel s t queue).map fun (s, queue) => (B_NO_ERROR, s, queue)

end Sem

end Kernel
