import OpenBeOS.Lib.Reachable

/-! # Messages between the CPUs

The calls of `smp_send_ici()`, `smp_send_broadcast_ici()` and `smp_process_pending_ici()` run side
by side, and what a call does between two of its lock-protected sections belongs to one of them.
Every call is a party of its own, and only says on which CPU it is: so interrupts, and the calls a
sender makes while it waits, are among the runs. A linked list is the list of its members, and
`kfree()` does nothing here.

The history (which send a message is used for, what has been processed and what has been returned)
is written along.
-/

namespace Smp

open Function

def SMP_MSG_FLAG_ASYNC : Nat := 0
def SMP_MSG_FLAG_SYNC : Nat := 1

/-- Where a message has been found. -/
inductive Mailbox where
  | MAILBOX_LOCAL
  | MAILBOX_BCAST
  deriving DecidableEq

open Mailbox

/-- `struct smp_msg`, without the link. -/
structure Msg where
  message : Nat
  data : Nat
  data2 : Nat
  data3 : Nat
  data_ptr : Nat
  flags : Nat
  ref_count : Int
  done : Bool
  proc_bitmap : BitVec 32
  deriving DecidableEq

/-- A message as `memset()` leaves it. -/
def Msg.zero : Msg := ⟨0, 0, 0, 0, 0, 0, 0, false, 0⟩

def CHECK_BIT (a : BitVec 32) (b : Nat) : Bool := (a &&& 1#32 <<< b) != 0

def SET_BIT (a : BitVec 32) (b : Nat) : BitVec 32 := a ||| 1#32 <<< b

/-- A call of `smp_send_ici()`, or of `smp_send_broadcast_ici()`, which has no `target_cpu`. -/
structure Call where
  curr_cpu : Nat
  target_cpu : Option Nat
  message : Nat
  data : Nat
  data2 : Nat
  data3 : Nat
  data_ptr : Nat
  flags : Nat
  deriving DecidableEq

/-- The CPUs, the pool of messages, and the calls to come: `call` are the sends, and `cpu` says
where a call of `smp_process_pending_ici()` is made. -/
structure Machine (μ : Type) where
  smp_num_cpus : Nat
  pool : List μ
  call : Nat → Call
  cpu : Nat → Nat
  two_le : 2 ≤ smp_num_cpus
  le_bits : smp_num_cpus ≤ 32
  pool_nodup : pool.Nodup
  mem_pool : ∀ m, m ∈ pool
  curr_lt : ∀ i, (call i).curr_cpu < smp_num_cpus
  target_lt : ∀ i t, (call i).target_cpu = some t → t < smp_num_cpus
  cpu_lt : ∀ w, cpu w < smp_num_cpus

/-- Where a send is. -/
inductive Sending (μ : Type) where
  | idle
  /-- It has found a message, but is for its own CPU. -/
  | bounced (msg : μ)
  /-- It has set up a message. -/
  | ready (msg : μ)
  /-- It waits until the message is done. -/
  | waiting (msg : μ)
  | finished
  deriving DecidableEq

/-- Where a call of `smp_process_pending_ici()` is. -/
inductive Working (μ : Type) where
  | idle
  /-- Its own mailbox is empty. -/
  | looking
  | taken (msg : μ) (source_mailbox : Mailbox)
  /-- It was the last one to decrement the `ref_count`. -/
  | last (msg : μ) (source_mailbox : Mailbox)
  | unlinked (msg : μ)
  | finished
  deriving DecidableEq

/-- A message that has been processed: the send it was used for, the CPU, and what it said. -/
structure Entry where
  send : Nat
  cpu : Nat
  message : Nat
  data : Nat
  data2 : Nat
  data3 : Nat
  deriving DecidableEq

structure State (μ : Type) where
  msgs : μ → Msg
  free_msgs : List μ
  free_msg_count : Int
  smp_msgs : Nat → List μ
  smp_broadcast_msgs : List μ
  sending : Nat → Sending μ
  working : Nat → Working μ
  -- the history
  owner : μ → Nat
  processed : List Entry
  returned : List Nat

/-- The lock-protected sections. -/
inductive Action where
  | find_free_message (send : Nat)
  | bounce (send : Nat)
  | post (send : Nat)
  | acknowledge (send : Nat)
  | check_local (work : Nat)
  | check_broadcast (work : Nat)
  | process (work : Nat)
  | unlink (work : Nat)
  | complete (work : Nat)
  deriving DecidableEq

section Steps

variable {μ : Type} [DecidableEq μ]

/-- `smp_init()`. -/
def smp_init (M : Machine μ) : State μ where
  msgs := fun _ => .zero
  free_msgs := M.pool
  free_msg_count := M.pool.length
  smp_msgs := fun _ => []
  smp_broadcast_msgs := []
  sending := fun _ => .idle
  working := fun _ => .idle
  owner := fun _ => 0
  processed := []
  returned := []

/-- The fields of a message that a send sets. In `smp_send_ici()` all three data go to the first
field, and the others keep what they had. -/
def Machine.setUp (M : Machine μ) (call : Call) (msg : Msg) : Msg :=
  match call.target_cpu with
  | some _ => { msg with
      message := call.message, data := call.data3, data_ptr := call.data_ptr, ref_count := 1,
      flags := call.flags, done := false }
  | none => { msg with
      message := call.message, data := call.data, data2 := call.data2, data3 := call.data3,
      data_ptr := call.data_ptr, ref_count := M.smp_num_cpus - 1, flags := call.flags,
      proc_bitmap := SET_BIT 0 call.curr_cpu, done := false }

/-- `find_free_message()`, and what is done with the message before it is in a mailbox. -/
def find_free_message (M : Machine μ) (i : Nat) (s : State μ) : Option (State μ) :=
  match s.sending i, s.free_msgs with
  | .idle, m :: rest =>
    if s.free_msg_count ≤ 0 then none
    else
      let s := { s with
        free_msgs := rest, free_msg_count := s.free_msg_count - 1,
        owner := update s.owner m i }
      let call := M.call i
      if call.target_cpu = some call.curr_cpu then
        some { s with sending := update s.sending i (.bounced m) }
      else
        some { s with
          msgs := update s.msgs m (M.setUp call (s.msgs m))
          sending := update s.sending i (.ready m) }
  | _, _ => none

/-- `return_free_message()`, for a send. -/
def return_free_message (i : Nat) (m : μ) (s : State μ) : State μ :=
  { s with
    free_msgs := m :: s.free_msgs, free_msg_count := s.free_msg_count + 1,
    returned := s.returned ++ [i] }

/-- nope, cant do that -/
def bounce (i : Nat) (s : State μ) : Option (State μ) :=
  match s.sending i with
  | .bounced m => some (return_free_message i m { s with sending := update s.sending i .finished })
  | _ => none

/-- The message is put into the mailbox. -/
def post (M : Machine μ) (i : Nat) (s : State μ) : Option (State μ) :=
  match s.sending i with
  | .ready m =>
    let s := match (M.call i).target_cpu with
      | some t => { s with smp_msgs := update s.smp_msgs t (m :: s.smp_msgs t) }
      | none => { s with smp_broadcast_msgs := m :: s.smp_broadcast_msgs }
    let pc := if (M.call i).flags = SMP_MSG_FLAG_SYNC then .waiting m else .finished
    some { s with sending := update s.sending i pc }
  | _ => none

/-- The message is done, and it is the sender that puts it back. -/
def acknowledge (i : Nat) (s : State μ) : Option (State μ) :=
  match s.sending i with
  | .waiting m =>
    if (s.msgs m).done = false then none
    else
      some (return_free_message i m { s with sending := update s.sending i .finished })
  | _ => none

section

variable (M : Machine μ) (w : Nat) (s : State μ)

/-- `smp_check_for_message()`, up to the end of the first section. -/
def check_local : Option (State μ) :=
  match s.working w with
  | .idle =>
    match s.smp_msgs (M.cpu w) with
    | m :: rest => some { s with
        smp_msgs := update s.smp_msgs (M.cpu w) rest
        working := update s.working w (.taken m MAILBOX_LOCAL) }
    | [] => some { s with working := update s.working w .looking }
  | _ => none

/-- The second section, over the broadcast mailbox. -/
def check_broadcast : Option (State μ) :=
  match s.working w with
  | .looking =>
    -- those whose bit is set have been handled already
    match s.smp_broadcast_msgs.find? fun m => !CHECK_BIT (s.msgs m).proc_bitmap (M.cpu w) with
    | some m => some { s with
        msgs := update s.msgs m { s.msgs m with
          proc_bitmap := SET_BIT (s.msgs m).proc_bitmap (M.cpu w) }
        working := update s.working w (.taken m MAILBOX_BCAST) }
    | none => some { s with working := update s.working w .finished }
  | _ => none

/-- The CPU does what the message says, and takes its part of the `ref_count`. -/
def process : Option (State μ) :=
  match s.working w with
  | .taken m source_mailbox =>
    let msg := s.msgs m
    let old_refcount := msg.ref_count
    some { s with
      processed := s.processed ++
        [⟨s.owner m, M.cpu w, msg.message, msg.data, msg.data2, msg.data3⟩]
      msgs := update s.msgs m { msg with ref_count := old_refcount - 1 }
      working := update s.working w
        (if old_refcount = 1 then .last m source_mailbox else .finished) }
  | _ => none

/-- The message is removed from its mailbox, if it is there. -/
def unlink : Option (State μ) :=
  match s.working w with
  | .last m source_mailbox =>
    let s := match source_mailbox with
      | MAILBOX_BCAST => { s with smp_broadcast_msgs := s.smp_broadcast_msgs.erase m }
      | MAILBOX_LOCAL => { s with
          smp_msgs := update s.smp_msgs (M.cpu w) ((s.smp_msgs (M.cpu w)).erase m) }
    some { s with working := update s.working w (.unlinked m) }
  | _ => none

end

/-- The caller is told, or the message is free again. -/
def complete (w : Nat) (s : State μ) : Option (State μ) :=
  match s.working w with
  | .unlinked m =>
    let s := if (s.msgs m).flags = SMP_MSG_FLAG_SYNC then
        { s with msgs := update s.msgs m { s.msgs m with done := true } }
      else return_free_message (s.owner m) m s
    some { s with working := update s.working w .finished }
  | _ => none

/-- A step of one of the calls. -/
def next (M : Machine μ) (s : State μ) : Action → Option (State μ)
  | .find_free_message i => find_free_message M i s
  | .bounce i => bounce i s
  | .post i => post M i s
  | .acknowledge i => acknowledge i s
  | .check_local w => check_local M w s
  | .check_broadcast w => check_broadcast M w s
  | .process w => process M w s
  | .unlink w => unlink M w s
  | .complete w => complete w s

end Steps

end Smp
