import OpenBeOS.Kernel.Sem
import OpenBeOS.Kernel.Types

/-! # Ports

The calls of `port.c`, cut where they give up a port's lock. The semaphores are counters, which
are gone once deleted.
-/

namespace Kernel

open Function

def MAX_PORTS : Nat := 4096
def MAX_QUEUE_LENGTH : Int := 4096
def PORT_MAX_MESSAGE_SIZE : Nat := 65536
def PORT_FLAG_USE_USER_MEMCPY : BitVec 32 := 0x80000000

inductive PortError where
  | B_BAD_PORT_ID
  | B_NO_MORE_PORTS
  | B_TIMED_OUT
  | EINVAL
  | ENOMEM
  /-- The error of a semaphore that has gone before the wait. -/
  | B_BAD_SEM_ID
  deriving DecidableEq

/-- What fails behind a wait: `cbuf_get_chain` has no memory, or the copy of user memory faults behind
`copied` bytes, when a new chain holds `left` in the others. -/
inductive PortFault where
  | no_memory
  | user_memcpy (copied : Nat) (left : Nat → UInt8)

/-! ## The ports -/

structure Message where
  code : Int
  bytes : List UInt8
  deriving DecidableEq

structure port_msg where
  msg_code : Int
  data_cbuf : Option (List UInt8)
  data_len : Nat
  deriving DecidableEq

/-- A semaphore, by the id of the port that it was made for. -/
inductive PortSem where
  | read_sem (port : Int)
  | write_sem (port : Int)
  deriving DecidableEq

structure port_entry where
  id : Int
  capacity : Nat
  read_sem : PortSem
  write_sem : PortSem
  head : Nat
  tail : Nat
  total_count : Nat
  closed : Bool
  msg_queue : Nat → port_msg

/-- The entry of the queue for a message. -/
def Message.queued (m : Message) : port_msg :=
  ⟨m.code, if m.bytes = [] then none else some m.bytes, m.bytes.length⟩

/-- The part of the message for a buffer. -/
def Message.cut (m : Message) (buffer_size : Nat) : Message := ⟨m.code, m.bytes.take buffer_size⟩

/-- The message behind a copy that has got to its first bytes only. -/
def Message.partly (m : Message) (copied : Nat) (left : Nat → UInt8) : Message :=
  ⟨m.code, m.bytes.mapIdx fun i byte => if i < copied then byte else left i⟩

/-! ## The calls -/

/-- The arguments of `read_port_etc`; `msg_code` and `msg_buffer` say if the pointers are not null. -/
structure ReadArgs where
  id : Int
  msg_code : Bool
  msg_buffer : Bool
  buffer_size : Nat
  flags : BitVec 32
  timeout : Int

structure WriteArgs where
  id : Int
  msg : Message
  flags : BitVec 32
  timeout : Int

/-- Where a call is. `readCopy` has the number of its message among those handed out. -/
inductive PortCall where
  | readWait (args : ReadArgs) (cached_semid : PortSem)
  | readTake (args : ReadArgs)
  | readCopy (args : ReadArgs) (n siz : Nat) (cached_semid : PortSem)
  | writeWait (args : WriteArgs) (cached_semid : PortSem)
  | writeStore (args : WriteArgs)
  | writeRelease (cached_semid : PortSem)
  | deleteSems (r_sem w_sem : PortSem)
  | deleteWriteSem (w_sem : PortSem)
  | returned (result : Except PortError Nat)
  | panicked

/-- What `acquire_sem_etc` returns. -/
inductive Acquired where
  | B_NO_ERROR
  | ERR_SEM_DELETED
  | B_BAD_SEM_ID
  | EINTR
  | ERR_SEM_TIMED_OUT
  deriving DecidableEq

/-- What a read was given: the size of its buffer and the message, if the copy was no fault. -/
structure Handed where
  buffer_size : Nat
  message : Option Message
  deriving DecidableEq

/-- `enqueued` are the messages that the writes to an id have put into a queue, and `handed` what the
reads of an id have taken, both in order. -/
structure PortSystem where
  ports : Nat → port_entry
  next_port : Int
  sems : PortSem → Option Nat
  calls : List PortCall
  enqueued : Int → List Message
  handed : Int → List Handed

namespace PortSystem

def slotOf (id : Int) : Nat := id.toNat % MAX_PORTS

section

variable (s : PortSystem)

/-- The entry in the slot of the id. -/
def portOf (id : Int) : port_entry := s.ports (slotOf id)

def setPort (slot : Nat) (port : port_entry) : PortSystem :=
  { s with ports := update s.ports slot port }

def setCall (i : Nat) (call : PortCall) : PortSystem :=
  { s with calls := s.calls.set i call }

def addCall (call : PortCall) : PortSystem := { s with calls := s.calls ++ [call] }

def setSem (sem : PortSem) (count : Option Nat) : PortSystem :=
  { s with sems := update s.sems sem count }

def release_sem (sem : PortSem) : PortSystem :=
  s.setSem sem ((s.sems sem).map (· + 1))

def delete_sem (sem : PortSem) : PortSystem := s.setSem sem none

def enqueue (id : Int) (msg : Message) : PortSystem :=
  { s with enqueued := update s.enqueued id (s.enqueued id ++ [msg]) }

def hand (id : Int) (handed : Handed) : PortSystem :=
  { s with handed := update s.handed id (s.handed id ++ [handed]) }

/-! ## Making, closing and deleting a port -/

/-- The first slot free among the last `left` ones. -/
def freeSlot (s : PortSystem) : (left : Nat) → Option Nat
  | 0 => none
  | left + 1 =>
    if (s.ports (MAX_PORTS - (left + 1))).id = -1 then some (MAX_PORTS - (left + 1))
    else s.freeSlot left

end

/-- The id for a port in the slot. -/
def nextId (next_port : Int) (slot : Nat) : Int :=
  if slot ≥ next_port.tmod MAX_PORTS then next_port + (slot - next_port.tmod MAX_PORTS)
  else next_port + (MAX_PORTS - (next_port.tmod MAX_PORTS - slot))

/-- The port in the free slot; `closed` is left as it was. -/
def fill (s : PortSystem) (slot capacity : Nat) (q : Nat → port_msg) : PortSystem :=
  let id := toInt (nextId s.next_port slot)
  { s with
    next_port := toInt (id + 1)
    sems := update (update s.sems (.read_sem id) (some 0)) (.write_sem id)
      (some capacity)
  }.setPort slot {
    s.ports slot with
    id, capacity
    read_sem := .read_sem id
    write_sem := .write_sem id
    head := 0
    tail := 0
    total_count := 0
    msg_queue := q }

/-- `q` is the memory of the queue, and `err` the error if there is no memory or no semaphore. -/
def create_port (s : PortSystem) (queue_length : Int) (q : Nat → port_msg) (err : Option PortError) :
    Except PortError Int × PortSystem :=
  if queue_length < 1 then (.error .EINVAL, s)
  else if queue_length > MAX_QUEUE_LENGTH then (.error .EINVAL, s)
  else
    match err with
    | some err => (.error err, s)
    | none =>
      match s.freeSlot MAX_PORTS with
      | some slot => (.ok (toInt (nextId s.next_port slot)), s.fill slot queue_length.toNat q)
      | none => (.error .B_NO_MORE_PORTS, s)

def close_port (s : PortSystem) (id : Int) : Option PortError × PortSystem :=
  if id < 0 then (some .B_BAD_PORT_ID, s)
  else if (s.portOf id).id ≠ id then (some .B_BAD_PORT_ID, s)
  else (none, s.setPort (slotOf id) { s.portOf id with closed := true })

/-- The call up to the first `delete_sem`. -/
def delete_port (s : PortSystem) (id : Int) : PortCall × PortSystem :=
  if id < 0 then (.returned (.error .B_BAD_PORT_ID), s)
  else if (s.portOf id).id ≠ id then (.returned (.error .B_BAD_PORT_ID), s)
  else (.deleteSems (s.portOf id).read_sem (s.portOf id).write_sem,
    s.setPort (slotOf id) { s.portOf id with id := -1 })

/-! ## Reading -/

/-- The call up to the wait. -/
def read_port_etc (s : PortSystem) (args : ReadArgs) : PortCall :=
  if args.id < 0 then .returned (.error .B_BAD_PORT_ID)
  else if ¬ args.msg_code then .returned (.error .EINVAL)
  else if ¬ args.msg_buffer ∧ args.buffer_size > 0 then .returned (.error .EINVAL)
  else if args.timeout < 0 then .returned (.error .EINVAL)
  else if (s.portOf args.id).id ≠ args.id then .returned (.error .B_BAD_PORT_ID)
  else .readWait args (s.portOf args.id).read_sem

def readWoken (args : ReadArgs) : Acquired → PortCall
  | .ERR_SEM_DELETED | .EINTR => .returned (.error .B_BAD_PORT_ID)
  | .ERR_SEM_TIMED_OUT => .returned (.error .B_BAD_PORT_ID)
  | .B_BAD_SEM_ID => .returned (.error .B_BAD_SEM_ID)
  | .B_NO_ERROR => .readTake args

/-- The second section under the lock. -/
def readTake (s : PortSystem) (args : ReadArgs) : PortCall × PortSystem :=
  let port := s.portOf args.id
  if port.tail > port.capacity then (.panicked, s)
  else
    let msg := port.msg_queue port.tail
    let siz := min args.buffer_size msg.data_len
    (.readCopy args (s.handed args.id).length siz port.write_sem, (s.hand args.id
        ⟨args.buffer_size, some ⟨msg.msg_code, (msg.data_cbuf.getD []).take siz⟩⟩).setPort
          (slotOf args.id) {
        port with
        tail := (port.tail + 1) % port.capacity
        msg_queue := update port.msg_queue port.tail { msg with data_cbuf := none } })

/-- Whether the fault of the copy ends the call. -/
def readFaults (args : ReadArgs) (siz : Nat) : Option PortFault → Bool
  | some (.user_memcpy ..) => siz > 0 ∧ args.flags &&& PORT_FLAG_USE_USER_MEMCPY ≠ 0
  | _ => false

/-- The copy to the caller's buffer, which may fault, and the release. -/
def readCopy (s : PortSystem) (args : ReadArgs) (n siz : Nat) (cached_semid : PortSem)
    (fault : Option PortFault) : PortCall × PortSystem :=
  if readFaults args siz fault then
    -- `err` is the value of the comparison
    (.returned (.ok 1), { s with
        handed := update s.handed args.id
          ((s.handed args.id).modify n fun handed => { handed with message := none })
      }.release_sem cached_semid)
  else (.returned (.ok siz), s.release_sem cached_semid)

/-! ## Writing -/

/-- The call up to the wait. -/
def write_port_etc (s : PortSystem) (args : WriteArgs) : PortCall :=
  if args.id < 0 then .returned (.error .B_BAD_PORT_ID)
  else if args.msg.bytes.length > PORT_MAX_MESSAGE_SIZE then .returned (.error .EINVAL)
  else if (s.portOf args.id).id ≠ args.id then .returned (.error .B_BAD_PORT_ID)
  else if (s.portOf args.id).closed then .returned (.error .B_BAD_PORT_ID)
  else .writeWait args (s.portOf args.id).write_sem

def writeWoken (args : WriteArgs) : Acquired → PortCall
  | .ERR_SEM_DELETED | .EINTR => .returned (.error .B_BAD_PORT_ID)
  | .ERR_SEM_TIMED_OUT => .returned (.error .B_TIMED_OUT)
  | .B_BAD_SEM_ID => .returned (.error .B_BAD_SEM_ID)
  | .B_NO_ERROR => .writeStore args

/-- The message behind the copy to a chain, if there is memory for one. `err` is the value of the
comparison, and not negative, when the copy of user memory faults: the message is stored. -/
def copied (args : WriteArgs) : Option PortFault → Option Message
  | some .no_memory => if args.msg.bytes = [] then some args.msg else none
  | some (.user_memcpy copied left) =>
    if args.flags &&& PORT_FLAG_USE_USER_MEMCPY ≠ 0 then some (args.msg.partly copied left)
    else some args.msg
  | none => some args.msg

/-- The copy of the message, which may fail, and the second section under the lock. -/
def writeStore (s : PortSystem) (args : WriteArgs) (fault : Option PortFault) :
    PortCall × PortSystem :=
  match copied args fault with
  | none => (.returned (.error .ENOMEM), s)
  | some msg =>
    let port := s.portOf args.id
    if port.head ≥ port.capacity then (.panicked, s)
    else
      (.writeRelease port.read_sem, (s.enqueue args.id msg).setPort (slotOf args.id) {
          port with
          head := (port.head + 1) % port.capacity
          total_count := port.total_count + 1
          msg_queue := update port.msg_queue port.head msg.queued })

/-! ## The system -/

/-- `wake` ends the wait of a call, and `go` is its next section. -/
inductive PortAction where
  | create_port (queue_length : Int) (q : Nat → port_msg) (err : Option PortError)
  | close_port (id : Int)
  | delete_port (id : Int)
  | read_port_etc (args : ReadArgs)
  | write_port_etc (args : WriteArgs)
  | wake (i : Nat) (res : Acquired)
  | go (i : Nat) (fault : Option PortFault)

/-- The semaphores behind the end of a wait with these flags. -/
def acquire (s : PortSystem) (sem : PortSem) (flags : BitVec 32) : Acquired → Option PortSystem
  | .B_NO_ERROR =>
    match s.sems sem with
    | some (count + 1) => some (s.setSem sem (some count))
    | _ => none
  | .ERR_SEM_DELETED | .B_BAD_SEM_ID => if s.sems sem = none then some s else none
  | .EINTR => if flags &&& B_CAN_INTERRUPT ≠ 0 then some s else none
  | .ERR_SEM_TIMED_OUT => if flags &&& B_TIMEOUT ≠ 0 then some s else none

/-- The section of a call that does not wait, and where the call is behind it. -/
def section2 (s : PortSystem) (fault : Option PortFault) : PortCall → Option (PortCall × PortSystem)
  | .readTake args => some (s.readTake args)
  | .readCopy args n siz cached_semid => some (s.readCopy args n siz cached_semid fault)
  | .writeStore args => some (s.writeStore args fault)
  | .writeRelease cached_semid => some (.returned (.ok 0), s.release_sem cached_semid)
  | .deleteSems r_sem w_sem => some (.deleteWriteSem w_sem, s.delete_sem r_sem)
  | .deleteWriteSem w_sem => some (.returned (.ok 0), s.delete_sem w_sem)
  | _ => none

def step (s : PortSystem) : PortAction → Option PortSystem
  | .create_port queue_length q err => some (s.create_port queue_length q err).2
  | .close_port id => some (s.close_port id).2
  | .delete_port id => some ((s.delete_port id).2.addCall (s.delete_port id).1)
  | .read_port_etc args => some (s.addCall (s.read_port_etc args))
  | .write_port_etc args => some (s.addCall (s.write_port_etc args))
  | .wake i res =>
    match s.calls[i]? with
    | some (.readWait args cached_semid) =>
      (s.acquire cached_semid args.flags res).map fun s => s.setCall i (readWoken args res)
    | some (.writeWait args cached_semid) =>
      (s.acquire cached_semid args.flags res).map fun s => s.setCall i (writeWoken args res)
    | _ => none
  | .go i fault =>
    match s.calls[i]? with
    | some call => (s.section2 fault call).map fun (call, s) => s.setCall i call
    | none => none

def Step (s : PortSystem) (a : PortAction) (s' : PortSystem) : Prop := s.step a = some s'

/-- What `port_init` leaves: no port, and no call. -/
def Init (s : PortSystem) : Prop :=
  (∀ slot, (s.ports slot).id = -1) ∧ s.next_port = 0 ∧ (∀ sem, s.sems sem = none) ∧ s.calls = [] ∧
    (∀ id, s.enqueued id = []) ∧ ∀ id, s.handed id = []

end PortSystem

end Kernel
