import OpenBeOS.Kernel.Port
import OpenBeOS.Lib.Reachable

/-! # The slots of the ports

The calls of `port.c` one after the other, with the memory that they get and give back. A slot is
used for one port after the other, and what `kmalloc` returns holds anything.
-/

namespace Kernel

open Reachable Function

/-! ## The slots and the memory -/

/-- `struct port_msg`, the data being a pointer. -/
structure queue_entry where
  msg_code : Int
  data_cbuf : Option Nat
  data_len : Nat

/-- `struct port_entry`, with pointers to its name and its queue. -/
structure port_slot where
  id : Int
  capacity : Nat
  name : Option Nat
  read_sem : Nat
  write_sem : Nat
  head : Nat
  tail : Nat
  total_count : Nat
  closed : Bool
  msg_queue : Nat

/-- `blocks` are the pointers of `kmalloc` in use, and `chains` those of `cbuf_get_chain`. `freed` are
those that `cbuf_free_chain` was called with, and `misfreed` the pointers given back that were not
in use. -/
structure PortTable where
  ports : Nat → port_slot
  next_port : Int
  sems : Nat → Option Nat
  queues : Nat → Nat → queue_entry
  blocks : Nat → Bool
  chains : Nat → Bool
  freed : List Nat
  misfreed : List Nat

namespace PortTable

section

variable (s : PortTable)

def portOf (id : Int) : port_slot := s.ports (PortSystem.slotOf id)

def setPort (slot : Nat) (port : port_slot) : PortTable :=
  { s with ports := update s.ports slot port }

def kmalloc (p : Nat) : PortTable := { s with blocks := update s.blocks p true }

def kfree (p : Nat) : PortTable :=
  if s.blocks p then { s with blocks := update s.blocks p false }
  else { s with misfreed := s.misfreed ++ [p] }

def cbuf_get_chain (c : Nat) : PortTable :=
  { s with chains := update s.chains c true }

def cbuf_free_chain (c : Nat) : PortTable :=
  if s.chains c then
    { s with chains := update s.chains c false, freed := s.freed ++ [c] }
  else { s with freed := s.freed ++ [c], misfreed := s.misfreed ++ [c] }

def setSem (sem : Nat) (count : Option Nat) : PortTable :=
  { s with sems := update s.sems sem count }

def release_sem (sem : Nat) : PortTable := s.setSem sem ((s.sems sem).map (· + 1))

def delete_sem (sem : Nat) : PortTable := s.setSem sem none

def setQueue (q : Nat) (entries : Nat → queue_entry) : PortTable :=
  { s with queues := update s.queues q entries }

/-! ## Making a port -/

/-- The first slot free among the last `left` ones. -/
def freeSlot (s : PortTable) : (left : Nat) → Option Nat
  | 0 => none
  | left + 1 =>
    if (s.ports (MAX_PORTS - (left + 1))).id = -1 then some (MAX_PORTS - (left + 1))
    else s.freeSlot left

end

/-- What the calls that `create_port` makes return: pointers, with the contents of the queue, and
semaphores. -/
structure CreateEnv where
  temp_name : Option Nat
  q : Option (Nat × (Nat → queue_entry))
  sem_r : Except PortError Nat
  sem_w : Except PortError Nat

section

variable (s : PortTable)

/-- The port in the free slot; `closed` is left as it was. -/
def fill (slot capacity temp_name q sem_r sem_w : Nat) : PortTable :=
  let id := toInt (PortSystem.nextId s.next_port slot)
  { s with next_port := toInt (id + 1) }.setPort slot {
    s.ports slot with
    id, capacity
    name := some temp_name
    read_sem := sem_r
    write_sem := sem_w
    msg_queue := q
    head := 0
    tail := 0
    total_count := 0 }

/-- The search for a slot, with all that a port needs at hand. -/
def place (capacity temp_name q sem_r sem_w : Nat) :
    Except PortError Int × PortTable :=
  match s.freeSlot MAX_PORTS with
  | some slot =>
    (.ok (toInt (PortSystem.nextId s.next_port slot)), s.fill slot capacity temp_name q sem_r sem_w)
  | none =>
    -- the clean-up behind the search is followed by the one of the label
    let s := (s.kfree q).kfree temp_name
    let s := (s.delete_sem sem_w).delete_sem sem_r
    (.error .B_NO_MORE_PORTS, (s.kfree temp_name).kfree q)

def create_port (queue_length : Int) (env : CreateEnv) :
    Except PortError Int × PortTable :=
  match env.temp_name with
  | none => (.error .ENOMEM, s)
  | some temp_name =>
    let s := s.kmalloc temp_name
    if queue_length < 1 then (.error .EINVAL, s)
    else if queue_length > MAX_QUEUE_LENGTH then (.error .EINVAL, s)
    else
      match env.q with
      | none => (.error .ENOMEM, s.kfree temp_name)
      | some (q, entries) =>
        let s := (s.kmalloc q).setQueue q entries
        match env.sem_r with
        | .error err => (.error err, (s.kfree temp_name).kfree q)
        | .ok sem_r =>
          let s := s.setSem sem_r (some 0)
          match env.sem_w with
          | .error err => (.error err, ((s.delete_sem sem_r).kfree temp_name).kfree q)
          | .ok sem_w =>
            (s.setSem sem_w (some queue_length.toNat)).place queue_length.toNat temp_name q
              sem_r sem_w

/-! ## Closing and deleting a port -/

def close_port (id : Int) : PortTable :=
  if id < 0 then s
  else if (s.portOf id).id ≠ id then s
  else s.setPort (PortSystem.slotOf id) { s.portOf id with closed := true }

/-- The pointers in the entries of a queue, from the first entry to the last. -/
def pointers (q capacity : Nat) : List Nat :=
  (List.range capacity).filterMap fun i => (s.queues q i).data_cbuf

def delete_port (id : Int) : PortTable :=
  if id < 0 then s
  else if (s.portOf id).id ≠ id then s
  else
    let port := s.portOf id
    let s := s.setPort (PortSystem.slotOf id) { port with id := -1, name := none }
    let s := (s.pointers port.msg_queue port.capacity).foldl cbuf_free_chain s
    let s := s.kfree port.msg_queue
    let s := (port.name.map s.kfree).getD s
    (s.delete_sem port.read_sem).delete_sem port.write_sem

/-! ## Writing and reading -/

/-- A message in the entry at the write end; there is no result if the call panics. -/
def store (id : Int) (entry : queue_entry) : Option PortTable :=
  let port := s.portOf id
  if port.head ≥ port.capacity then none
  else
    some (((s.setQueue port.msg_queue
      (update (s.queues port.msg_queue) port.head entry)).setPort (PortSystem.slotOf id) {
        port with
        head := (port.head + 1) % port.capacity
        total_count := port.total_count + 1 }).release_sem port.read_sem)

/-- A write behind its wait; `chain` is what `cbuf_get_chain` returns. -/
def written (id msg_code : Int) (buffer_size : Nat) (chain : Option Nat) :
    Option PortTable :=
  if buffer_size > 0 then
    match chain with
    | none => some s
    | some c => (s.cbuf_get_chain c).store id ⟨msg_code, some c, buffer_size⟩
  else s.store id ⟨msg_code, none, buffer_size⟩

/-- A read behind its wait. Whether the copy faults or not, the chain is freed. -/
def taken (id : Int) : Option PortTable :=
  let port := s.portOf id
  if port.tail > port.capacity then none
  else
    let entry := s.queues port.msg_queue port.tail
    let s := (s.setQueue port.msg_queue (update (s.queues port.msg_queue) port.tail
      { entry with data_cbuf := none })).setPort (PortSystem.slotOf id) {
        port with tail := (port.tail + 1) % port.capacity }
    -- `cbuf_free_chain` does nothing for a null pointer
    let s := (entry.data_cbuf.map s.cbuf_free_chain).getD s
    some (s.release_sem port.write_sem)

end

/-! ## Histories -/

/-- The calls. `res` is the end of a wait, and `chain` what `cbuf_get_chain` returns. -/
inductive TableCall where
  | create_port (queue_length : Int) (env : CreateEnv)
  | close_port (id : Int)
  | delete_port (id : Int)
  | write_port_etc (id msg_code : Int) (buffer_size : Nat) (res : Acquired) (chain : Option Nat)
  | read_port_etc (id : Int) (res : Acquired)

/-- The pointers and semaphores that are returned were not in use. -/
structure CreateEnv.Fresh (s : PortTable) (env : CreateEnv) : Prop where
  name : ∀ n ∈ env.temp_name, s.blocks n = false
  queue : ∀ q ∈ env.q, s.blocks q.1 = false ∧ env.temp_name ≠ some q.1
  sem_r : ∀ sem, env.sem_r = .ok sem → s.sems sem = none
  sem_w : ∀ sem, env.sem_w = .ok sem → s.sems sem = none ∧ env.sem_r ≠ .ok sem

/-- A wait for the semaphore of the port ends so. A wait without end is that of no call in a
history. -/
def Waits (s : PortTable) (sem : Nat) (res : Acquired) (s' : PortTable) : Prop :=
  match res with
  | .B_NO_ERROR => ∃ count, s.sems sem = some (count + 1) ∧ s' = s.setSem sem (some count)
  | _ => s' = s

/-- The check of the port, and the wait, in front of what the call does with a unit. A call that refuses
its arguments does no more than one whose wait fails. -/
def Enters (s : PortTable) (id : Int) (sem : port_slot → Nat) (res : Acquired)
    (next : PortTable → Option PortTable) (s' : PortTable) : Prop :=
  if id < 0 ∨ (s.portOf id).id ≠ id then s' = s
  else ∃ s₁, s.Waits (sem (s.portOf id)) res s₁ ∧
    if res = .B_NO_ERROR then next s₁ = some s' else s' = s₁

def Step (s : PortTable) (call : TableCall) (s' : PortTable) : Prop :=
  match call with
  | .create_port queue_length env => CreateEnv.Fresh s env ∧ s' = (s.create_port queue_length env).2
  | .close_port id => s' = s.close_port id
  | .delete_port id => s' = s.delete_port id
  | .write_port_etc id msg_code buffer_size res chain =>
    (∀ c ∈ chain, s.chains c = false) ∧
      if buffer_size > PORT_MAX_MESSAGE_SIZE ∨ (s.portOf id).closed then s' = s
      else s.Enters id port_slot.write_sem res (fun s => s.written id msg_code buffer_size chain) s'
  | .read_port_etc id res => s.Enters id port_slot.read_sem res (fun s => s.taken id) s'

/-- What `port_init` leaves. -/
def Init (s : PortTable) : Prop :=
  (∀ slot, (s.ports slot).id = -1 ∧ (s.ports slot).closed = false) ∧ s.next_port = 0 ∧
    s.misfreed = []

end PortTable

end Kernel
