import OpenBeOS.Kernel.Port
import OpenBeOS.Lib.Circular
import OpenBeOS.Lib.Reachable

/-! # Ports deliver in order

`Sound` is the invariant: the units of a port's semaphores, with those that calls hold, are no more
than the messages in its queue and the free places there. Every safe step keeps it.
-/

namespace Kernel

open Reachable Circular Function List Option

/-! ## What a port delivers -/

/-- The read got the message, as far as there was room in its buffer. -/
def Handed.Gets (handed : Handed) (msg : Message) : Prop :=
  handed.message = some (msg.cut handed.buffer_size)

/-- The read has taken the message, which a fault of its copy may have lost. -/
def Handed.Takes (handed : Handed) (msg : Message) : Prop := handed.message = none ∨ handed.Gets msg

/-- The queue of the port holds the messages, and no more. -/
structure port_entry.Queue (port : port_entry) (stored : List Message) : Prop where
  tail_lt : port.tail < port.capacity
  length_le : stored.length ≤ port.capacity
  head_eq : port.head = (port.tail + stored.length) % port.capacity
  stores : Stores port.capacity port.msg_queue port.tail (stored.map Message.queued)

theorem port_entry.Queue.pop {port : port_entry} {msg : Message} {stored : List Message}
    (h : port.Queue (msg :: stored)) (v : port_msg) :
    port_entry.Queue { port with
      tail := (port.tail + 1) % port.capacity
      msg_queue := update port.msg_queue port.tail v } stored := by
  have hpos : 0 < port.capacity := Nat.zero_lt_of_lt h.tail_lt
  refine ⟨Nat.mod_lt _ hpos, Nat.le_of_succ_le h.length_le, ?_, ?_⟩
  · show port.head = ((port.tail + 1) % port.capacity + stored.length) % port.capacity
    rw [h.head_eq, Nat.mod_add_mod, length_cons, Nat.add_assoc, Nat.add_comm 1]
  · refine h.stores.pop h.tail_lt ?_
    rw [← map_cons, length_map]
    exact h.length_le

theorem port_entry.Queue.push {port : port_entry} {msg : Message} {stored : List Message}
    (h : port.Queue stored) (hroom : stored.length < port.capacity) (total_count : Nat) :
    port_entry.Queue { port with
      head := (port.head + 1) % port.capacity
      total_count
      msg_queue := update port.msg_queue port.head msg.queued } (stored ++ [msg]) := by
  refine ⟨h.tail_lt, ?_, ?_, ?_⟩
  · rw [length_append, length_singleton]
    exact hroom
  · show (port.head + 1) % port.capacity = _
    rw [h.head_eq, Nat.mod_add_mod, length_append, length_singleton, Nat.add_assoc]
  · have hlength : (stored.map Message.queued).length = stored.length := length_map ..
    show Stores port.capacity (update port.msg_queue port.head msg.queued) port.tail
      ((stored ++ [msg]).map Message.queued)
    rw [h.head_eq, map_append, ← hlength]
    exact h.stores.push h.tail_lt (hlength ▸ hroom)

namespace PortSystem

/-- The reads of an id have got the first of the messages written to it, and its queue holds the
others. -/
def Delivers (s : PortSystem) (id : Int) : Prop :=
  ∃ done stored, s.enqueued id = done ++ stored ∧ List.Forall₂ Handed.Gets (s.handed id) done ∧
    (0 ≤ id → (s.portOf id).id = id → (s.portOf id).Queue stored)

/-- The second section finds the port that the call was made for, unless there is no memory for the
message of a write. -/
def PlacedSection (s : PortSystem) (fault : Option PortFault) : PortCall → Prop
  | .readTake args => (s.portOf args.id).id = args.id
  | .writeStore args => copied args fault = none ∨ (s.portOf args.id).id = args.id
  | _ => True

/-- The steps that the queues rely on; the id of a new port is to be an `int`. -/
def Placed (s : PortSystem) : PortAction → Prop
  | .create_port .. => ∀ slot ∈ s.freeSlot MAX_PORTS, nextId s.next_port slot + 1 < 2 ^ 31
  | .go i fault => ∀ call ∈ s.calls[i]?, s.PlacedSection fault call
  | _ => True

/-- The section that the step takes, if it takes one, is as wanted. -/
def Section (s : PortSystem) (ok : Option PortFault → PortCall → Prop) : PortAction → Prop
  | .go i fault => ∀ call ∈ s.calls[i]?, ok fault call
  | _ => True

/-- The copy of a read does not fault. -/
def ReadsWhole (fault : Option PortFault) : PortCall → Prop
  | .readCopy args _ siz _ => readFaults args siz fault = false
  | _ => True

/-- The steps that no message is lost by. -/
def Safe (s : PortSystem) (a : PortAction) : Prop := s.Placed a ∧ s.Section ReadsWhole a

instance (s : PortSystem) (fault : Option PortFault) : DecidablePred (s.PlacedSection fault)
  | .readTake _ => inferInstanceAs (Decidable (_ = _))
  | .writeStore _ => inferInstanceAs (Decidable (_ ∨ _))
  | .readCopy .. | .readWait .. | .writeWait .. | .writeRelease _ | .deleteSems ..
  | .deleteWriteSem _ | .returned _ | .panicked => inferInstanceAs (Decidable True)

instance (s : PortSystem) : DecidablePred s.Placed
  | .create_port .. => inferInstanceAs (Decidable (∀ slot ∈ s.freeSlot MAX_PORTS, _ < _))
  | .go i fault => inferInstanceAs (Decidable (∀ call ∈ s.calls[i]?, s.PlacedSection fault call))
  | .close_port _ | .delete_port _ | .read_port_etc _ | .write_port_etc _ | .wake .. =>
    inferInstanceAs (Decidable True)

instance (fault : Option PortFault) : DecidablePred (ReadsWhole fault)
  | .readCopy .. => inferInstanceAs (Decidable (_ = _))
  | .readTake _ | .writeStore _ | .readWait .. | .writeWait .. | .writeRelease _ | .deleteSems ..
  | .deleteWriteSem _ | .returned _ | .panicked => inferInstanceAs (Decidable True)

instance (s : PortSystem) (ok : Option PortFault → PortCall → Prop)
    [∀ fault, DecidablePred (ok fault)] : DecidablePred (s.Section ok)
  | .go i fault => inferInstanceAs (Decidable (∀ call ∈ s.calls[i]?, ok fault call))
  | .create_port .. | .close_port _ | .delete_port _ | .read_port_etc _ | .write_port_etc _
  | .wake .. => inferInstanceAs (Decidable True)

instance (s : PortSystem) : DecidablePred s.Safe := fun _ => inferInstanceAs (Decidable (_ ∧ _))

variable {s s' : PortSystem} {id : Int}

theorem map_message_of_fits {handed : List Handed} {done : List Message}
    (h : List.Forall₂ Handed.Gets handed done)
    (hfits : ∀ x ∈ handed, ∀ msg ∈ done, msg.bytes.length ≤ x.buffer_size) :
    handed.map Handed.message = done.map some := by
  induction h with
  | nil => rfl
  | @cons x msg handed done hgets _ ih =>
    have hlength := hfits x (mem_cons_self ..) msg (mem_cons_self ..)
    have hcut : msg.cut x.buffer_size = msg := by
      rw [Message.cut, take_of_length_le hlength]
    rw [map_cons, map_cons, hgets, hcut, ih fun y hy m hm =>
      hfits y (mem_cons_of_mem _ hy) m (mem_cons_of_mem _ hm)]

/-! ## The units of a semaphore -/

/-- The semaphore of which the call has a unit. -/
def held : PortCall → Option PortSem
  | .readTake args => some (.read_sem args.id)
  | .writeStore args => some (.write_sem args.id)
  | .readCopy _ _ _ cached_semid => some cached_semid
  | .writeRelease cached_semid => some cached_semid
  | _ => none

def units (s : PortSystem) (sem : PortSem) : Nat :=
  (s.sems sem).getD 0 + s.calls.countP fun call => held call = some sem

theorem units_setCall {i : Nat} {call : PortCall} (hcall : s.calls[i]? = some call)
    (new : PortCall) (sem : PortSem) :
    (s.setCall i new).units sem + (if held call = some sem then 1 else 0) =
      s.units sem + (if held new = some sem then 1 else 0) := by
  obtain ⟨hi, hget⟩ := List.getElem?_eq_some_iff.mp hcall
  have hcount := countP_set (p := fun call => decide (held call = some sem)) (a := new) hi
  have hmem : (if held call = some sem then 1 else 0) ≤
      s.calls.countP fun call => held call = some sem := by
    split
    · rename_i hheld
      exact countP_pos_iff.mpr ⟨call, mem_of_getElem? hcall, decide_eq_true hheld⟩
    · exact Nat.zero_le _
  rw [hget] at hcount
  simp only [decide_eq_true_eq] at hcount
  show (s.sems sem).getD 0 + (s.calls.set i new).countP (fun call => held call = some sem) + _ = _
  unfold units
  omega

theorem units_addCall {call : PortCall} (hheld : held call = none) (sem : PortSem) :
    (s.addCall call).units sem = s.units sem := by
  show (s.sems sem).getD 0 + (s.calls ++ [call]).countP (fun call => held call = some sem) = _
  rw [countP_append, countP_singleton, hheld]
  rfl

theorem units_setSem (s : PortSystem) (sem : PortSem) (count : Option Nat) (sem' : PortSem) :
    (s.setSem sem count).units sem' + (if sem' = sem then (s.sems sem).getD 0 else 0) =
      s.units sem' + (if sem' = sem then count.getD 0 else 0) := by
  unfold units setSem
  split
  · rename_i hsem
    subst hsem
    simp only [update_self]
    omega
  · rename_i hne
    simp only [update_of_ne hne]

theorem units_release (s : PortSystem) (sem sem' : PortSem) :
    (s.release_sem sem).units sem' ≤ s.units sem' + (if sem' = sem then 1 else 0) := by
  have h := units_setSem s sem ((s.sems sem).map (· + 1)) sem'
  unfold release_sem
  cases hsem : s.sems sem with
  | none =>
    rw [hsem] at h
    simp only [map_none, getD_none] at h ⊢
    omega
  | some count =>
    rw [hsem] at h
    simp only [map_some, getD_some] at h ⊢
    split at h
    · rw [if_pos ‹_›]
      omega
    · rw [if_neg ‹_›]
      omega

theorem units_delete (s : PortSystem) (sem sem' : PortSem) :
    (s.delete_sem sem).units sem' ≤ s.units sem' := by
  have h := units_setSem s sem none sem'
  rw [getD_none, ite_self] at h
  unfold delete_sem
  omega

/-! ## The invariant -/

/-- The call is for a port that has been made, and holds the semaphores made for it. -/
def CallOk (next_port : Int) : PortCall → Prop
  | .readWait args cached_semid =>
    (0 ≤ args.id ∧ args.id < next_port) ∧ cached_semid = .read_sem args.id
  | .readTake args => 0 ≤ args.id ∧ args.id < next_port
  | .readCopy args _ _ cached_semid =>
    (0 ≤ args.id ∧ args.id < next_port) ∧ cached_semid = .write_sem args.id
  | .writeWait args cached_semid =>
    (0 ≤ args.id ∧ args.id < next_port) ∧ cached_semid = .write_sem args.id
  | .writeStore args => 0 ≤ args.id ∧ args.id < next_port
  | .writeRelease cached_semid => ∃ id < next_port, cached_semid = .read_sem id
  | _ => True

theorem CallOk.mono {next next' : Int} (hle : next ≤ next') {call : PortCall}
    (h : CallOk next call) : CallOk next' call := by
  cases call with
  | readTake | writeStore => exact ⟨h.1, Int.lt_of_lt_of_le h.2 hle⟩
  | readWait | readCopy | writeWait => exact ⟨⟨h.1.1, Int.lt_of_lt_of_le h.1.2 hle⟩, h.2⟩
  | writeRelease =>
    obtain ⟨id, hid, hsem⟩ := h
    exact ⟨id, Int.lt_of_lt_of_le hid hle, hsem⟩
  | _ => trivial

/-- The entry is free, or has a port whose semaphores are its own. -/
def PortOk (next_port : Int) (slot : Nat) (port : port_entry) : Prop :=
  port.id = -1 ∨ ((0 ≤ port.id ∧ port.id < next_port) ∧ slotOf port.id = slot ∧
    port.read_sem = .read_sem port.id ∧ port.write_sem = .write_sem port.id)

/-- The messages handed out and those left in the queue, which the units do not exceed. -/
def QueueOk (s : PortSystem) (id : Int) : Prop :=
  ∃ done stored, s.enqueued id = done ++ stored ∧ List.Forall₂ Handed.Takes (s.handed id) done ∧
    (0 ≤ id → (s.portOf id).id = id → (s.portOf id).Queue stored ∧
      s.units (.read_sem id) ≤ stored.length ∧
      s.units (.write_sem id) + stored.length ≤ (s.portOf id).capacity)

structure Sound (s : PortSystem) : Prop where
  next_nonneg : 0 ≤ s.next_port
  port : ∀ slot, PortOk s.next_port slot (s.ports slot)
  call : ∀ call ∈ s.calls, CallOk s.next_port call
  fresh : ∀ id, s.next_port ≤ id → s.enqueued id = [] ∧ s.handed id = []
  queue : ∀ id, s.QueueOk id

theorem init_sound (h : s.Init) : s.Sound := by
  obtain ⟨hports, hnext, -, hcalls, henqueued, hhanded⟩ := h
  refine ⟨Int.le_of_eq hnext.symm, fun slot => .inl (hports slot), fun call hcall => ?_,
    fun id _ => ⟨henqueued id, hhanded id⟩, fun id => ⟨[], [], henqueued id, ?_, ?_⟩⟩
  · rw [hcalls] at hcall
    exact absurd hcall not_mem_nil
  · rw [hhanded id]
    exact .nil
  · intro hpos hid
    have hfree : (s.portOf id).id = -1 := hports _
    omega

/-- The port may be gone or closed, but is no other one. -/
def Kept (port port' : port_entry) : Prop := port'.id = -1 ∨ ∃ closed, port' = { port with closed }

theorem Kept.refl (port : port_entry) : Kept port port := .inr ⟨port.closed, rfl⟩

/-- A step that puts no message into a queue, takes none and makes no port. -/
theorem Sound.weaken (h : s.Sound) (hnext : s'.next_port = s.next_port)
    (henqueued : s'.enqueued = s.enqueued) (hhanded : s'.handed = s.handed)
    (hports : ∀ slot, Kept (s.ports slot) (s'.ports slot))
    (hcalls : ∀ call ∈ s'.calls, CallOk s.next_port call)
    (hunits : ∀ sem, s'.units sem ≤ s.units sem) : s'.Sound := by
  refine ⟨hnext ▸ h.next_nonneg, fun slot => ?_, hnext ▸ hcalls, ?_, fun id => ?_⟩
  · rw [hnext]
    rcases hports slot with hfree | ⟨closed, hport⟩
    · exact .inl hfree
    · rw [hport]
      exact h.port slot
  · rw [hnext, henqueued, hhanded]
    exact h.fresh
  · obtain ⟨done, stored, hall, hgot, hqueue⟩ := h.queue id
    refine ⟨done, stored, henqueued ▸ hall, hhanded ▸ hgot, fun hpos hid => ?_⟩
    have hread := hunits (.read_sem id)
    have hwrite := hunits (.write_sem id)
    rcases hports (slotOf id) with hfree | ⟨closed, hport⟩
    · change (s'.ports (slotOf id)).id = id at hid
      omega
    · have hsame : s'.portOf id = { s.portOf id with closed } := hport
      rw [hsame] at hid ⊢
      obtain ⟨hstored, hunread, hroom⟩ := hqueue hpos hid
      refine ⟨⟨hstored.tail_lt, hstored.length_le, hstored.head_eq, hstored.stores⟩, ?_, ?_⟩
      · omega
      · show s'.units (.write_sem id) + stored.length ≤ (s.portOf id).capacity
        omega

/-! ## The calls that change no queue -/

theorem Sound.addCall (h : s.Sound) {call : PortCall} (hcall : CallOk s.next_port call)
    (hheld : held call = none) : (s.addCall call).Sound := by
  refine h.weaken rfl rfl rfl (fun _ => Kept.refl _) (fun call' hcall' => ?_) fun sem =>
    Nat.le_of_eq (units_addCall hheld sem)
  rcases mem_append.mp hcall' with hold | hnew
  · exact h.call call' hold
  · obtain rfl := mem_singleton.mp hnew
    exact hcall

theorem Sound.goOn (h : s.Sound) {i : Nat} {call new : PortCall} (hcall : s.calls[i]? = some call)
    (hok : CallOk s.next_port new) (sems : PortSem → Option Nat)
    (hunits : ∀ sem, PortSystem.units { s with sems } sem + (if held new = some sem then 1 else 0) ≤
      s.units sem + (if held call = some sem then 1 else 0)) :
    ({ s with sems }.setCall i new : PortSystem).Sound := by
  refine h.weaken rfl rfl rfl (fun _ => Kept.refl _) (fun call' hcall' => ?_) fun sem => ?_
  · rcases mem_or_eq_of_mem_set hcall' with hold | rfl
    · exact h.call call' hold
    · exact hok
  · have hset := @units_setCall { s with sems } i call hcall new sem
    have hle := hunits sem
    omega

theorem setPort_kept {slot : Nat} {port : port_entry} (hport : Kept (s.ports slot) port)
    (slot' : Nat) : Kept (s.ports slot') ((s.setPort slot port).ports slot') := by
  by_cases hslot : slot' = slot
  · subst hslot
    rw [show (s.setPort slot' port).ports slot' = port from update_self ..]
    exact hport
  · rw [show (s.setPort slot port).ports slot' = s.ports slot' from update_of_ne hslot ..]
    exact Kept.refl _

theorem Sound.close (h : s.Sound) (id : Int) : (s.close_port id).2.Sound := by
  unfold close_port
  split
  · exact h
  · split
    · exact h
    · exact h.weaken rfl rfl rfl (setPort_kept (.inr ⟨true, rfl⟩)) h.call fun _ => Nat.le_refl _

theorem Sound.delete (h : s.Sound) (id : Int) :
    ((s.delete_port id).2.addCall (s.delete_port id).1).Sound := by
  unfold delete_port
  split
  · exact h.addCall trivial rfl
  · split
    · exact h.addCall trivial rfl
    · have hgone : (s.setPort (slotOf id) { s.portOf id with id := -1 }).Sound :=
        h.weaken rfl rfl rfl (setPort_kept (.inl rfl)) h.call fun _ => Nat.le_refl _
      exact hgone.addCall trivial rfl

theorem Sound.found (h : s.Sound) (hpos : ¬ id < 0) (hid : (s.portOf id).id = id) :
    (0 ≤ id ∧ id < s.next_port) ∧ (s.portOf id).read_sem = .read_sem id ∧
      (s.portOf id).write_sem = .write_sem id := by
  rcases h.port (slotOf id) with hfree | ⟨hrange, -, hread, hwrite⟩
  · change (s.portOf id).id = -1 at hfree
    omega
  · change 0 ≤ (s.portOf id).id ∧ (s.portOf id).id < s.next_port at hrange
    change (s.portOf id).read_sem = .read_sem (s.portOf id).id at hread
    change (s.portOf id).write_sem = .write_sem (s.portOf id).id at hwrite
    rw [hid] at hrange hread hwrite
    exact ⟨hrange, hread, hwrite⟩

theorem Sound.read (h : s.Sound) (args : ReadArgs) : (s.addCall (s.read_port_etc args)).Sound := by
  unfold read_port_etc
  split
  · exact h.addCall trivial rfl
  · rename_i hpos
    split
    · exact h.addCall trivial rfl
    · split
      · exact h.addCall trivial rfl
      · split
        · exact h.addCall trivial rfl
        · split
          · exact h.addCall trivial rfl
          · rename_i hid
            obtain ⟨hrange, hread, -⟩ := h.found hpos (not_not.mp hid)
            exact h.addCall ⟨hrange, hread⟩ rfl

theorem Sound.write (h : s.Sound) (args : WriteArgs) :
    (s.addCall (s.write_port_etc args)).Sound := by
  unfold write_port_etc
  split
  · exact h.addCall trivial rfl
  · rename_i hpos
    split
    · exact h.addCall trivial rfl
    · split
      · exact h.addCall trivial rfl
      · rename_i hid
        split
        · exact h.addCall trivial rfl
        · obtain ⟨hrange, -, hwrite⟩ := h.found hpos (not_not.mp hid)
          exact h.addCall ⟨hrange, hwrite⟩ rfl

theorem Sound.release (h : s.Sound) {i : Nat} {call new : PortCall} {sem : PortSem}
    (hcall : s.calls[i]? = some call) (hok : CallOk s.next_port new) (hheld : held call = some sem)
    (hnew : held new = none) : ((s.release_sem sem).setCall i new).Sound := by
  refine h.goOn hcall hok _ fun sem' => ?_
  have hunits := units_release s sem sem'
  have hsem : some sem = some sem' ↔ sem' = sem := by
    rw [Option.some.injEq]
    exact eq_comm
  simp only [hheld, hnew, hsem, reduceCtorEq, if_false]
  exact hunits

/-! ## The end of a wait -/

/-- The wait ends with a unit of the semaphore, or with an error. -/
theorem acquire_spec {sem : PortSem} {flags : BitVec 32} {res : Acquired}
    (hacquire : s.acquire sem flags res = some s') :
    ∃ sems, s' = { s with sems } ∧ ∀ sem', PortSystem.units { s with sems } sem' +
      (if res = .B_NO_ERROR ∧ sem' = sem then 1 else 0) = s.units sem' := by
  have herror : ∀ {p : Prop} [Decidable p], res ≠ .B_NO_ERROR →
      (if p then some s else none) = some s' →
      ∃ sems, s' = { s with sems } ∧ ∀ sem', PortSystem.units { s with sems } sem' +
        (if res = .B_NO_ERROR ∧ sem' = sem then 1 else 0) = s.units sem' := by
    intro p _ hres hsome
    split at hsome
    · cases hsome
      exact ⟨s.sems, rfl, fun sem' => by rw [if_neg fun h => hres h.1]; rfl⟩
    · cases hsome
  cases res with
  | B_NO_ERROR =>
    unfold acquire at hacquire
    cases hsem : s.sems sem with
    | none =>
      simp only [hsem] at hacquire
      cases hacquire
    | some count =>
      cases count with
      | zero =>
        simp only [hsem] at hacquire
        cases hacquire
      | succ count =>
        simp only [hsem] at hacquire
        cases hacquire
        refine ⟨_, rfl, fun sem' => ?_⟩
        have hset := units_setSem s sem (some count) sem'
        rw [hsem] at hset
        simp only [getD_some] at hset
        change (s.setSem sem (some count)).units sem' + _ = _
        by_cases hne : sem' = sem
        · rw [if_pos hne, if_pos hne] at hset
          rw [if_pos ⟨rfl, hne⟩]
          omega
        · rw [if_neg hne, if_neg hne] at hset
          rw [if_neg fun h => hne h.2]
          exact hset
  | _ => exact herror nofun hacquire

/-- The end of a wait changes no more than the semaphores and the call. -/
theorem step_wake {i : Nat} {res : Acquired} (hstep : s.Step (.wake i res) s') :
    ∃ call sem flags sems new, s.calls[i]? = some call ∧ held call = none ∧
      s.acquire sem flags res = some { s with sems } ∧ s' = setCall { s with sems } i new ∧
      ((∃ args, call = .readWait args sem ∧ new = readWoken args res) ∨
        ∃ args, call = .writeWait args sem ∧ new = writeWoken args res) := by
  unfold Step at hstep
  rw [step.eq_def] at hstep
  cases hcall : s.calls[i]? with
  | none =>
    simp only [hcall] at hstep
    cases hstep
  | some call =>
    cases call with
    | readWait args sem =>
      simp only [hcall] at hstep
      obtain ⟨s₁, hacquire, rfl⟩ := map_eq_some_iff.mp hstep
      obtain ⟨sems, rfl, -⟩ := acquire_spec hacquire
      exact ⟨_, sem, _, sems, _, rfl, rfl, hacquire, rfl, .inl ⟨args, rfl, rfl⟩⟩
    | writeWait args sem =>
      simp only [hcall] at hstep
      obtain ⟨s₁, hacquire, rfl⟩ := map_eq_some_iff.mp hstep
      obtain ⟨sems, rfl, -⟩ := acquire_spec hacquire
      exact ⟨_, sem, _, sems, _, rfl, rfl, hacquire, rfl, .inr ⟨args, rfl, rfl⟩⟩
    | _ =>
      simp only [hcall] at hstep
      cases hstep

theorem Sound.woken (h : s.Sound) {i : Nat} {call new : PortCall} {sem : PortSem}
    {flags : BitVec 32} {res : Acquired} (hcall : s.calls[i]? = some call)
    (hok : CallOk s.next_port new)
    (hnew : ∀ sem', held new = some sem' → res = .B_NO_ERROR ∧ sem' = sem)
    (hacquire : s.acquire sem flags res = some s') : (s'.setCall i new).Sound := by
  obtain ⟨sems, rfl, hunits⟩ := acquire_spec hacquire
  refine h.goOn hcall hok sems fun sem' => ?_
  have hsame := hunits sem'
  split
  · rename_i hheld
    rw [if_pos (hnew sem' hheld)] at hsame
    omega
  · omega

theorem Sound.wake (h : s.Sound) {i : Nat} {res : Acquired} (hstep : s.Step (.wake i res) s') :
    s'.Sound := by
  obtain ⟨call, sem, flags, sems, new, hcall, -, hacquire, rfl, hkind⟩ := step_wake hstep
  have hok := h.call call (mem_of_getElem? hcall)
  rcases hkind with ⟨args, rfl, rfl⟩ | ⟨args, rfl, rfl⟩
  all_goals
    refine h.woken hcall ?_ ?_ hacquire
    · cases res with
      | B_NO_ERROR => exact hok.1
      | _ => trivial
    · intro sem' hheld
      cases res with
      | B_NO_ERROR => exact ⟨rfl, (Option.some.inj hheld).symm.trans hok.2.symm⟩
      | _ => cases hheld

/-! ## The second sections -/

theorem cut_queued (msg : Message) (buffer_size : Nat) :
    (⟨msg.queued.msg_code, (msg.queued.data_cbuf.getD []).take
      (min buffer_size msg.queued.data_len)⟩ : Message) = msg.cut buffer_size := by
  unfold Message.queued Message.cut
  by_cases hempty : msg.bytes = []
  · simp only [hempty, if_pos, length_nil, Nat.min_zero, take_nil, take_zero]
  · simp only [if_neg hempty, getD_some]
    rw [← take_eq_take_min]

theorem portOf_setPort_of_ne {id' : Int} {port : port_entry} (hid : port.id = id) (hne : id' ≠ id)
    (hid' : ((s.setPort (slotOf id) port).portOf id').id = id') :
    (s.setPort (slotOf id) port).portOf id' = s.portOf id' := by
  refine update_of_ne ?_ ..
  intro hslot
  have hsame : (s.setPort (slotOf id) port).portOf id' = port := by
    show update s.ports (slotOf id) port (slotOf id') = port
    rw [hslot]
    exact update_self ..
  rw [hsame, hid] at hid'
  exact hne hid'.symm

theorem portOf_setPort_self {port : port_entry} :
    (s.setPort (slotOf id) port).portOf id = port := update_self ..

/-- A section that changes only the queue of the port of the id. -/
theorem Sound.queueStep (h : s.Sound) {enqueued : Int → List Message} {handed : Int → List Handed}
    {port : port_entry} {i : Nat} {call new : PortCall} (hrange : 0 ≤ id ∧ id < s.next_port)
    (hid : (s.portOf id).id = id) (hport : port.id = id)
    (hread : port.read_sem = (s.portOf id).read_sem)
    (hwrite : port.write_sem = (s.portOf id).write_sem)
    (hother : ∀ id', id' ≠ id → enqueued id' = s.enqueued id' ∧ handed id' = s.handed id')
    (hcall : s.calls[i]? = some call) (hok : CallOk s.next_port new)
    (hheld : held new = some (.read_sem id) ∨ held new = some (.write_sem id))
    (hqueue : ∃ done stored, enqueued id = done ++ stored ∧
      List.Forall₂ Handed.Takes (handed id) done ∧ port.Queue stored ∧
      (s.setCall i new).units (.read_sem id) ≤ stored.length ∧
      (s.setCall i new).units (.write_sem id) + stored.length ≤ port.capacity) :
    ((setPort { s with enqueued, handed } (slotOf id) port).setCall i new).Sound := by
  have hunits : ∀ id', id' ≠ id → ∀ sem, sem = .read_sem id' ∨ sem = .write_sem id' →
      ((setPort { s with enqueued, handed } (slotOf id) port).setCall i new).units sem ≤
        s.units sem := by
    intro id' hne sem hsem
    have hset : (s.setCall i new).units sem + _ = _ := units_setCall hcall new sem
    have hnot : held new ≠ some sem := by
      rcases hheld with hheld | hheld <;> rcases hsem with rfl | rfl <;> rw [hheld] <;> intro heq
      · exact hne (PortSem.read_sem.inj (Option.some.inj heq)).symm
      · cases heq
      · cases heq
      · exact hne (PortSem.write_sem.inj (Option.some.inj heq)).symm
    rw [if_neg hnot] at hset
    show (s.setCall i new).units sem ≤ s.units sem
    omega
  refine ⟨h.next_nonneg, fun slot => ?_, fun call' hcall' => ?_, fun id' hfresh => ?_, fun id' => ?_⟩
  · by_cases hslot : slot = slotOf id
    · subst hslot
      have hself : ((setPort { s with enqueued, handed } (slotOf id) port).setCall i new).ports
        (slotOf id) = port := update_self ..
      have hfound := h.found (Int.not_lt.mpr hrange.1) hid
      rw [hself]
      refine .inr ⟨hport ▸ hrange, by rw [hport], ?_, ?_⟩
      · rw [hread, hfound.2.1, hport]
      · rw [hwrite, hfound.2.2, hport]
    · have hsame : ((setPort { s with enqueued, handed } (slotOf id) port).setCall i new).ports
        slot = s.ports slot := update_of_ne hslot ..
      rw [hsame]
      exact h.port slot
  · rcases mem_or_eq_of_mem_set hcall' with hold | rfl
    · exact h.call call' hold
    · exact hok
  · have hfresh' : s.next_port ≤ id' := hfresh
    have hne : id' ≠ id := by omega
    show enqueued id' = [] ∧ handed id' = []
    rw [(hother id' hne).1, (hother id' hne).2]
    exact h.fresh id' hfresh'
  · by_cases hne : id' = id
    · subst hne
      obtain ⟨done, stored, hall, hgot, hstored⟩ := hqueue
      refine ⟨done, stored, hall, hgot, fun _ _ => ?_⟩
      have hself : ((setPort { s with enqueued, handed } (slotOf id') port).setCall i new).portOf
          id' = port := portOf_setPort_self
      rw [hself]
      exact hstored
    · obtain ⟨done, stored, hall, hgot, hstored⟩ := h.queue id'
      refine ⟨done, stored, (hother id' hne).1.trans hall, ?_, fun hpos hid' => ?_⟩
      · show List.Forall₂ Handed.Takes (handed id') done
        rw [(hother id' hne).2]
        exact hgot
      · have hsame : ((setPort { s with enqueued, handed } (slotOf id) port).setCall i new).portOf
            id' = s.portOf id' := portOf_setPort_of_ne hport hne hid'
        rw [hsame] at hid' ⊢
        obtain ⟨hsound, hunread, hroom⟩ := hstored hpos hid'
        have h₁ := hunits id' hne _ (.inl rfl)
        have h₂ := hunits id' hne _ (.inr rfl)
        exact ⟨hsound, by omega, by omega⟩

theorem units_pos_of_held {i : Nat} {call : PortCall} {sem : PortSem}
    (hcall : s.calls[i]? = some call) (hheld : held call = some sem) : 1 ≤ s.units sem := by
  have hcount : 0 < s.calls.countP fun call => held call = some sem :=
    countP_pos_iff.mpr ⟨call, mem_of_getElem? hcall, decide_eq_true hheld⟩
  unfold units
  omega

theorem units_moved {i : Nat} {call : PortCall} {a b : PortSem} (hcall : s.calls[i]? = some call)
    (new : PortCall) (hold : held call = some a) (hnew : held new = some b) (hne : a ≠ b) :
    (s.setCall i new).units a + 1 = s.units a ∧ (s.setCall i new).units b = s.units b + 1 := by
  have ha := units_setCall hcall new a
  have hb := units_setCall hcall new b
  rw [hold, hnew, if_pos rfl, if_neg fun h => hne (Option.some.inj h).symm] at ha
  rw [hold, hnew, if_pos rfl, if_neg fun h => hne (Option.some.inj h)] at hb
  exact ⟨ha, hb⟩

/-- A read with a unit of the semaphore finds a message. -/
theorem Sound.first (h : s.Sound) {i : Nat} {args : ReadArgs}
    (hcall : s.calls[i]? = some (.readTake args)) (hid : (s.portOf args.id).id = args.id) :
    ∃ done msg stored, s.enqueued args.id = done ++ msg :: stored ∧
      List.Forall₂ Handed.Takes (s.handed args.id) done ∧
      (s.portOf args.id).Queue (msg :: stored) ∧
      s.units (.read_sem args.id) ≤ (msg :: stored).length ∧
      s.units (.write_sem args.id) + (msg :: stored).length ≤ (s.portOf args.id).capacity ∧
      s.readTake args =
        (.readCopy args (s.handed args.id).length (min args.buffer_size msg.queued.data_len)
          (s.portOf args.id).write_sem,
        (s.hand args.id ⟨args.buffer_size, some (msg.cut args.buffer_size)⟩).setPort
          (slotOf args.id) { s.portOf args.id with
            tail := ((s.portOf args.id).tail + 1) % (s.portOf args.id).capacity
            msg_queue := update (s.portOf args.id).msg_queue (s.portOf args.id).tail
              { msg.queued with data_cbuf := none } }) := by
  have hrange : 0 ≤ args.id ∧ args.id < s.next_port := h.call _ (mem_of_getElem? hcall)
  obtain ⟨done, stored, hall, hgot, hqueue⟩ := h.queue args.id
  obtain ⟨hqueue, hunread, hroom⟩ := hqueue hrange.1 hid
  have hpos := units_pos_of_held hcall rfl
  cases stored with
  | nil => exact absurd (Nat.le_trans hpos hunread) (Nat.not_succ_le_zero 0)
  | cons msg stored =>
    refine ⟨done, msg, stored, hall, hgot, hqueue, hunread, hroom, ?_⟩
    have hcell : (s.portOf args.id).msg_queue (s.portOf args.id).tail = msg.queued :=
      hqueue.stores.1
    unfold readTake
    simp only [if_neg (Nat.not_lt.mpr (Nat.le_of_lt hqueue.tail_lt)), hcell, cut_queued]

/-- A read takes the first message of the queue. -/
theorem Sound.take (h : s.Sound) {i : Nat} {args : ReadArgs}
    (hcall : s.calls[i]? = some (.readTake args)) (hid : (s.portOf args.id).id = args.id) :
    ((s.readTake args).2.setCall i (s.readTake args).1).Sound := by
  have hrange : 0 ≤ args.id ∧ args.id < s.next_port := h.call _ (mem_of_getElem? hcall)
  have hwrite := (h.found (Int.not_lt.mpr hrange.1) hid).2.2
  obtain ⟨done, msg, stored, hall, hgot, hqueue, hunread, hroom, htake⟩ := h.first hcall hid
  obtain ⟨hless, hmore⟩ := units_moved hcall (.readCopy args (s.handed args.id).length
    (min args.buffer_size msg.queued.data_len) (s.portOf args.id).write_sem) rfl
    (congrArg some hwrite) nofun
  rw [htake]
  dsimp only
  refine h.queueStep hrange hid hid rfl rfl (fun id' hne => ⟨rfl, ?_⟩) hcall ⟨hrange, hwrite⟩
    (.inr (congrArg some hwrite)) ⟨done ++ [msg], stored, ?_, ?_, hqueue.pop _, ?_, ?_⟩
  · exact update_of_ne hne ..
  · rw [append_assoc]
    exact hall
  · rw [update_self]
    exact rel_append hgot (.cons (.inr rfl) .nil)
  · -- the unit of `read_sem` goes with the message
    rw [length_cons] at hunread
    omega
  · -- the place is free once `write_sem` is released
    rw [length_cons] at hroom
    show _ ≤ (s.portOf args.id).capacity
    omega

theorem Sound.place (h : s.Sound) {i : Nat} {args : WriteArgs}
    (hcall : s.calls[i]? = some (.writeStore args)) (hid : (s.portOf args.id).id = args.id) :
    ∃ done stored, s.enqueued args.id = done ++ stored ∧
      List.Forall₂ Handed.Takes (s.handed args.id) done ∧ (s.portOf args.id).Queue stored ∧
      s.units (.read_sem args.id) ≤ stored.length ∧
      s.units (.write_sem args.id) + stored.length ≤ (s.portOf args.id).capacity ∧
      stored.length < (s.portOf args.id).capacity ∧
      ¬ (s.portOf args.id).head ≥ (s.portOf args.id).capacity := by
  have hrange : 0 ≤ args.id ∧ args.id < s.next_port := h.call _ (mem_of_getElem? hcall)
  obtain ⟨done, stored, hall, hgot, hqueue⟩ := h.queue args.id
  obtain ⟨hqueue, hunread, hroom⟩ := hqueue hrange.1 hid
  have hpos := units_pos_of_held hcall rfl
  refine ⟨done, stored, hall, hgot, hqueue, hunread, hroom, by omega, ?_⟩
  have hlt := Nat.mod_lt ((s.portOf args.id).tail + stored.length)
    (Nat.zero_lt_of_lt hqueue.tail_lt)
  rw [hqueue.head_eq]
  omega

/-- A write puts its message behind the others. -/
theorem Sound.store (h : s.Sound) {i : Nat} {args : WriteArgs} (fault : Option PortFault)
    (hcall : s.calls[i]? = some (.writeStore args))
    (hplaced : s.PlacedSection fault (.writeStore args)) :
    ((s.writeStore args fault).2.setCall i (s.writeStore args fault).1).Sound := by
  unfold writeStore
  split
  · refine h.goOn hcall ?_ s.sems fun sem => Nat.le_add_right ..
    trivial
  · rename_i msg hcopied
    have hid : (s.portOf args.id).id = args.id :=
      hplaced.resolve_left fun hnone => absurd (hcopied.symm.trans hnone) nofun
    have hrange : 0 ≤ args.id ∧ args.id < s.next_port := h.call _ (mem_of_getElem? hcall)
    have hread := (h.found (Int.not_lt.mpr hrange.1) hid).2.1
    obtain ⟨done, stored, hall, hgot, hqueue, hunread, hroom, hless, hhead⟩ := h.place hcall hid
    obtain ⟨hfewer, hmore⟩ := units_moved hcall (.writeRelease (s.portOf args.id).read_sem) rfl
      (congrArg some hread) nofun
    simp only [if_neg hhead]
    refine h.queueStep hrange hid hid rfl rfl (fun id' hne => ⟨?_, rfl⟩) hcall
      ⟨args.id, hrange.2, hread⟩ (.inl (congrArg some hread))
      ⟨done, stored ++ [msg], ?_, hgot, hqueue.push hless _, ?_, ?_⟩
    · exact update_of_ne hne ..
    · rw [update_self, hall, append_assoc]
    · -- the message is there before `read_sem` is released
      rw [length_append, length_singleton]
      omega
    · rw [length_append, length_singleton]
      show _ ≤ (s.portOf args.id).capacity
      omega

/-! ## A new port -/

theorem freeSlot_spec {slot : Nat} : ∀ {left : Nat}, left ≤ MAX_PORTS → s.freeSlot left = some slot →
    slot < MAX_PORTS ∧ (s.ports slot).id = -1
  | 0, _, hfree => absurd hfree nofun
  | left + 1, hleft, hfree => by
    unfold freeSlot at hfree
    split at hfree
    · rename_i hid
      cases hfree
      exact ⟨Nat.sub_lt (Nat.lt_of_lt_of_le (Nat.succ_pos _) hleft) (Nat.succ_pos _), hid⟩
    · exact freeSlot_spec (Nat.le_of_succ_le hleft) hfree

theorem nextId_spec {next_port : Int} {slot : Nat} (hnext : 0 ≤ next_port) (hslot : slot < MAX_PORTS) :
    next_port ≤ nextId next_port slot ∧ slotOf (nextId next_port slot) = slot := by
  obtain ⟨n, rfl⟩ := Int.eq_ofNat_of_zero_le hnext
  have hmod : (n : Int).tmod MAX_PORTS = ((n % MAX_PORTS : Nat) : Int) := rfl
  unfold nextId slotOf MAX_PORTS at *
  rw [hmod]
  split
  · omega
  · omega

theorem CallOk.not_held {next_port : Int} {call : PortCall} {sem : PortSem}
    (h : CallOk next_port call) (hid : next_port ≤ id) (hsem : sem = .read_sem id ∨ sem = .write_sem id) :
    held call ≠ some sem := by
  intro heq
  cases call with
  | readTake args =>
    cases heq
    have hlt : args.id < next_port := h.2
    rcases hsem with hsem | hsem
    · have := PortSem.read_sem.inj hsem
      omega
    · cases hsem
  | writeStore args =>
    cases heq
    have hlt : args.id < next_port := h.2
    rcases hsem with hsem | hsem
    · cases hsem
    · have := PortSem.write_sem.inj hsem
      omega
  | readCopy args n siz cached_semid =>
    cases heq
    have hlt : args.id < next_port := h.1.2
    rw [h.2] at hsem
    rcases hsem with hsem | hsem
    · cases hsem
    · have := PortSem.write_sem.inj hsem
      omega
  | writeRelease cached_semid =>
    cases heq
    obtain ⟨id', hlt, rfl⟩ := h
    rcases hsem with hsem | hsem
    · have := PortSem.read_sem.inj hsem
      omega
    · cases hsem
  | _ => cases heq

theorem Sound.countP_fresh (h : s.Sound) {sem : PortSem} (hid : s.next_port ≤ id)
    (hsem : sem = .read_sem id ∨ sem = .write_sem id) :
    (s.calls.countP fun call => held call = some sem) = 0 :=
  countP_eq_zero.mpr fun call hcall hheld =>
    (h.call call hcall).not_held hid hsem (of_decide_eq_true hheld)

theorem Sound.newPort (h : s.Sound) {slot capacity : Nat} (hslot : slot < MAX_PORTS)
    (hsafe : nextId s.next_port slot + 1 < 2 ^ 31) (hcapacity : 0 < capacity)
    (q : Nat → port_msg) : (s.fill slot capacity q).Sound := by
  obtain ⟨hle, hslotOf⟩ := nextId_spec h.next_nonneg hslot
  have hnext := h.next_nonneg
  have hid : toInt (nextId s.next_port slot) = nextId s.next_port slot :=
    toInt_of_range (by omega) (by omega)
  have hid' : toInt (nextId s.next_port slot + 1) = nextId s.next_port slot + 1 :=
    toInt_of_range (by omega) (by omega)
  unfold fill
  simp only [hid, hid']
  generalize nextId s.next_port slot = id at *
  have hmono : s.next_port ≤ id + 1 := by omega
  refine ⟨?_, fun slot' => ?_, fun call hcall => (h.call call hcall).mono hmono,
    fun id' hfresh => h.fresh id' (Int.le_trans hmono hfresh), fun id' => ?_⟩
  · show 0 ≤ id + 1
    omega
  · by_cases hne : slot' = slot
    · subst hne
      refine .inr ?_
      simp only [setPort, update_self]
      exact ⟨⟨by omega, by omega⟩, hslotOf, trivial, trivial⟩
    · simp only [setPort, update_of_ne hne]
      rcases h.port slot' with hfree | ⟨hrange, hrest⟩
      · exact .inl hfree
      · exact .inr ⟨⟨hrange.1, Int.lt_of_lt_of_le hrange.2 hmono⟩, hrest⟩
  · by_cases hne : id' = id
    · subst hne
      obtain ⟨henqueued, hhanded⟩ := h.fresh id' hle
      have hnone : ∀ sem, sem = .read_sem id' ∨ sem = .write_sem id' →
          (s.calls.countP fun call => held call = some sem) = 0 :=
        fun sem hsem => h.countP_fresh hle hsem
      refine ⟨[], [], henqueued, ?_, fun _ _ => ?_⟩
      · show List.Forall₂ Handed.Takes (s.handed id') []
        rw [hhanded]
        exact .nil
      · simp only [portOf, setPort, hslotOf, update_self, units, hnone _ (.inl rfl),
          hnone _ (.inr rfl), update_of_ne (show PortSem.read_sem id' ≠ .write_sem id' from nofun)]
        exact ⟨⟨hcapacity, Nat.zero_le _, (Nat.zero_mod _).symm, trivial⟩, Nat.le_refl _, Nat.le_refl _⟩
    · obtain ⟨done, stored, hall, hgot, hstored⟩ := h.queue id'
      refine ⟨done, stored, hall, hgot, fun hpos hid' => ?_⟩
      subst hslotOf
      rw [show ∀ s : PortSystem, s.portOf id' = s.ports (slotOf id') from fun _ => rfl] at hid' ⊢
      by_cases hslot' : slotOf id' = slotOf id
      · simp only [setPort, hslot', update_self] at hid'
        exact absurd hid'.symm hne
      · simp only [setPort, units, update_of_ne hslot',
          update_of_ne (show PortSem.write_sem id' ≠ .write_sem id from
            fun heq => hne (PortSem.write_sem.inj heq)),
          update_of_ne (show PortSem.write_sem id' ≠ .read_sem id from nofun),
          update_of_ne (show PortSem.read_sem id' ≠ .write_sem id from nofun),
          update_of_ne (show PortSem.read_sem id' ≠ .read_sem id from
            fun heq => hne (PortSem.read_sem.inj heq))] at hid' ⊢
        exact hstored hpos hid'

/-! ## Every run -/

theorem Sound.create (h : s.Sound) (queue_length : Int) (q : Nat → port_msg) (err : Option PortError)
    (hplaced : s.Placed (.create_port queue_length q err)) :
    (s.create_port queue_length q err).2.Sound := by
  unfold create_port
  split
  · exact h
  · rename_i hlow
    split
    · exact h
    · split
      · exact h
      · split
        · rename_i slot hslot
          have hspec := freeSlot_spec (Nat.le_refl _) hslot
          exact h.newPort hspec.1 (hplaced slot hslot) (by omega) q
        · exact h

theorem takes_modify {handed : List Handed} {done : List Message}
    (h : List.Forall₂ Handed.Takes handed done) (n : Nat) :
    List.Forall₂ Handed.Takes
      (handed.modify n fun handed => { handed with message := none }) done := by
  induction h generalizing n with
  | nil =>
    rw [modify_nil]
    exact .nil
  | cons hhead htail ih =>
    cases n with
    | zero =>
      rw [modify_zero_cons]
      exact .cons (.inl rfl) htail
    | succ n =>
      rw [modify_succ_cons]
      exact .cons hhead (ih n)

theorem Sound.lose (h : s.Sound) (id : Int) (n : Nat) : Sound { s with
      handed := update s.handed id
        ((s.handed id).modify n fun handed => { handed with message := none }) } := by
  refine ⟨h.next_nonneg, h.port, h.call, fun id' hfresh => ?_, fun id' => ?_⟩
  · obtain ⟨henqueued, hhanded⟩ := h.fresh id' hfresh
    refine ⟨henqueued, ?_⟩
    show update s.handed id _ id' = []
    by_cases hid : id' = id
    · subst hid
      rw [update_self, hhanded, modify_nil]
    · rw [update_of_ne hid, hhanded]
  · obtain ⟨done, stored, hall, htaken, hqueue⟩ := h.queue id'
    refine ⟨done, stored, hall, ?_, hqueue⟩
    show List.Forall₂ Handed.Takes (update s.handed id _ id') done
    by_cases hid : id' = id
    · subst hid
      rw [update_self]
      exact takes_modify htaken n
    · rw [update_of_ne hid]
      exact htaken

theorem Sound.copy (h : s.Sound) {i : Nat} {args : ReadArgs} {n siz : Nat} {cached_semid : PortSem}
    (fault : Option PortFault) (hcall : s.calls[i]? = some (.readCopy args n siz cached_semid)) :
    ((s.readCopy args n siz cached_semid fault).2.setCall i
      (s.readCopy args n siz cached_semid fault).1).Sound := by
  unfold readCopy
  split
  · refine (h.lose args.id n).release hcall ?_ rfl rfl
    trivial
  · refine h.release hcall ?_ rfl rfl
    trivial

theorem Sound.go (h : s.Sound) {i : Nat} {call new : PortCall} {fault : Option PortFault}
    (hcall : s.calls[i]? = some call) (hplaced : s.PlacedSection fault call)
    (hsection : s.section2 fault call = some (new, s')) : (s'.setCall i new).Sound := by
  cases call with
  | readTake args =>
    have heq : s.readTake args = (new, s') := Option.some.inj hsection
    have hsound := h.take hcall hplaced
    rwa [heq] at hsound
  | writeStore args =>
    have heq : s.writeStore args fault = (new, s') := Option.some.inj hsection
    have hsound := h.store fault hcall hplaced
    rwa [heq] at hsound
  | readCopy args n siz cached_semid =>
    have heq : s.readCopy args n siz cached_semid fault = (new, s') := Option.some.inj hsection
    have hsound := h.copy fault hcall
    rwa [heq] at hsound
  | writeRelease cached_semid =>
    cases hsection
    refine h.release hcall ?_ rfl rfl
    trivial
  | deleteSems r_sem w_sem | deleteWriteSem w_sem =>
    cases hsection
    refine h.goOn hcall ?_ _ (units_delete s _)
    trivial
  | _ => cases hsection

theorem step_go {i : Nat} {fault : Option PortFault} (hstep : s.Step (.go i fault) s') :
    ∃ call new s₁, s.calls[i]? = some call ∧ s.section2 fault call = some (new, s₁) ∧
      s' = s₁.setCall i new := by
  simp only [Step, PortSystem.step] at hstep
  cases hcall : s.calls[i]? with
  | none =>
    simp only [hcall] at hstep
    cases hstep
  | some call =>
    simp only [hcall] at hstep
    obtain ⟨⟨new, s₁⟩, hsection, rfl⟩ := map_eq_some_iff.mp hstep
    exact ⟨call, new, s₁, rfl, hsection, rfl⟩

theorem step_sound {a : PortAction} (h : s.Sound) (hplaced : s.Placed a) (hstep : s.Step a s') :
    s'.Sound := by
  cases a with
  | create_port queue_length q err =>
    cases hstep
    exact h.create queue_length q err hplaced
  | close_port id =>
    cases hstep
    exact h.close id
  | delete_port id =>
    cases hstep
    exact h.delete id
  | read_port_etc args =>
    cases hstep
    exact h.read args
  | write_port_etc args =>
    cases hstep
    exact h.write args
  | wake i res => exact h.wake hstep
  | go i fault =>
    obtain ⟨call, new, s₁, hcall, hsection, rfl⟩ := step_go hstep
    exact h.go hcall (hplaced call hcall) hsection

/-! ## Reads whose copy does not fault -/

/-- No read has lost its message. -/
def Whole (s : PortSystem) : Prop := ∀ id, ∀ handed ∈ s.handed id, handed.message ≠ none

theorem gets_of_whole {handed : List Handed} {done : List Message}
    (h : List.Forall₂ Handed.Takes handed done) (hwhole : ∀ x ∈ handed, x.message ≠ none) :
    List.Forall₂ Handed.Gets handed done := by
  induction h with
  | nil => exact .nil
  | cons hhead _ ih =>
    exact .cons (hhead.resolve_left (hwhole _ mem_cons_self))
      (ih fun x hx => hwhole x (mem_cons_of_mem _ hx))

theorem Sound.delivers (h : s.Sound) (hwhole : s.Whole) (id : Int) : s.Delivers id := by
  obtain ⟨done, stored, henqueued, htaken, hqueue⟩ := h.queue id
  exact ⟨done, stored, henqueued, gets_of_whole htaken (hwhole id),
    fun hpos hid => (hqueue hpos hid).1⟩

theorem init_whole (h : s.Init) : s.Whole := by
  intro id handed hmem
  rw [h.2.2.2.2.2 id] at hmem
  exact absurd hmem not_mem_nil

theorem section_whole (h : s.Whole) {call new : PortCall} {fault : Option PortFault}
    (hwhole : ReadsWhole fault call) (hsection : s.section2 fault call = some (new, s')) :
    s'.Whole := by
  cases call with
  | readTake args =>
    have heq : s.readTake args = (new, s') := Option.some.inj hsection
    unfold readTake at heq
    dsimp only at heq
    split at heq
    · cases heq
      exact h
    · cases heq
      intro id handed hmem
      change handed ∈ update s.handed args.id _ id at hmem
      by_cases hid : id = args.id
      · subst hid
        rw [update_self] at hmem
        rcases mem_append.mp hmem with hold | hnew
        · exact h _ _ hold
        · obtain rfl := mem_singleton.mp hnew
          exact nofun
      · rw [update_of_ne hid] at hmem
        exact h _ _ hmem
  | writeStore args =>
    have heq : s.writeStore args fault = (new, s') := Option.some.inj hsection
    unfold writeStore at heq
    split at heq
    · cases heq
      exact h
    · dsimp only at heq
      split at heq
      · cases heq
        exact h
      · cases heq
        exact h
  | readCopy args n siz cached_semid =>
    have hno : ¬ readFaults args siz fault = true := Bool.not_eq_true _ ▸ hwhole
    have heq : s.readCopy args n siz cached_semid fault =
        (.returned (.ok siz), s.release_sem cached_semid) := if_neg hno
    cases heq.symm.trans (Option.some.inj hsection)
    exact h
  | writeRelease | deleteSems | deleteWriteSem =>
    cases hsection
    exact h
  | _ => cases hsection

theorem step_whole {a : PortAction} (h : s.Whole) (hsafe : s.Safe a) (hstep : s.Step a s') :
    s'.Whole := by
  cases a with
  | create_port queue_length q err =>
    cases hstep
    unfold create_port
    repeat' split
    all_goals exact h
  | close_port id =>
    cases hstep
    unfold close_port
    repeat' split
    all_goals exact h
  | delete_port id =>
    cases hstep
    unfold delete_port
    repeat' split
    all_goals exact h
  | read_port_etc args | write_port_etc args =>
    cases hstep
    exact h
  | wake i res =>
    obtain ⟨-, -, -, sems, new, -, -, -, rfl, -⟩ := step_wake hstep
    exact h
  | go i fault =>
    obtain ⟨call, new, s₁, hcall, hsection, rfl⟩ := step_go hstep
    have hwhole := section_whole h (hsafe.2 call hcall) hsection
    exact hwhole

/-- No port has been made. -/
def boot : PortSystem where
  ports _ := ⟨-1, 0, .read_sem 0, .write_sem 0, 0, 0, 0, false, fun _ => ⟨0, none, 0⟩⟩
  next_port := 0
  sems _ := none
  calls := []
  enqueued _ := []
  handed _ := []

theorem init_boot : boot.Init := ⟨fun _ => rfl, rfl, fun _ => rfl, rfl, fun _ => rfl, fun _ => rfl⟩

def newPort : PortAction := .create_port 1 (fun _ => ⟨0, none, 0⟩) none

end PortSystem

end Kernel
