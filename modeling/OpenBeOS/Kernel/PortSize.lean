import OpenBeOS.Kernel.PortCapacity

/-! # The size of the next message

`port_buffer_size_etc` borrows a unit of `read_sem` and looks at the entry at the write end of the
queue, where reads take the one at the read end.
-/

namespace Kernel

open Reachable Function

namespace PortSystem

variable {s s' : PortSystem} {id : Int}

/-- The call up to the wait for a unit of the semaphore. -/
def port_buffer_size_etc (s : PortSystem) (id : Int) : Except PortError PortSem :=
  if id < 0 then .error .B_BAD_PORT_ID
  else if (s.portOf id).id ≠ id then .error .B_BAD_PORT_ID
  else .ok (s.portOf id).read_sem

/-- The call behind the wait, which has no result if it panics. -/
def sizeWoken (s : PortSystem) (id : Int) : Acquired → Option (Except PortError Nat × PortSystem)
  | .ERR_SEM_DELETED => some (.error .B_BAD_PORT_ID, s)
  | .ERR_SEM_TIMED_OUT => some (.error .B_TIMED_OUT, s)
  -- the other errors are not looked at
  | .B_NO_ERROR | .B_BAD_SEM_ID | .EINTR =>
    let t := (s.portOf id).head
    if t > (s.portOf id).capacity then none
    else some (.ok ((s.portOf id).msg_queue t).data_len, s.release_sem (s.portOf id).read_sem)

/-! ## While the call has its unit -/

/-- The section is not the one in which a read takes a message. -/
def NoReader (_ : Option PortFault) : PortCall → Prop
  | .readTake _ => False
  | _ => True

/-- No read takes a message, and no port is deleted. -/
def Writing (s : PortSystem) (a : PortAction) : Prop :=
  s.Placed a ∧ s.Section NoReader a ∧ ∀ id, a ≠ .delete_port id

/-- The port is there, and has got messages but given none away. -/
structure Grown (s s' : PortSystem) (id : Int) : Prop where
  live : s'.Live id
  handed : (s'.handed id).length = (s.handed id).length
  enqueued : s.enqueued id <+: s'.enqueued id

theorem Grown.trans {s'' : PortSystem} (h : Grown s s' id) (h' : Grown s' s'' id) :
    Grown s s'' id :=
  ⟨h'.live, h'.handed.trans h.handed, h.enqueued.trans h'.enqueued⟩

theorem Grown.of_ports (hlive : s.Live id) (hid : (s'.portOf id).id = (s.portOf id).id)
    (hhanded : (s'.handed id).length = (s.handed id).length)
    (henqueued : s.enqueued id <+: s'.enqueued id) : Grown s s' id :=
  ⟨⟨hlive.1, hid.trans hlive.2⟩, hhanded, henqueued⟩

theorem section_grown (hlive : s.Live id) {call new : PortCall} {fault : Option PortFault}
    (hreader : NoReader fault call) (hsection : s.section2 fault call = some (new, s')) :
    Grown s s' id := by
  have hprefix := List.prefix_rfl (l := s.enqueued id)
  cases call with
  | readTake args => exact absurd hreader not_false
  | writeStore args =>
    have heq : s.writeStore args fault = (new, s') := Option.some.inj hsection
    unfold writeStore at heq
    dsimp only at heq
    split at heq
    · cases heq
      exact .of_ports hlive rfl rfl hprefix
    · split at heq
      · cases heq
        exact .of_ports hlive rfl rfl hprefix
      · rename_i msg _ _
        cases heq
        refine .of_ports hlive ?_ rfl ?_
        · refine (@portOf_setPort (s.enqueue args.id msg) id _ _ ?_ ?_).1
          · rfl
          · rfl
        · show s.enqueued id <+: update s.enqueued args.id _ id
          by_cases hid : id = args.id
          · subst hid
            rw [update_self]
            exact List.prefix_append ..
          · exact (update_of_ne hid (s.enqueued args.id ++ [msg]) s.enqueued) ▸ hprefix
  | readCopy args n siz cached_semid =>
    have heq : s.readCopy args n siz cached_semid fault = (new, s') := Option.some.inj hsection
    unfold readCopy at heq
    split at heq
    · cases heq
      refine .of_ports hlive rfl ?_ hprefix
      show (update s.handed args.id _ id).length = _
      by_cases hid : id = args.id
      · subst hid
        rw [update_self, List.length_modify]
      · rw [update_of_ne hid]
    · cases heq
      exact .of_ports hlive rfl rfl hprefix
  | writeRelease | deleteSems | deleteWriteSem =>
    cases hsection
    exact .of_ports hlive rfl rfl hprefix
  | _ => cases hsection

theorem step_grown {a : PortAction} (hlive : s.Live id) (hwriting : s.Writing a)
    (hstep : s.Step a s') : Grown s s' id := by
  have hprefix := List.prefix_rfl (l := s.enqueued id)
  cases a with
  | create_port queue_length q err =>
    cases hstep
    unfold create_port
    repeat' split
    all_goals try exact .of_ports hlive rfl rfl hprefix
    rename_i slot hslot
    refine .of_ports hlive ?_ rfl hprefix
    have hfree := (freeSlot_spec (Nat.le_refl _) hslot).2
    have hne : slotOf id ≠ slot := by
      rintro rfl
      have hid : (s.ports (slotOf id)).id = id := hlive.2
      have hpos := hlive.1
      omega
    exact congrArg port_entry.id (update_of_ne hne ..)
  | close_port port =>
    cases hstep
    unfold close_port
    repeat' split
    all_goals try exact .of_ports hlive rfl rfl hprefix
    refine .of_ports hlive ?_ rfl hprefix
    exact (@portOf_setPort s id (slotOf port) { s.portOf port with closed := true } rfl rfl).1
  | delete_port port => exact absurd rfl (hwriting.2.2 port)
  | read_port_etc args | write_port_etc args =>
    cases hstep
    exact .of_ports hlive rfl rfl hprefix
  | wake i res =>
    obtain ⟨-, -, -, sems, new, -, -, -, rfl, -⟩ := step_wake hstep
    exact .of_ports hlive rfl rfl hprefix
  | go i fault =>
    obtain ⟨call, new, s₁, hcall, hsection, rfl⟩ := step_go hstep
    have hgrown := section_grown hlive (hwriting.2.1 call hcall) hsection
    exact ⟨hgrown.live, hgrown.handed, hgrown.enqueued⟩

/-! ## The next message -/

/-- The message that the next read of the port takes. -/
def next (s : PortSystem) (id : Int) : Option Message := (s.enqueued id)[(s.handed id).length]?

/-- The number of messages in the queue of the port. -/
def messages (s : PortSystem) (id : Int) : Nat := (s.enqueued id).length - (s.handed id).length

/-- The next read of the port hands out the message. -/
def Hands (s : PortSystem) (id : Int) (msg : Message) : Prop :=
  ∀ args : ReadArgs, args.id = id → (s.readTake args).2.handed id =
    s.handed id ++ [⟨args.buffer_size, some (msg.cut args.buffer_size)⟩]

variable {msg : Message}

theorem Grown.next (h : Grown s s' id) (hnext : s.next id = some msg) : s'.next id = some msg := by
  obtain ⟨more, hmore⟩ := h.enqueued
  unfold PortSystem.next at hnext ⊢
  rw [h.handed, ← hmore, List.getElem?_append_left (List.getElem?_eq_some_iff.mp hnext).1]
  exact hnext

theorem Sound.queue_next (h : s.Sound) (hlive : s.Live id)
    (hnext : s.next id = some msg) :
    ∃ stored, (s.portOf id).Queue (msg :: stored) ∧ stored.length + 1 = s.messages id := by
  obtain ⟨done, stored, hall, htaken, hqueue⟩ := h.queue id
  have hlength := htaken.length_eq
  rw [next, hall, hlength, List.getElem?_append_right (Nat.le_refl _), Nat.sub_self] at hnext
  have hmessages : s.messages id = stored.length := by
    rw [messages, hall, List.length_append, hlength]
    omega
  cases stored with
  | nil => cases hnext
  | cons first stored =>
    cases hnext
    exact ⟨stored, (hqueue hlive.1 hlive.2).1, hmessages.symm⟩

theorem Queue.hands {stored : List Message}
    (hqueue : (s.portOf id).Queue (msg :: stored)) : s.Hands id msg := by
  rintro args rfl
  have hcell : (s.portOf args.id).msg_queue (s.portOf args.id).tail = msg.queued := hqueue.stores.1
  unfold readTake
  simp only [if_neg (Nat.not_lt.mpr (Nat.le_of_lt hqueue.tail_lt)), hcell, cut_queued]
  exact update_self ..

theorem release_acquired {sem : PortSem} {flags : BitVec 32}
    (hacquire : s.acquire sem flags .B_NO_ERROR = some s') : s'.release_sem sem = s := by
  simp only [PortSystem.acquire] at hacquire
  split at hacquire
  · rename_i count hcount
    cases hacquire
    unfold release_sem setSem
    simp only [update_self, Option.map_some, update_idem, ← hcount, update_eq_self]
  · cases hacquire

theorem Counted.acquire (h : s.Counted) (hidle : s.Idle) (hlive : s.Live id)
    (hnext : s.next id = some msg) (flags : BitVec 32) :
    ∃ s₁, s.acquire (.read_sem id) flags .B_NO_ERROR = some s₁ := by
  have hread := h.read id hlive
  have hlt := (List.getElem?_eq_some_iff.mp hnext).1
  obtain ⟨count, hcount⟩ := Option.isSome_iff_exists.mp (h.kept.has id hlive).1
  rw [units_of_idle hidle, hcount, Option.getD_some] at hread
  obtain ⟨count, rfl⟩ := Nat.exists_eq_succ_of_ne_zero (show count ≠ 0 by omega)
  exact ⟨_, by simp only [PortSystem.acquire, hcount]; rfl⟩

theorem Sound.acquired (h : s.Sound) {sem : PortSem} {flags : BitVec 32} {res : Acquired}
    (hacquire : s.acquire sem flags res = some s') :
    s'.Sound ∧ s'.ports = s.ports ∧ s'.enqueued = s.enqueued ∧ s'.handed = s.handed := by
  obtain ⟨sems, rfl, hunits⟩ := acquire_spec hacquire
  refine ⟨h.weaken rfl rfl rfl (fun _ => Kept.refl _) h.call fun sem' => ?_, rfl, rfl, rfl⟩
  have hsame := hunits sem'
  omega

/-- The size is that of the next message exactly when the queue is full, or the entry at its write
end happens to have the same length. The call waits for no reader to come, and changes nothing. -/
theorem port_buffer_size_iff (h : By Init Placed Step s) (hlive : s.Live id) {msg : Message}
    (hnext : s.next id = some msg) (flags : BitVec 32) :
    s.port_buffer_size_etc id = .ok (.read_sem id) ∧
      (s.Idle → ∃ s₁, s.acquire (.read_sem id) flags .B_NO_ERROR = some s₁) ∧
      ∀ s₁ s₂, s.acquire (.read_sem id) flags .B_NO_ERROR = some s₁ →
        By (fun s => s = s₁) Writing Step s₂ →
        s₁.release_sem (.read_sem id) = s ∧ s₂.Hands id msg ∧
          ∃ len, s₂.sizeWoken id .B_NO_ERROR = some (.ok len, s₂.release_sem (.read_sem id)) ∧
            (len = msg.bytes.length ↔ s₂.messages id = (s₂.portOf id).capacity ∨
              ((s₂.portOf id).msg_queue (s₂.portOf id).head).data_len = msg.bytes.length) := by
  have hcounted : s.Counted := h.invariant Counted (fun _ => init_counted) fun _ _ _ => step_counted
  refine ⟨?_, fun hidle => hcounted.acquire hidle hlive hnext flags,
    fun s₁ s₂ hacquire hwrites => ?_⟩
  · have hfound := hcounted.sound.found (Int.not_lt.mpr hlive.1) hlive.2
    rw [port_buffer_size_etc, if_neg (Int.not_lt.mpr hlive.1), if_neg (not_not.mpr hlive.2),
      hfound.2.1]
  · obtain ⟨hsound₁, hports, henqueued, hhanded⟩ := hcounted.sound.acquired hacquire
    have hlive₁ : s₁.Live id := by
      rw [Live, portOf, hports]
      exact hlive
    have hnext₁ : s₁.next id = some msg := by
      rw [next, henqueued, hhanded]
      exact hnext
    obtain ⟨hsound, hgrown⟩ : s₂.Sound ∧ Grown s₁ s₂ id := by
      refine hwrites.invariant (fun s => s.Sound ∧ Grown s₁ s id) ?_ ?_
      · rintro s rfl
        exact ⟨hsound₁, hlive₁, rfl, List.prefix_rfl⟩
      · intro s a s' hinv hwriting hstep
        exact ⟨step_sound hinv.1 hwriting.1 hstep,
          hinv.2.trans (step_grown hinv.2.live hwriting hstep)⟩
    have hlive₂ := hgrown.live
    obtain ⟨stored, hqueue, hmessages⟩ := hsound.queue_next hlive₂ (hgrown.next hnext₁)
    have hread := (hsound.found (Int.not_lt.mpr hlive₂.1) hlive₂.2).2.1
    have hhead : (s₂.portOf id).head ≤ (s₂.portOf id).capacity := by
      rw [hqueue.head_eq]
      exact Nat.le_of_lt (Nat.mod_lt _ (Nat.zero_lt_of_lt hqueue.tail_lt))
    refine ⟨release_acquired hacquire, Queue.hands hqueue,
      ((s₂.portOf id).msg_queue (s₂.portOf id).head).data_len, ?_, ?_⟩
    · show (if (s₂.portOf id).head > (s₂.portOf id).capacity then none else _) = _
      rw [if_neg (Nat.not_lt.mpr hhead), hread]
    · constructor
      · exact .inr
      · rintro (hfull | hsame)
        · -- the write end is the read end
          have hends : (s₂.portOf id).head = (s₂.portOf id).tail := by
            rw [hqueue.head_eq, List.length_cons, hmessages, hfull, Nat.add_mod_right,
              Nat.mod_eq_of_lt hqueue.tail_lt]
          rw [hends, show (s₂.portOf id).msg_queue (s₂.portOf id).tail = msg.queued from
            hqueue.stores.1]
          rfl
        · exact hsame

/-! ## Two runs -/

/-- The only place of the port is taken, so that the two ends are the same. -/
theorem port_buffer_size_iff_full : ∃ s s₁, By Init Placed Step s ∧
    s.acquire (.read_sem 0) 0 .B_NO_ERROR = some s₁ ∧
    s₁.sizeWoken 0 .B_NO_ERROR = some (.ok 3, s) ∧ s₁.Hands 0 ⟨7, [10, 11, 12]⟩ := by
  have hexec : (exec (guarded Placed step) [newPort, .write_port_etc ⟨0, ⟨7, [10, 11, 12]⟩, 0, 0⟩,
      .wake 0 .B_NO_ERROR, .go 0 none, .go 0 none] boot).map
        (fun s => ((s.portOf 0).id, s.next 0, s.messages 0, (s.portOf 0).capacity, s.calls,
          s.sems (.read_sem 0))) =
      some (0, some ⟨7, [10, 11, 12]⟩, 1, 1, [.returned (.ok 0)], some 1) := by rfl
  obtain ⟨s, hs, hend⟩ := Option.map_eq_some_iff.mp hexec
  simp only [Prod.mk.injEq] at hend
  obtain ⟨hid, hnext, hmessages, hcapacity, hcalls, hcount⟩ := hend
  have hidle : s.Idle := by
    intro call hcall
    rw [hcalls] at hcall
    exact ⟨_, List.mem_singleton.mp hcall⟩
  obtain ⟨-, hunit, hsize⟩ := port_buffer_size_iff
    (By.exec (fun _ _ _ => guarded_some) _ (.init init_boot) hs) ⟨Int.le_refl _, hid⟩ hnext 0
  obtain ⟨s₁, hacquire⟩ := hunit hidle
  obtain ⟨hback, hhands, len, hlen, hiff⟩ := hsize s₁ s₁ hacquire (.init rfl)
  have hsame : s₁.messages 0 = (s₁.portOf 0).capacity := by
    obtain ⟨sems, rfl, -⟩ := acquire_spec hacquire
    exact hmessages.trans hcapacity.symm
  rw [hiff.mpr (.inl hsame), hback] at hlen
  exact ⟨s, s₁, By.exec (fun _ _ _ => guarded_some) _ (.init init_boot) hs, hacquire, hlen, hhands⟩

/-- There is one message of three bytes in a queue with two places: the entry at the write end has
never been written. -/
theorem port_buffer_size_wrong : ∃ s s₁ s₂, By Init Placed Step s ∧
    s.next 0 = some ⟨7, [10, 11, 12]⟩ ∧ s.acquire (.read_sem 0) 0 .B_NO_ERROR = some s₁ ∧
    s₁.sizeWoken 0 .B_NO_ERROR = some (.ok 0, s₂) := by
  have hexec : ((exec (guarded Placed step) [.create_port 2 (fun _ => ⟨0, none, 0⟩) none,
      .write_port_etc ⟨0, ⟨7, [10, 11, 12]⟩, 0, 0⟩, .wake 0 .B_NO_ERROR, .go 0 none, .go 0 none]
      boot).map fun s => (s.next 0, ((s.acquire (.read_sem 0) 0 .B_NO_ERROR).bind
        (·.sizeWoken 0 .B_NO_ERROR)).map Prod.fst)) =
      some (some ⟨7, [10, 11, 12]⟩, some (.ok 0)) := by rfl
  obtain ⟨s, hs, hend⟩ := Option.map_eq_some_iff.mp hexec
  obtain ⟨hnext, hsize⟩ := Prod.mk.inj hend
  obtain ⟨⟨result, s₂⟩, hsize, rfl⟩ := Option.map_eq_some_iff.mp hsize
  obtain ⟨s₁, hacquire, hsize⟩ := Option.bind_eq_some_iff.mp hsize
  exact ⟨s, s₁, s₂, By.exec (fun _ _ _ => guarded_some) _ (.init init_boot) hs, hnext, hacquire,
    hsize⟩

end PortSystem

end Kernel
