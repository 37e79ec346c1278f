import OpenBeOS.Kernel.PortRun

/-! # The capacity of a port

The units of the semaphores of a port, with those that calls hold, are exactly the messages in its
queue and the free places there, until a write gets no memory: it returns without the release of the
place that it has reserved.
-/

namespace Kernel

open Reachable Function List Option

theorem Message.partly_of_empty {m : Message} (h : m.bytes = []) (copied : Nat)
    (left : Nat → UInt8) : m.partly copied left = m := by
  obtain ⟨code, bytes⟩ := m
  obtain rfl : bytes = [] := h
  rfl

namespace PortSystem

variable {s s' : PortSystem} {id : Int}

/-! ## Live ports -/

/-- The id is that of a port. -/
def Live (s : PortSystem) (id : Int) : Prop := 0 ≤ id ∧ (s.portOf id).id = id

/-- The semaphores that the call is going to delete. -/
def deletes : PortCall → List PortSem
  | .deleteSems r_sem w_sem => [r_sem, w_sem]
  | .deleteWriteSem w_sem => [w_sem]
  | _ => []

/-- The semaphore was made for a port that is gone. -/
def Gone (s : PortSystem) (sem : PortSem) : Prop :=
  ∃ id < s.next_port, ¬ s.Live id ∧ (sem = .read_sem id ∨ sem = .write_sem id)

/-- The port has its semaphores. -/
def HasSems (s : PortSystem) (id : Int) : Prop :=
  (s.sems (.read_sem id)).isSome ∧ (s.sems (.write_sem id)).isSome

/-- The semaphores of a live port are there, and no call is going to delete them. -/
structure SemsKept (s : PortSystem) : Prop where
  has : ∀ id, s.Live id → s.HasSems id
  gone : ∀ call ∈ s.calls, ∀ sem ∈ deletes call, s.Gone sem

/-- What a step does to a port: the messages put into the queue and taken out of it, and the places
that are lost. -/
structure Moves (s s' : PortSystem) (id : Int) (stored taken lost : Nat) : Prop where
  live : s.Live id
  capacity : (s'.portOf id).capacity = (s.portOf id).capacity
  sems : s.HasSems id → s'.HasSems id
  enqueued : (s'.enqueued id).length = (s.enqueued id).length + stored
  handed : (s'.handed id).length = (s.handed id).length + taken
  read : s.HasSems id → s'.units (.read_sem id) + taken = s.units (.read_sem id) + stored
  write : s.HasSems id → s'.units (.write_sem id) + stored + lost = s.units (.write_sem id) + taken

/-- The port has been made in the step. -/
structure New (s s' : PortSystem) (id : Int) : Prop where
  fresh : s.next_port ≤ id
  sems : s'.HasSems id
  enqueued : s'.enqueued id = []
  handed : s'.handed id = []
  read : s'.units (.read_sem id) = 0
  write : s'.units (.write_sem id) = (s'.portOf id).capacity

/-- A write without memory for its message. -/
def Starves (s : PortSystem) (a : PortAction) : Prop :=
  ∃ i fault args, a = .go i fault ∧ s.calls[i]? = some (.writeStore args) ∧ copied args fault = none

theorem Moves.still (hports : s'.portOf id = s.portOf id ∨ (s'.portOf id).id ≠ id)
    (hlive : s'.Live id) (hsems : s.HasSems id → s'.HasSems id)
    (henqueued : s'.enqueued id = s.enqueued id)
    (hhanded : (s'.handed id).length = (s.handed id).length)
    (hunits : s.HasSems id → ∀ sem, sem = .read_sem id ∨ sem = .write_sem id →
      s'.units sem = s.units sem) : Moves s s' id 0 0 0 := by
  have hport := hports.resolve_right (not_not.mpr hlive.2)
  refine ⟨⟨hlive.1, hport ▸ hlive.2⟩, by rw [hport], hsems, by rw [henqueued]; rfl, hhanded,
    fun h => ?_, fun h => ?_⟩
  · rw [hunits h _ (.inl rfl)]
  · rw [hunits h _ (.inr rfl)]

/-! ## Units -/

theorem units_release_eq {sem : PortSem} (hsem : (s.sems sem).isSome) (sem' : PortSem) :
    (s.release_sem sem).units sem' = s.units sem' + (if sem' = sem then 1 else 0) := by
  obtain ⟨count, hcount⟩ := isSome_iff_exists.mp hsem
  have h := units_setSem s sem ((s.sems sem).map (· + 1)) sem'
  unfold release_sem
  rw [hcount] at h ⊢
  simp only [map_some, getD_some] at h ⊢
  split at h
  · rw [if_pos ‹_›]
    omega
  · rw [if_neg ‹_›]
    omega

theorem hasSems_release (sem : PortSem) (h : s.HasSems id) : (s.release_sem sem).HasSems id := by
  have hkept : ∀ sem', (s.sems sem').isSome → ((s.release_sem sem).sems sem').isSome := by
    intro sem' hsome
    show (update s.sems sem ((s.sems sem).map (· + 1)) sem').isSome
    by_cases hsem : sem' = sem
    · subst hsem
      rw [update_self, isSome_map]
      exact hsome
    · rw [update_of_ne hsem]
      exact hsome
  exact ⟨hkept _ h.1, hkept _ h.2⟩

theorem hasSems_acquire {sem : PortSem} {flags : BitVec 32} {res : Acquired}
    (hacquire : s.acquire sem flags res = some s') (h : s.HasSems id) : s'.HasSems id := by
  have hkept : ∀ count sem', s.sems sem = some (count + 1) → (s.sems sem').isSome →
      (update s.sems sem (some count) sem').isSome := by
    intro count sem' hcount hsome
    by_cases hsem : sem' = sem
    · subst hsem
      rw [update_self]
      rfl
    · rw [update_of_ne hsem]
      exact hsome
  unfold acquire at hacquire
  split at hacquire
  · split at hacquire
    · rename_i count hcount
      cases hacquire
      exact ⟨hkept count _ hcount h.1, hkept count _ hcount h.2⟩
    · cases hacquire
  all_goals
    split at hacquire
    · exact Option.some.inj hacquire ▸ h
    · cases hacquire

theorem held_read (args : ReadArgs) : held (s.read_port_etc args) = none := by
  unfold read_port_etc
  repeat' split
  all_goals rfl

theorem held_write (args : WriteArgs) : held (s.write_port_etc args) = none := by
  unfold write_port_etc
  repeat' split
  all_goals rfl

/-! ## What the steps do -/

theorem moves_addCall {call : PortCall} (hheld : held call = none) (hlive : s.Live id) :
    Moves s (s.addCall call) id 0 0 0 :=
  .still (.inl rfl) hlive (fun h => h) rfl rfl fun _ sem _ => units_addCall hheld sem

theorem portOf_setPort {slot : Nat} {port : port_entry} (hid : port.id = (s.ports slot).id)
    (hcapacity : port.capacity = (s.ports slot).capacity) :
    ((s.setPort slot port).portOf id).id = (s.portOf id).id ∧
      ((s.setPort slot port).portOf id).capacity = (s.portOf id).capacity := by
  show (update s.ports slot port (slotOf id)).id = (s.ports (slotOf id)).id ∧
    (update s.ports slot port (slotOf id)).capacity = (s.ports (slotOf id)).capacity
  by_cases hslot : slotOf id = slot
  · subst hslot
    rw [update_self]
    exact ⟨hid, hcapacity⟩
  · rw [update_of_ne hslot]
    exact ⟨rfl, rfl⟩

theorem moves_close (port : Int) (hlive : (s.close_port port).2.Live id) :
    Moves s (s.close_port port).2 id 0 0 0 := by
  revert hlive
  unfold close_port
  split
  · exact fun hlive => .still (.inl rfl) hlive (fun h => h) rfl rfl fun _ _ _ => rfl
  · split
    · exact fun hlive => .still (.inl rfl) hlive (fun h => h) rfl rfl fun _ _ _ => rfl
    · intro hlive
      have hport := @portOf_setPort s id (slotOf port) { s.portOf port with closed := true } rfl rfl
      rw [Live, hport.1] at hlive
      exact ⟨hlive, hport.2, fun h => h, rfl, rfl, fun _ => rfl, fun _ => rfl⟩

theorem moves_delete (port : Int)
    (hlive : ((s.delete_port port).2.addCall (s.delete_port port).1).Live id) :
    Moves s ((s.delete_port port).2.addCall (s.delete_port port).1) id 0 0 0 := by
  revert hlive
  unfold delete_port
  split
  · exact @moves_addCall s id (.returned (.error .B_BAD_PORT_ID)) rfl
  · split
    · exact @moves_addCall s id (.returned (.error .B_BAD_PORT_ID)) rfl
    · intro hlive
      have hne : slotOf id ≠ slotOf port := by
        intro hslot
        have hfree :
            ((s.setPort (slotOf port) { s.portOf port with id := -1 }).portOf id).id = -1 := by
          show (update s.ports (slotOf port) _ (slotOf id)).id = -1
          rw [hslot, update_self]
        have hpos := hlive.1
        have hid : ((s.setPort (slotOf port) { s.portOf port with id := -1 }).portOf id).id = id :=
          hlive.2
        omega
      exact .still (.inl (update_of_ne hne ..)) hlive (fun h => h) rfl rfl
        fun _ sem _ => @units_addCall (s.setPort (slotOf port) { s.portOf port with id := -1 })
          (.deleteSems (s.portOf port).read_sem (s.portOf port).write_sem) rfl sem

/-- The end of a wait leaves the units as they are. -/
theorem Sound.moves_wake (h : s.Sound) {i : Nat} {res : Acquired}
    (hstep : s.Step (.wake i res) s') (hlive : s'.Live id) : Moves s s' id 0 0 0 := by
  obtain ⟨call, sem, flags, sems, new, hcall, hheld, hacquire, rfl, hkind⟩ := step_wake hstep
  have hok := h.call call (mem_of_getElem? hcall)
  have hnew : ∀ sem', held new = some sem' ↔ res = .B_NO_ERROR ∧ sem' = sem := by
    intro sem'
    rcases hkind with ⟨args, rfl, rfl⟩ | ⟨args, rfl, rfl⟩
    · cases res with
      | B_NO_ERROR => simp [readWoken, held, hok.2, eq_comm]
      | _ => simp [readWoken, held]
    · cases res with
      | B_NO_ERROR => simp [writeWoken, held, hok.2, eq_comm]
      | _ => simp [writeWoken, held]
  obtain ⟨sems', heq, hunits⟩ := acquire_spec hacquire
  obtain rfl : sems = sems' := congrArg PortSystem.sems heq
  refine .still (.inl rfl) hlive ?_ rfl rfl fun _ sem' _ => ?_
  · exact @hasSems_acquire s { s with sems } id _ _ _ hacquire
  · have hset := @units_setCall { s with sems } i call hcall new sem'
    have hsame := hunits sem'
    rw [hheld] at hset
    simp only [hnew, reduceCtorEq, if_false] at hset
    show (setCall { s with sems } i new).units sem' = s.units sem'
    omega

/-- A call gives back the unit that it had. -/
theorem moves_release {i : Nat} {call new : PortCall} {sem : PortSem}
    (hcall : s.calls[i]? = some call) (hheld : held call = some sem) (hnew : held new = none)
    (hlive : s.Live id) : Moves s ((s.release_sem sem).setCall i new) id 0 0 0 := by
  refine .still (.inl rfl) hlive (fun h => hasSems_release sem h) rfl rfl fun h sem' hsem' => ?_
  have hset := @units_setCall (s.release_sem sem) i call hcall new sem'
  rw [hheld, hnew] at hset
  by_cases hsem : sem' = sem
  · subst hsem
    have hsome : (s.sems sem').isSome := by
      rcases hsem' with rfl | rfl
      · exact h.1
      · exact h.2
    have hunits := units_release_eq hsome sem'
    rw [if_pos rfl] at hunits
    simp only [if_true, reduceCtorEq, if_false] at hset
    omega
  · have hunits : (s.release_sem sem).units sem' = s.units sem' := by
      have h' := units_setSem s sem ((s.sems sem).map (· + 1)) sem'
      rw [if_neg hsem, if_neg hsem] at h'
      exact h'
    simp only [Option.some.injEq, Ne.symm hsem, reduceCtorEq, if_false] at hset
    omega

/-- Two calls for one port, in front of a section that changes its queue and behind it. -/
theorem moves_queue {i : Nat} {call new : PortCall} {port : port_entry} {key : Int}
    {enqueued : Int → List Message} {handed : Int → List Handed} (stored taken : Nat)
    (hcall : s.calls[i]? = some call) (hkey : s.Live key) (hport : port.id = key)
    (hcapacity : port.capacity = (s.portOf key).capacity)
    (hother : ∀ id', id' ≠ key → enqueued id' = s.enqueued id' ∧ handed id' = s.handed id' ∧
      ∀ sem, sem = .read_sem id' ∨ sem = .write_sem id' →
        held call ≠ some sem ∧ held new ≠ some sem)
    (henqueued : (enqueued key).length = (s.enqueued key).length + stored)
    (hhanded : (handed key).length = (s.handed key).length + taken)
    (hread : (s.setCall i new).units (.read_sem key) + taken = s.units (.read_sem key) + stored)
    (hwrite : (s.setCall i new).units (.write_sem key) + stored = s.units (.write_sem key) + taken)
    (hlive : ((setPort { s with enqueued, handed } (slotOf key) port).setCall i new).Live id) :
    ∃ stored taken,
      Moves s ((setPort { s with enqueued, handed } (slotOf key) port).setCall i new) id stored
        taken 0 := by
  by_cases hid : id = key
  · subst hid
    refine ⟨stored, taken, hkey, ?_, fun h => h, henqueued, hhanded, fun _ => hread,
      fun _ => hwrite⟩
    rw [show ((setPort { s with enqueued, handed } (slotOf id) port).setCall i new).portOf id = port
      from portOf_setPort_self]
    exact hcapacity
  · obtain ⟨henq, hhand, hheld⟩ := hother id hid
    refine ⟨0, 0, .still (.inl ?_) hlive (fun h => h) henq (congrArg List.length hhand) ?_⟩
    · exact @portOf_setPort_of_ne { s with enqueued, handed } key id port hport hid hlive.2
    · intro _ sem hsem
      obtain ⟨hcallNot, hnewNot⟩ := hheld sem hsem
      have hset := @units_setCall s i call hcall new sem
      rw [if_neg hcallNot, if_neg hnewNot] at hset
      exact hset

theorem Sound.moves_take (h : s.Sound) {i : Nat} {args : ReadArgs}
    (hcall : s.calls[i]? = some (.readTake args)) (hid : (s.portOf args.id).id = args.id)
    (hlive : ((s.readTake args).2.setCall i (s.readTake args).1).Live id) :
    ∃ stored taken,
      Moves s ((s.readTake args).2.setCall i (s.readTake args).1) id stored taken 0 := by
  have hrange : 0 ≤ args.id ∧ args.id < s.next_port := h.call _ (mem_of_getElem? hcall)
  have hwrite := (h.found (Int.not_lt.mpr hrange.1) hid).2.2
  obtain ⟨-, msg, -, -, -, -, -, -, htake⟩ := h.first hcall hid
  obtain ⟨hless, hmore⟩ := units_moved hcall (.readCopy args (s.handed args.id).length
    (min args.buffer_size msg.queued.data_len) (s.portOf args.id).write_sem) rfl
    (congrArg some hwrite) nofun
  rw [htake] at hlive ⊢
  refine moves_queue 0 1 hcall ⟨hrange.1, hid⟩ hid rfl ?_ rfl ?_ hless ?_ hlive
  · intro id' hne
    refine ⟨rfl, update_of_ne hne .., fun sem hsem => ?_⟩
    simp only [held, hwrite]
    rcases hsem with rfl | rfl
    · exact ⟨fun heq => hne (PortSem.read_sem.inj (Option.some.inj heq)).symm, nofun⟩
    · exact ⟨nofun, fun heq => hne (PortSem.write_sem.inj (Option.some.inj heq)).symm⟩
  · rw [update_self, length_append, length_singleton]
  · rw [hmore]

theorem Sound.moves_store (h : s.Sound) {i : Nat} {args : WriteArgs} (fault : Option PortFault)
    (hcall : s.calls[i]? = some (.writeStore args))
    (hplaced : s.PlacedSection fault (.writeStore args))
    (hlive : ((s.writeStore args fault).2.setCall i (s.writeStore args fault).1).Live id) :
    (∃ stored taken,
      Moves s ((s.writeStore args fault).2.setCall i (s.writeStore args fault).1) id stored
        taken 0) ∨
    (copied args fault = none ∧ ∃ lost,
      Moves s ((s.writeStore args fault).2.setCall i (s.writeStore args fault).1) id 0 0 lost) := by
  revert hlive
  unfold writeStore
  split
  · rename_i hcopied
    intro hlive
    -- the unit of `write_sem` is gone with the call
    refine .inr ⟨hcopied, if id = args.id then 1 else 0, ?_⟩
    have hunits := fun sem => @units_setCall s i _ hcall (.returned (.error .ENOMEM)) sem
    simp only [held, Option.some.injEq, reduceCtorEq, if_false] at hunits
    refine ⟨hlive, rfl, fun h => h, rfl, rfl, fun _ => ?_, fun _ => ?_⟩
    · have hread := hunits (.read_sem id)
      rw [if_neg nofun] at hread
      exact hread
    · have hwrite := hunits (.write_sem id)
      simp only [PortSem.write_sem.injEq, eq_comm] at hwrite ⊢
      exact hwrite
  · rename_i msg hcopied
    have hid : (s.portOf args.id).id = args.id :=
      hplaced.resolve_left fun hnone => absurd (hcopied.symm.trans hnone) nofun
    have hrange : 0 ≤ args.id ∧ args.id < s.next_port := h.call _ (mem_of_getElem? hcall)
    have hread := (h.found (Int.not_lt.mpr hrange.1) hid).2.1
    obtain ⟨-, -, -, -, -, -, -, -, hhead⟩ := h.place hcall hid
    obtain ⟨hfewer, hmore⟩ := units_moved hcall (.writeRelease (s.portOf args.id).read_sem) rfl
      (congrArg some hread) nofun
    simp only [if_neg hhead]
    intro hlive
    refine .inl (moves_queue 1 0 hcall ⟨hrange.1, hid⟩ hid ?_ ?_ ?_ rfl ?_ hfewer hlive)
    · rfl
    · intro id' hne
      refine ⟨update_of_ne hne .., rfl, fun sem hsem => ?_⟩
      simp only [held, hread]
      rcases hsem with rfl | rfl
      · exact ⟨nofun, fun heq => hne (PortSem.read_sem.inj (Option.some.inj heq)).symm⟩
      · exact ⟨fun heq => hne (PortSem.write_sem.inj (Option.some.inj heq)).symm, nofun⟩
    · rw [update_self, length_append, length_singleton]
    · rw [hmore]

/-- A call deletes a semaphore that was made for a port that is gone. -/
theorem moves_deleteSem {i : Nat} {call new : PortCall} {sem : PortSem}
    (hcall : s.calls[i]? = some call) (hheld : held call = none) (hnew : held new = none)
    (hgone : s.Gone sem) (hlive : s.Live id) :
    Moves s ((s.delete_sem sem).setCall i new) id 0 0 0 := by
  obtain ⟨id', -, hdead, hsem⟩ := hgone
  have hne : id ≠ id' := fun heq => hdead (heq ▸ hlive)
  have hother : ∀ sem', sem' = .read_sem id ∨ sem' = .write_sem id → sem' ≠ sem := by
    rintro sem' (rfl | rfl) rfl
    · rcases hsem with hsem | hsem
      · exact hne (PortSem.read_sem.inj hsem)
      · cases hsem
    · rcases hsem with hsem | hsem
      · cases hsem
      · exact hne (PortSem.write_sem.inj hsem)
  have hkept : ∀ sem', sem' = .read_sem id ∨ sem' = .write_sem id →
      (s.delete_sem sem).sems sem' = s.sems sem' :=
    fun sem' hsem' => update_of_ne (hother sem' hsem') ..
  refine .still (.inl rfl) hlive (fun h => ?_) rfl rfl fun _ sem' hsem' => ?_
  · have hread := hkept _ (.inl rfl)
    have hwrite := hkept _ (.inr rfl)
    exact ⟨(congrArg Option.isSome hread).trans h.1, (congrArg Option.isSome hwrite).trans h.2⟩
  · have hset := @units_setCall (s.delete_sem sem) i call hcall new sem'
    have hunits := units_setSem s sem none sem'
    rw [if_neg (hother sem' hsem'), if_neg (hother sem' hsem')] at hunits
    rw [hheld, hnew] at hset
    simp only [reduceCtorEq, if_false] at hset
    exact hset.trans hunits

theorem Sound.fill_moves (h : s.Sound) {slot capacity : Nat} (hslot : slot < MAX_PORTS)
    (hfits : nextId s.next_port slot + 1 < 2 ^ 31) (q : Nat → port_msg)
    (hlive : (s.fill slot capacity q).Live id) :
    New s (s.fill slot capacity q) id ∨ Moves s (s.fill slot capacity q) id 0 0 0 := by
  obtain ⟨hle, hslotOf⟩ := nextId_spec h.next_nonneg hslot
  have hnext := h.next_nonneg
  have hid : toInt (nextId s.next_port slot) = nextId s.next_port slot :=
    toInt_of_range (by omega) (by omega)
  revert hlive
  unfold fill
  simp only [hid]
  generalize nextId s.next_port slot = new at *
  subst hslotOf
  intro hlive
  by_cases hnew : id = new
  · subst hnew
    obtain ⟨henqueued, hhanded⟩ := h.fresh id hle
    refine .inl ⟨hle, ⟨?_, ?_⟩, henqueued, hhanded, ?_, ?_⟩
    · simp [setPort]
    · simp [setPort]
    · simp [units, setPort, h.countP_fresh hle (.inl rfl)]
    · simp [units, setPort, portOf, h.countP_fresh hle (.inr rfl)]
  · refine .inr (.still ?_ hlive ?_ rfl rfl ?_)
    · by_cases hsame : slotOf id = slotOf new
      · refine .inr ?_
        simp only [portOf, setPort, hsame, update_self]
        exact Ne.symm hnew
      · exact .inl (update_of_ne hsame ..)
    · simp [HasSems, setPort, hnew]
    · rintro - sem (rfl | rfl)
      · simp [units, setPort, hnew]
      · simp [units, setPort, hnew]

theorem section_frame {call new : PortCall} {fault : Option PortFault}
    (hsection : s.section2 fault call = some (new, s')) :
    s'.next_port = s.next_port ∧ s'.calls = s.calls ∧ ∀ sem ∈ deletes new, sem ∈ deletes call := by
  cases call with
  | readTake args =>
    have heq : s.readTake args = (new, s') := Option.some.inj hsection
    unfold readTake at heq
    dsimp only at heq
    split at heq
    all_goals
      cases heq
      exact ⟨rfl, rfl, fun _ h => h⟩
  | writeStore args =>
    have heq : s.writeStore args fault = (new, s') := Option.some.inj hsection
    unfold writeStore at heq
    dsimp only at heq
    split at heq
    · cases heq
      exact ⟨rfl, rfl, fun _ h => h⟩
    · split at heq
      all_goals
        cases heq
        exact ⟨rfl, rfl, fun _ h => h⟩
  | readCopy args n siz cached_semid =>
    have heq : s.readCopy args n siz cached_semid fault = (new, s') := Option.some.inj hsection
    unfold readCopy at heq
    split at heq
    all_goals
      cases heq
      exact ⟨rfl, rfl, fun _ h => h⟩
  | writeRelease | deleteWriteSem =>
    cases hsection
    exact ⟨rfl, rfl, fun _ h => absurd h not_mem_nil⟩
  | deleteSems r_sem w_sem =>
    cases hsection
    exact ⟨rfl, rfl, fun _ h => mem_cons_of_mem _ h⟩
  | _ => cases hsection

theorem Sound.step_next (h : s.Sound) {a : PortAction} (hplaced : s.Placed a)
    (hstep : s.Step a s') : s.next_port ≤ s'.next_port := by
  cases a with
  | create_port queue_length q err =>
    cases hstep
    unfold create_port
    repeat' split
    all_goals try exact Int.le_refl _
    rename_i slot hslot
    have hspec := freeSlot_spec (Nat.le_refl _) hslot
    have hle := (nextId_spec h.next_nonneg hspec.1).1
    have hfits := hplaced slot hslot
    have hnext := h.next_nonneg
    show s.next_port ≤ toInt (toInt (nextId s.next_port slot) + 1)
    have hid : toInt (nextId s.next_port slot) = nextId s.next_port slot :=
      toInt_of_range (by omega) (by omega)
    rw [hid, toInt_of_range (by omega) (by omega)]
    omega
  | close_port id =>
    cases hstep
    unfold close_port
    repeat' split
    all_goals exact Int.le_refl _
  | delete_port id =>
    cases hstep
    unfold delete_port
    repeat' split
    all_goals exact Int.le_refl _
  | read_port_etc args | write_port_etc args =>
    cases hstep
    exact Int.le_refl _
  | wake i res =>
    obtain ⟨-, -, -, sems, new, -, -, -, rfl, -⟩ := step_wake hstep
    exact Int.le_refl _
  | go i fault =>
    obtain ⟨call, new, s₁, hcall, hsection, rfl⟩ := step_go hstep
    exact Int.le_of_eq (section_frame hsection).1.symm

/-- What a step does to a port that is live behind it. -/
theorem Sound.step_moves (h : s.Sound) (hkept : s.SemsKept) {a : PortAction} (hplaced : s.Placed a)
    (hstep : s.Step a s') (hlive : s'.Live id) :
    New s s' id ∨ (∃ stored taken, Moves s s' id stored taken 0) ∨
      (s.Starves a ∧ ∃ lost, Moves s s' id 0 0 lost) := by
  cases a with
  | create_port queue_length q err =>
    cases hstep
    have hstill : ∀ hlive : s.Live id, Moves s s id 0 0 0 := fun hlive =>
      .still (.inl rfl) hlive (fun h => h) rfl rfl fun _ _ _ => rfl
    revert hlive
    unfold create_port
    split
    · exact fun hlive => .inr (.inl ⟨0, 0, hstill hlive⟩)
    · split
      · exact fun hlive => .inr (.inl ⟨0, 0, hstill hlive⟩)
      · split
        · exact fun hlive => .inr (.inl ⟨0, 0, hstill hlive⟩)
        · split
          · rename_i slot hslot
            intro hlive
            have hspec := freeSlot_spec (Nat.le_refl _) hslot
            rcases h.fill_moves hspec.1 (hplaced slot hslot) q hlive with hnew | hmoves
            · exact .inl hnew
            · exact .inr (.inl ⟨0, 0, hmoves⟩)
          · exact fun hlive => .inr (.inl ⟨0, 0, hstill hlive⟩)
  | close_port port =>
    cases hstep
    exact .inr (.inl ⟨0, 0, moves_close port hlive⟩)
  | delete_port port =>
    cases hstep
    exact .inr (.inl ⟨0, 0, moves_delete port hlive⟩)
  | read_port_etc args =>
    cases hstep
    exact .inr (.inl ⟨0, 0, moves_addCall (held_read args) hlive⟩)
  | write_port_etc args =>
    cases hstep
    exact .inr (.inl ⟨0, 0, moves_addCall (held_write args) hlive⟩)
  | wake i res => exact .inr (.inl ⟨0, 0, h.moves_wake hstep hlive⟩)
  | go i fault =>
    obtain ⟨call, new, s₁, hcall, hsection, rfl⟩ := step_go hstep
    have hsafe := hplaced call hcall
    cases call with
    | readTake args =>
      have heq : s.readTake args = (new, s₁) := Option.some.inj hsection
      have hmoves := @Sound.moves_take s id h i args hcall hsafe
      rw [heq] at hmoves
      exact .inr (.inl (hmoves hlive))
    | writeStore args =>
      have heq : s.writeStore args fault = (new, s₁) := Option.some.inj hsection
      have hmoves := @Sound.moves_store s id h i args fault hcall hsafe
      rw [heq] at hmoves
      rcases hmoves hlive with hmoves | ⟨hnone, hmoves⟩
      · exact .inr (.inl hmoves)
      · exact .inr (.inr ⟨⟨i, fault, args, rfl, hcall, hnone⟩, hmoves⟩)
    | readCopy args n siz cached_semid =>
      have heq : s.readCopy args n siz cached_semid fault = (new, s₁) := Option.some.inj hsection
      unfold readCopy at heq
      split at heq
      · cases heq
        -- the message is lost, and its place given back
        have hmoves := @moves_release { s with
            handed := update s.handed args.id
              ((s.handed args.id).modify n fun handed => { handed with message := none }) } id i
          _ (.returned (.ok 1)) cached_semid hcall rfl rfl hlive
        refine .inr (.inl ⟨0, 0, hmoves.live, hmoves.capacity, hmoves.sems, hmoves.enqueued, ?_,
          hmoves.read, hmoves.write⟩)
        show (update s.handed args.id _ id).length = _
        by_cases hid : id = args.id
        · subst hid
          rw [update_self, length_modify]
          rfl
        · rw [update_of_ne hid]
          rfl
      · cases heq
        exact .inr (.inl ⟨0, 0, moves_release hcall rfl rfl hlive⟩)
    | writeRelease cached_semid =>
      cases hsection
      exact .inr (.inl ⟨0, 0, moves_release hcall rfl rfl hlive⟩)
    | deleteSems r_sem w_sem =>
      cases hsection
      have hgone := hkept.gone _ (mem_of_getElem? hcall) r_sem mem_cons_self
      exact .inr (.inl ⟨0, 0, moves_deleteSem hcall rfl rfl hgone hlive⟩)
    | deleteWriteSem w_sem =>
      cases hsection
      have hgone := hkept.gone _ (mem_of_getElem? hcall) w_sem mem_cons_self
      exact .inr (.inl ⟨0, 0, moves_deleteSem hcall rfl rfl hgone hlive⟩)
    | _ => cases hsection

/-! ## Runs -/

theorem Gone.step (h : s.Sound) (hkept : s.SemsKept) {a : PortAction} (hplaced : s.Placed a)
    (hstep : s.Step a s') {sem : PortSem} (hgone : s.Gone sem) : s'.Gone sem := by
  obtain ⟨id, hlt, hdead, hsem⟩ := hgone
  refine ⟨id, Int.lt_of_lt_of_le hlt (h.step_next hplaced hstep), fun hlive => ?_, hsem⟩
  rcases h.step_moves hkept hplaced hstep hlive with hnew | ⟨_, _, hmoves⟩ | ⟨-, _, hmoves⟩
  · exact absurd hnew.fresh (Int.not_le.mpr hlt)
  · exact hdead hmoves.live
  · exact hdead hmoves.live

/-- What the calls are going to delete behind a step was for deletion before, or is of the port that
the step deletes. -/
theorem Sound.step_deletes (h : s.Sound) {a : PortAction} (hstep : s.Step a s') :
    ∀ call ∈ s'.calls, ∀ sem ∈ deletes call,
      (∃ call' ∈ s.calls, sem ∈ deletes call') ∨ s'.Gone sem := by
  have hold : ∀ {calls : List PortCall} {new : PortCall}, deletes new = [] →
      ∀ call ∈ calls ++ [new], ∀ sem ∈ deletes call, ∃ call' ∈ calls, sem ∈ deletes call' := by
    intro calls new hnew call hcall sem hsem
    rcases mem_append.mp hcall with hcall | hcall
    · exact ⟨call, hcall, hsem⟩
    · rw [mem_singleton.mp hcall, hnew] at hsem
      exact absurd hsem not_mem_nil
  intro call hcall sem hsem
  cases a with
  | create_port queue_length q err =>
    cases hstep
    refine .inl ⟨call, ?_, hsem⟩
    revert hcall
    unfold create_port
    repeat' split
    all_goals exact fun hcall => hcall
  | close_port id =>
    cases hstep
    refine .inl ⟨call, ?_, hsem⟩
    revert hcall
    unfold close_port
    repeat' split
    all_goals exact fun hcall => hcall
  | delete_port id =>
    cases hstep
    revert hcall
    unfold delete_port
    split
    · exact fun hcall => .inl
          (@hold s.calls (.returned (.error .B_BAD_PORT_ID)) rfl call hcall sem hsem)
    · rename_i hpos
      split
      · exact fun hcall => .inl
          (@hold s.calls (.returned (.error .B_BAD_PORT_ID)) rfl call hcall sem hsem)
      · rename_i hid
        intro hcall
        obtain ⟨hrange, hread, hwrite⟩ := h.found hpos (not_not.mp hid)
        rcases mem_append.mp hcall with hcall | hcall
        · exact .inl ⟨call, hcall, hsem⟩
        · obtain rfl := mem_singleton.mp hcall
          refine .inr ⟨id, hrange.2, fun hlive => ?_, ?_⟩
          · have hfree :
                ((s.setPort (slotOf id) { s.portOf id with id := -1 }).portOf id).id = -1 :=
              congrArg port_entry.id portOf_setPort_self
            have hsame :
                ((s.setPort (slotOf id) { s.portOf id with id := -1 }).portOf id).id = id :=
              hlive.2
            omega
          · simp only [deletes, hread, hwrite, mem_cons, not_mem_nil, or_false] at hsem
            exact hsem
  | read_port_etc args =>
    cases hstep
    refine .inl (hold ?_ call hcall sem hsem)
    unfold read_port_etc
    repeat' split
    all_goals rfl
  | write_port_etc args =>
    cases hstep
    refine .inl (hold ?_ call hcall sem hsem)
    unfold write_port_etc
    repeat' split
    all_goals rfl
  | wake i res =>
    obtain ⟨old, _, _, sems, new, -, -, -, rfl, hkind⟩ := step_wake hstep
    rcases mem_or_eq_of_mem_set hcall with hcall | rfl
    · exact .inl ⟨call, hcall, hsem⟩
    · rcases hkind with ⟨args, -, rfl⟩ | ⟨args, -, rfl⟩ <;> cases res <;>
        exact absurd hsem not_mem_nil
  | go i fault =>
    obtain ⟨old, new, s₁, hold, hsection, rfl⟩ := step_go hstep
    obtain ⟨-, hcalls, hless⟩ := section_frame hsection
    rcases mem_or_eq_of_mem_set hcall with hcall | rfl
    · exact .inl ⟨call, hcalls ▸ hcall, hsem⟩
    · exact .inl ⟨old, mem_of_getElem? hold, hless sem hsem⟩

theorem SemsKept.step (hkept : s.SemsKept) (h : s.Sound) {a : PortAction} (hplaced : s.Placed a)
    (hstep : s.Step a s') : s'.SemsKept := by
  refine ⟨fun id hlive => ?_, fun call hcall sem hsem => ?_⟩
  · rcases h.step_moves hkept hplaced hstep hlive with hnew | ⟨_, _, hmoves⟩ | ⟨-, _, hmoves⟩
    · exact hnew.sems
    · exact hmoves.sems (hkept.has id hmoves.live)
    · exact hmoves.sems (hkept.has id hmoves.live)
  · rcases h.step_deletes hstep call hcall sem hsem with ⟨call', hcall', hsem'⟩ | hgone
    · exact (hkept.gone call' hcall' sem hsem').step h hkept hplaced hstep
    · exact hgone

/-- The units of `read_sem` are the messages in the queue. -/
structure Counted (s : PortSystem) : Prop where
  sound : s.Sound
  kept : s.SemsKept
  read : ∀ id, s.Live id → s.units (.read_sem id) + (s.handed id).length = (s.enqueued id).length

/-- The units of `write_sem` are the free places. -/
def Roomy (s : PortSystem) : Prop :=
  ∀ id, s.Live id →
    s.units (.write_sem id) + (s.enqueued id).length = (s.portOf id).capacity + (s.handed id).length

theorem not_live_init (h : s.Init) : ¬ s.Live id := by
  rintro ⟨hpos, hid⟩
  have hfree : (s.portOf id).id = -1 := h.1 _
  omega

theorem init_counted (h : s.Init) : s.Counted := by
  refine ⟨init_sound h, ⟨fun id hlive => absurd hlive (not_live_init h), fun call hcall => ?_⟩,
    fun id hlive => absurd hlive (not_live_init h)⟩
  rw [h.2.2.2.1] at hcall
  exact absurd hcall not_mem_nil

theorem step_counted {a : PortAction} (h : s.Counted) (hplaced : s.Placed a)
    (hstep : s.Step a s') : s'.Counted := by
  refine ⟨step_sound h.sound hplaced hstep, h.kept.step h.sound hplaced hstep, fun id hlive => ?_⟩
  rcases h.sound.step_moves h.kept hplaced hstep hlive with hnew | ⟨_, _, hmoves⟩ | ⟨-, _, hmoves⟩
  · rw [hnew.read, hnew.enqueued, hnew.handed]
    rfl
  all_goals
    have hbefore := h.read id hmoves.live
    have hread := hmoves.read (h.kept.has id hmoves.live)
    rw [hmoves.enqueued, hmoves.handed]
    omega

theorem step_roomy {a : PortAction} (h : s.Counted) (hroomy : s.Roomy) (hplaced : s.Placed a)
    (hserved : ¬ s.Starves a) (hstep : s.Step a s') : s'.Roomy := by
  intro id hlive
  rcases h.sound.step_moves h.kept hplaced hstep hlive with hnew | ⟨_, _, hmoves⟩ | ⟨hstarves, -⟩
  · rw [hnew.write, hnew.enqueued, hnew.handed]
    rfl
  · have hbefore := hroomy id hmoves.live
    have hwrite := hmoves.write (h.kept.has id hmoves.live)
    rw [hmoves.enqueued, hmoves.handed, hmoves.capacity]
    omega
  · exact absurd hstarves hserved

/-! ## The calls that put messages into the queues -/

/-- What goes wrong with the message of a write. -/
def writeFaults (args : WriteArgs) : Option PortFault → Bool
  | some .no_memory => args.msg.bytes ≠ []
  | some (.user_memcpy ..) => args.msg.bytes ≠ [] ∧ args.flags &&& PORT_FLAG_USE_USER_MEMCPY ≠ 0
  | none => false

theorem copied_of_served {args : WriteArgs} {fault : Option PortFault}
    (h : writeFaults args fault = false) : copied args fault = some args.msg := by
  rcases fault with _ | _ | ⟨n, left⟩
  · rfl
  · have hempty : args.msg.bytes = [] := by simpa [writeFaults] using h
    exact if_pos hempty
  · simp only [writeFaults, ne_eq, decide_eq_false_iff_not, not_and, not_not] at h
    show (if args.flags &&& PORT_FLAG_USE_USER_MEMCPY ≠ 0 then some (args.msg.partly n left)
      else some args.msg) = some args.msg
    split
    · rename_i hflag
      have hempty : args.msg.bytes = [] := by
        by_contra hne
        exact hflag (h hne)
      rw [Message.partly_of_empty hempty]
    · rfl

/-- There is memory for the message of a write, and its copy does not fault. -/
def WritesWhole (fault : Option PortFault) : PortCall → Prop
  | .writeStore args => writeFaults args fault = false
  | _ => True

/-- The steps that no place is lost by, and that store whole messages only. -/
def Served (s : PortSystem) (a : PortAction) : Prop := s.Placed a ∧ s.Section WritesWhole a

instance (fault : Option PortFault) : DecidablePred (WritesWhole fault)
  | .writeStore _ => inferInstanceAs (Decidable (_ = _))
  | .readTake _ | .readCopy .. | .readWait .. | .writeWait .. | .writeRelease _ | .deleteSems ..
  | .deleteWriteSem _ | .returned _ | .panicked => inferInstanceAs (Decidable True)

instance (s : PortSystem) : DecidablePred s.Served := fun _ => inferInstanceAs (Decidable (_ ∧ _))

/-- The call that takes the step. -/
def caller (s : PortSystem) : PortAction → Nat
  | .wake i _ | .go i _ => i
  | _ => s.calls.length

/-- Only a write on its way to `B_NO_ERROR` puts a message into a queue. -/
theorem step_enqueued {a : PortAction} (hstep : s.Step a s') (hne : s'.enqueued ≠ s.enqueued) :
    ∃ sem, s'.calls[caller s a]? = some (.writeRelease sem) := by
  cases a with
  | create_port queue_length q err =>
    cases hstep
    refine absurd ?_ hne
    unfold create_port
    repeat' split
    all_goals rfl
  | close_port id =>
    cases hstep
    refine absurd ?_ hne
    unfold close_port
    repeat' split
    all_goals rfl
  | delete_port id =>
    cases hstep
    refine absurd ?_ hne
    unfold delete_port
    repeat' split
    all_goals rfl
  | read_port_etc args | write_port_etc args =>
    cases hstep
    exact absurd rfl hne
  | wake i res =>
    obtain ⟨-, -, -, sems, new, -, -, -, rfl, -⟩ := step_wake hstep
    exact absurd rfl hne
  | go i fault =>
    obtain ⟨call, new, s₁, hcall, hsection, rfl⟩ := step_go hstep
    obtain ⟨-, hcalls, -⟩ := section_frame hsection
    have hi : i < s₁.calls.length := by
      rw [hcalls]
      exact (List.getElem?_eq_some_iff.mp hcall).1
    have hnew : (s₁.setCall i new).calls[i]? = some new := List.getElem?_set_self hi
    show ∃ sem, (s₁.setCall i new).calls[i]? = some (.writeRelease sem)
    rw [hnew]
    cases call with
    | writeStore args =>
      have heq : s.writeStore args fault = (new, s₁) := Option.some.inj hsection
      unfold writeStore at heq
      dsimp only at heq
      split at heq
      · cases heq
        exact absurd rfl hne
      · split at heq
        · cases heq
          exact absurd rfl hne
        · cases heq
          exact ⟨_, rfl⟩
    | readTake args =>
      have heq : s.readTake args = (new, s₁) := Option.some.inj hsection
      unfold readTake at heq
      dsimp only at heq
      split at heq
      all_goals
        cases heq
        exact absurd rfl hne
    | readCopy args n siz cached_semid =>
      have heq : s.readCopy args n siz cached_semid fault = (new, s₁) := Option.some.inj hsection
      unfold readCopy at heq
      split at heq
      all_goals
        cases heq
        exact absurd rfl hne
    | writeRelease | deleteSems | deleteWriteSem =>
      cases hsection
      exact absurd rfl hne
    | _ => cases hsection

/-- The call is a write that returns `B_NO_ERROR`, or has returned it. -/
def Succeeds (call : PortCall) : Prop :=
  (∃ sem, call = .writeRelease sem) ∨ call = .returned (.ok 0)

theorem step_succeeds {a : PortAction} (hstep : s.Step a s') {i : Nat}
    (h : ∃ call, s.calls[i]? = some call ∧ Succeeds call) :
    ∃ call, s'.calls[i]? = some call ∧ Succeeds call := by
  obtain ⟨call, hcall, hsucceeds⟩ := h
  have happend : ∀ new : PortCall, (s.calls ++ [new])[i]? = some call := fun new =>
    (List.getElem?_append_left (List.getElem?_eq_some_iff.mp hcall).1).trans hcall
  cases a with
  | create_port queue_length q err =>
    cases hstep
    refine ⟨call, ?_, hsucceeds⟩
    unfold create_port
    repeat' split
    all_goals exact hcall
  | close_port id =>
    cases hstep
    refine ⟨call, ?_, hsucceeds⟩
    unfold close_port
    repeat' split
    all_goals exact hcall
  | delete_port id =>
    cases hstep
    refine ⟨call, ?_, hsucceeds⟩
    unfold delete_port
    repeat' split
    all_goals exact happend _
  | read_port_etc args | write_port_etc args =>
    cases hstep
    exact ⟨call, happend _, hsucceeds⟩
  | wake j res =>
    obtain ⟨old, _, _, sems, new, hold, -, -, rfl, hkind⟩ := step_wake hstep
    by_cases hij : j = i
    · subst hij
      cases hcall.symm.trans hold
      rcases hkind with ⟨args, rfl, -⟩ | ⟨args, rfl, -⟩
      all_goals
        rcases hsucceeds with ⟨sem, heq⟩ | heq
        all_goals cases heq
    · exact ⟨call, (List.getElem?_set_ne hij).trans hcall, hsucceeds⟩
  | go j fault =>
    obtain ⟨old, new, s₁, hold, hsection, rfl⟩ := step_go hstep
    obtain ⟨-, hcalls, -⟩ := section_frame hsection
    by_cases hij : j = i
    · subst hij
      cases hcall.symm.trans hold
      rcases hsucceeds with ⟨sem, rfl⟩ | rfl
      · cases hsection
        exact ⟨_, List.getElem?_set_self (List.getElem?_eq_some_iff.mp hcall).1, .inr rfl⟩
      · cases hsection
    · refine ⟨call, (List.getElem?_set_ne hij).trans ?_, hsucceeds⟩
      rw [hcalls]
      exact hcall

/-- A run with the calls that have put a message into a queue. -/
structure WriteLog where
  system : PortSystem
  stored : List Nat

namespace WriteLog

def Init (l : WriteLog) : Prop := l.system.Init ∧ l.stored = []

def Served (l : WriteLog) (a : PortAction) : Prop := l.system.Served a

/-- A step of the system, noted if it changes what is in the queues. -/
def Step (l : WriteLog) (a : PortAction) (l' : WriteLog) : Prop :=
  l.system.Step a l'.system ∧ ((l'.system.enqueued = l.system.enqueued ∧ l'.stored = l.stored) ∨
      (l'.system.enqueued ≠ l.system.enqueued ∧ l'.stored = l.stored ++ [caller l.system a]))

/-- The invariant: the units add up, and the writes that are noted succeed. -/
structure Sound (l : WriteLog) : Prop where
  counted : l.system.Counted
  roomy : l.system.Roomy
  succeeds : ∀ i ∈ l.stored, ∃ call, l.system.calls[i]? = some call ∧ Succeeds call

theorem init_sound {l : WriteLog} (h : l.Init) : l.Sound := by
  refine ⟨init_counted h.1, fun id hlive => absurd hlive (not_live_init h.1), fun i hi => ?_⟩
  rw [h.2] at hi
  exact absurd hi not_mem_nil

theorem step_sound {l l' : WriteLog} {a : PortAction} (h : l.Sound) (hserved : l.Served a)
    (hstep : l.Step a l') : l'.Sound := by
  obtain ⟨hplaced, hwrites⟩ := hserved
  obtain ⟨hsystem, hlog⟩ := hstep
  have hfed : ¬ l.system.Starves a := by
    rintro ⟨i, fault, args, rfl, hcall, hnone⟩
    rw [copied_of_served (hwrites _ hcall)] at hnone
    cases hnone
  refine ⟨step_counted h.counted hplaced hsystem,
    step_roomy h.counted h.roomy hplaced hfed hsystem, fun i hi => ?_⟩
  rcases hlog with ⟨-, heq⟩ | ⟨hne, heq⟩
  · rw [heq] at hi
    exact step_succeeds hsystem (h.succeeds i hi)
  · rw [heq] at hi
    rcases mem_append.mp hi with hi | hi
    · exact step_succeeds hsystem (h.succeeds i hi)
    · obtain rfl := mem_singleton.mp hi
      obtain ⟨sem, hsem⟩ := step_enqueued hsystem hne
      exact ⟨_, hsem, .inl ⟨sem, rfl⟩⟩

end WriteLog

/-! ## No call is in progress -/

/-- All calls have returned. -/
def Idle (s : PortSystem) : Prop := ∀ call ∈ s.calls, ∃ result, call = .returned result

/-- The counts of the semaphores are the messages in the queue and the free places. -/
def Balanced (s : PortSystem) (id : Int) : Prop :=
  ∃ stored free, (s.portOf id).Queue stored ∧ s.sems (.read_sem id) = some stored.length ∧
    s.sems (.write_sem id) = some free ∧ free + stored.length = (s.portOf id).capacity

theorem units_of_idle (hidle : s.Idle) (sem : PortSem) : s.units sem = (s.sems sem).getD 0 := by
  have hnone : (s.calls.countP fun call => held call = some sem) = 0 := by
    refine countP_eq_zero.mpr fun call hcall hheld => ?_
    obtain ⟨result, rfl⟩ := hidle call hcall
    cases of_decide_eq_true hheld
  rw [units, hnone, Nat.add_zero]

theorem Counted.balanced (h : s.Counted) (hroomy : s.Roomy) (hidle : s.Idle) (hlive : s.Live id) :
    s.Balanced id := by
  obtain ⟨done, stored, hall, htaken, hqueue⟩ := h.sound.queue id
  have hlength := htaken.length_eq
  have hread := h.read id hlive
  have hwrite := hroomy id hlive
  obtain ⟨hreadSem, hwriteSem⟩ := h.kept.has id hlive
  obtain ⟨count, hcount⟩ := isSome_iff_exists.mp hreadSem
  obtain ⟨free, hfree⟩ := isSome_iff_exists.mp hwriteSem
  rw [units_of_idle hidle, hcount, hall, length_append, hlength] at hread
  rw [units_of_idle hidle, hfree, hall, length_append, hlength] at hwrite
  simp only [getD_some] at hread hwrite
  refine ⟨stored, free, (hqueue hlive.1 hlive.2).1, ?_, hfree, by omega⟩
  rw [hcount]
  congr
  omega

/-- A write that returns an error has put no message into a queue, and when all calls have returned
the counts of the semaphores of every port are its messages and its free places. -/
theorem failed_calls_cost_nothing {l : WriteLog}
    (h : By WriteLog.Init WriteLog.Served WriteLog.Step l) :
    (∀ i err, l.system.calls[i]? = some (.returned (.error err)) → i ∉ l.stored) ∧
      (l.system.Idle → ∀ id, l.system.Live id → l.system.Balanced id) := by
  have hsound : l.Sound := h.invariant WriteLog.Sound (fun _ => WriteLog.init_sound)
    fun _ _ _ => WriteLog.step_sound
  refine ⟨fun i err herror hi => ?_, fun hidle id hlive => ?_⟩
  · obtain ⟨call, hcall, hsucceeds⟩ := hsound.succeeds i hi
    cases herror.symm.trans hcall
    rcases hsucceeds with ⟨sem, heq⟩ | heq
    · cases heq
    · cases heq
  · exact hsound.counted.balanced hsound.roomy hidle hlive

/-! ## Three runs -/

theorem exists_log (h : By Init Served Step s) :
    ∃ stored, By WriteLog.Init WriteLog.Served WriteLog.Step ⟨s, stored⟩ := by
  induction h with
  | init hinit => exact ⟨[], .init ⟨hinit, rfl⟩⟩
  | @step s s' a _ hserved hstep ih =>
    obtain ⟨stored, hlog⟩ := ih
    by_cases hsame : s'.enqueued = s.enqueued
    · exact ⟨stored, hlog.step hserved ⟨hstep, .inl ⟨hsame, rfl⟩⟩⟩
    · exact ⟨stored ++ [caller s a], hlog.step hserved ⟨hstep, .inr ⟨hsame, rfl⟩⟩⟩

/-- The queue is full, so that the second write has no place before its time is out. -/
theorem failed_calls_cost_nothing_full :
    ∃ l : WriteLog, By WriteLog.Init WriteLog.Served WriteLog.Step l ∧
      l.system.calls = [.returned (.ok 0), .returned (.error .B_TIMED_OUT)] ∧ 1 ∉ l.stored ∧
      l.system.Balanced 0 := by
  have hexec : (exec (guarded Served step) [newPort, .write_port_etc ⟨0, ⟨7, [10]⟩, 0, 0⟩,
      .wake 0 .B_NO_ERROR, .go 0 none, .go 0 none, .write_port_etc ⟨0, ⟨8, [11]⟩, B_TIMEOUT, 0⟩,
      .wake 1 .ERR_SEM_TIMED_OUT] boot).map (fun s => (s.calls, (s.portOf 0).id)) =
      some ([.returned (.ok 0), .returned (.error .B_TIMED_OUT)], 0) := by rfl
  obtain ⟨s, hs, hend⟩ := map_eq_some_iff.mp hexec
  obtain ⟨hcalls, hid⟩ := Prod.mk.inj hend
  obtain ⟨stored, hlog⟩ := exists_log (By.exec (fun _ _ _ => guarded_some) _ (.init init_boot) hs)
  obtain ⟨hfailed, hbalanced⟩ := failed_calls_cost_nothing hlog
  refine ⟨⟨s, stored⟩, hlog, hcalls, hfailed 1 .B_TIMED_OUT ?_, hbalanced ?_ 0 ⟨Int.le_refl _, hid⟩⟩
  · exact congrArg (·[1]?) hcalls
  · intro call hcall
    change call ∈ s.calls at hcall
    rw [hcalls] at hcall
    rcases mem_cons.mp hcall with rfl | hcall
    · exact ⟨_, rfl⟩
    · obtain rfl := mem_singleton.mp hcall
      exact ⟨_, rfl⟩

/-- A write without memory keeps the only place of the port; and a write whose copy of user memory
faults puts a message into the queue. -/
theorem failed_write_costs_place :
    (∃ s, By Init (fun _ _ => True) Step s ∧ s.calls = [.returned (.error .ENOMEM)] ∧ s.Live 0 ∧
      ¬ s.Balanced 0) ∧
    ∃ s, By Init (fun _ _ => True) Step s ∧ s.calls = [.returned (.ok 0)] ∧
      s.enqueued 0 = [⟨7, [10, 0xee]⟩] := by
  constructor
  · have hexec : (exec step [newPort, .write_port_etc ⟨0, ⟨7, [10]⟩, 0, 0⟩, .wake 0 .B_NO_ERROR,
        .go 0 (some .no_memory)] boot).map (fun s => (s.calls, (s.portOf 0).id,
          (s.portOf 0).capacity, s.sems (.read_sem 0), s.sems (.write_sem 0))) =
        some ([.returned (.error .ENOMEM)], 0, 1, some 0, some 0) := by rfl
    obtain ⟨s, hs, hend⟩ := map_eq_some_iff.mp hexec
    simp only [Prod.mk.injEq] at hend
    obtain ⟨hcalls, hid, hcapacity, hread, hwrite⟩ := hend
    refine ⟨s, By.exec (fun _ _ _ h => ⟨trivial, h⟩) _ (.init init_boot) hs, hcalls,
      ⟨Int.le_refl _, hid⟩, ?_⟩
    rintro ⟨stored, free, -, hstored, hfree, hsum⟩
    rw [hread, Option.some.injEq] at hstored
    rw [hwrite, Option.some.injEq] at hfree
    omega
  · have hexec : (exec step [newPort,
        .write_port_etc ⟨0, ⟨7, [10, 11]⟩, PORT_FLAG_USE_USER_MEMCPY, 0⟩, .wake 0 .B_NO_ERROR,
        .go 0 (some (.user_memcpy 1 fun _ => 0xee)), .go 0 none] boot).map
          (fun s => (s.calls, s.enqueued 0)) =
        some ([.returned (.ok 0)], [⟨7, [10, 0xee]⟩]) := by rfl
    obtain ⟨s, hs, hend⟩ := map_eq_some_iff.mp hexec
    obtain ⟨hcalls, henqueued⟩ := Prod.mk.inj hend
    exact ⟨s, By.exec (fun _ _ _ h => ⟨trivial, h⟩) _ (.init init_boot) hs, hcalls, henqueued⟩

end PortSystem

end Kernel
