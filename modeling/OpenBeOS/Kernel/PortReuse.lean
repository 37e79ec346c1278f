import OpenBeOS.Kernel.PortSlots
import OpenBeOS.Kernel.PortRun

/-! # A slot is used again

A new port is open and empty, and deleting one gives back what it has, in every history in which no
slot is taken that a closed port has left, no queue is walked with entries that have never been
written, and no port is made when there is no slot.
-/

namespace Kernel

open Reachable Circular Function List Option Int

namespace PortTable

variable {s s' : PortTable}

/-! ## What a port owns -/

section

variable (s : PortTable) (port : port_slot)

/-- The number of messages in the queue of a port. -/
def count : Nat := (s.sems port.read_sem).getD 0

/-- The pointer of the message `k` of the queue. -/
def cell (k : Nat) : Option Nat :=
  (s.queues port.msg_queue ((port.tail + k) % port.capacity)).data_cbuf

/-- The buffers of the messages in the queue. -/
def undelivered : List Nat :=
  (List.range (s.count port)).filterMap (s.cell port)

end

inductive Resource where
  | block (p : Nat)
  | sem (x : Nat)
  | chain (c : Nat)

def Owns (s : PortTable) (port : port_slot) : Resource → Prop
  | .block p => port.name = some p ∨ port.msg_queue = p
  | .sem x => port.read_sem = x ∨ port.write_sem = x
  | .chain c => ∃ k < s.count port, s.cell port k = some c

def InUse (s : PortTable) : Resource → Prop
  | .block p => s.blocks p = true
  | .sem x => s.sems x ≠ none
  | .chain c => s.chains c = true

/-- An open or closed port in its slot, and the ring of its queue. -/
structure PortOk (s : PortTable) (slot : Nat) (port : port_slot) : Prop where
  range : 0 ≤ port.id ∧ port.id < s.next_port
  slot_eq : PortSystem.slotOf port.id = slot
  tail_lt : port.tail < port.capacity
  count_le : s.count port ≤ port.capacity
  head_eq : port.head = (port.tail + s.count port) % port.capacity
  head_total : port.head = port.total_count % port.capacity
  room : (s.sems port.write_sem).getD 0 + s.count port ≤ port.capacity
  unused : ∀ i < port.capacity, (∀ k < s.count port, i ≠ (port.tail + k) % port.capacity) →
    i < port.total_count → (s.queues port.msg_queue i).data_cbuf = none
  name : ∃ p, port.name = some p ∧ p ≠ port.msg_queue
  sems_ne : port.read_sem ≠ port.write_sem
  cells : ∀ k < s.count port, ∀ k' < s.count port, ∀ c, s.cell port k = some c →
    s.cell port k' = some c → k = k'
  used : ∀ r, s.Owns port r → s.InUse r

/-- The slot has a port. -/
def Taken (s : PortTable) (slot : Nat) : Prop := (s.ports slot).id ≠ -1

structure Sound (s : PortTable) : Prop where
  next_nonneg : 0 ≤ s.next_port
  ok : ∀ slot, s.Taken slot → s.PortOk slot (s.ports slot)
  apart : ∀ slot slot' r, s.Taken slot → s.Taken slot' → s.Owns (s.ports slot) r →
    s.Owns (s.ports slot') r → slot = slot'
  frees : s.misfreed = []

/-- The port is the same in both states, with its queue and its semaphores. -/
structure Same (s s' : PortTable) (port port' : port_slot) : Prop where
  port_eq : ∃ closed, port' = { port with closed }
  queue : ∀ i, s'.queues port.msg_queue i = s.queues port.msg_queue i
  read : s'.sems port.read_sem = s.sems port.read_sem
  write : s'.sems port.write_sem = s.sems port.write_sem

theorem Same.owns {port port' : port_slot} (h : Same s s' port port') (r : Resource) :
    s'.Owns port' r ↔ s.Owns port r := by
  obtain ⟨⟨closed, rfl⟩, hqueue, hread, -⟩ := h
  cases r with
  | block p | sem x => exact Iff.rfl
  | chain c =>
    show (∃ k < s'.count _, s'.cell _ k = some c) ↔ ∃ k < s.count _, s.cell _ k = some c
    simp only [count, cell, hread, hqueue]

theorem Same.ok {slot : Nat} {port port' : port_slot} (h : Same s s' port port')
    (hnext : s.next_port ≤ s'.next_port) (hused : ∀ r, s.Owns port r → s'.InUse r)
    (hok : s.PortOk slot port) : s'.PortOk slot port' := by
  have howns := h.owns
  obtain ⟨⟨closed, rfl⟩, hqueue, hread, hwrite⟩ := h
  have hcount : s'.count { port with closed } = s.count port := by simp only [count, hread]
  have hcell : ∀ k, s'.cell { port with closed } k = s.cell port k := by
    intro k
    simp only [cell, hqueue]
  refine ⟨⟨hok.range.1, lt_of_lt_of_le hok.range.2 hnext⟩, hok.slot_eq, hok.tail_lt, ?_, ?_,
    hok.head_total, ?_, ?_, hok.name, hok.sems_ne, ?_, fun r hr => hused r ((howns r).mp hr)⟩
  · rw [hcount]
    exact hok.count_le
  · rw [hcount]
    exact hok.head_eq
  · rw [hcount]
    show (s'.sems port.write_sem).getD 0 + s.count port ≤ port.capacity
    rw [hwrite]
    exact hok.room
  · rw [hcount]
    intro i hi hnot htotal
    show (s'.queues port.msg_queue i).data_cbuf = none
    rw [hqueue]
    exact hok.unused i hi hnot htotal
  · simp only [hcount, hcell]
    exact hok.cells

/-- A step that concerns one slot: the other ports are the same and keep what they own, and the port of
the slot owns what it did or what was not in use. -/
theorem Sound.step_slot (h : s.Sound) (slot : Nat) (hnext : s.next_port ≤ s'.next_port)
    (hfrees : s'.misfreed = s.misfreed)
    (hother : ∀ slot' ≠ slot, s'.Taken slot' → s.Taken slot' ∧
      Same s s' (s.ports slot') (s'.ports slot') ∧
      ∀ r, s.Owns (s.ports slot') r → s'.InUse r)
    (hself : s'.Taken slot → s'.PortOk slot (s'.ports slot) ∧ ∀ r, s'.Owns (s'.ports slot) r →
        (s.Taken slot ∧ s.Owns (s.ports slot) r) ∨ ¬ s.InUse r) : s'.Sound := by
  have hmixed : ∀ slot' r, slot' ≠ slot → s'.Taken slot → s'.Taken slot' →
      s'.Owns (s'.ports slot) r → s'.Owns (s'.ports slot') r → slot = slot' := by
    intro slot' r hne htaken htaken' howns howns'
    obtain ⟨hold, hsame, -⟩ := hother slot' hne htaken'
    have howned := (hsame.owns r).mp howns'
    rcases (hself htaken).2 r howns with ⟨hslot, howner⟩ | hunused
    · exact h.apart slot slot' r hslot hold howner howned
    · exact absurd ((h.ok slot' hold).used r howned) hunused
  refine ⟨le_trans h.next_nonneg hnext, fun slot' htaken => ?_, ?_, hfrees.trans h.frees⟩
  · by_cases hslot : slot' = slot
    · subst hslot
      exact (hself htaken).1
    · obtain ⟨hold, hsame, hused⟩ := hother slot' hslot htaken
      exact hsame.ok hnext hused (h.ok slot' hold)
  · intro slot₁ slot₂ r htaken₁ htaken₂ howns₁ howns₂
    by_cases h₁ : slot₁ = slot
    · subst h₁
      by_cases h₂ : slot₂ = slot₁
      · exact h₂.symm
      · exact hmixed slot₂ r h₂ htaken₁ htaken₂ howns₁ howns₂
    · by_cases h₂ : slot₂ = slot
      · subst h₂
        exact (hmixed slot₁ r h₁ htaken₂ htaken₁ howns₂ howns₁).symm
      · obtain ⟨hold₁, hsame₁, -⟩ := hother slot₁ h₁ htaken₁
        obtain ⟨hold₂, hsame₂, -⟩ := hother slot₂ h₂ htaken₂
        exact h.apart slot₁ slot₂ r hold₁ hold₂ ((hsame₁.owns r).mp howns₁)
          ((hsame₂.owns r).mp howns₂)

theorem setPort_self {slot : Nat} {port : port_slot} : (s.setPort slot port).ports slot = port :=
  update_self ..

theorem setPort_of_ne {slot slot' : Nat} (hne : slot' ≠ slot) (port : port_slot) :
    (s.setPort slot port).ports slot' = s.ports slot' := update_of_ne hne ..

theorem PortOk.setPort {slot slot' : Nat} {port port' : port_slot} (h : s.PortOk slot port) :
    (s.setPort slot' port').PortOk slot port :=
  ⟨h.range, h.slot_eq, h.tail_lt, h.count_le, h.head_eq, h.head_total, h.room, h.unused, h.name,
    h.sems_ne, h.cells, h.used⟩

theorem Sound.set (h : s.Sound) (hports : s'.ports = s.ports) (hnext : s.next_port ≤ s'.next_port)
    (hfrees : s'.misfreed = s.misfreed) {slot : Nat} {port : port_slot}
    (hother : ∀ slot' ≠ slot, s.Taken slot' →
      s'.queues (s.ports slot').msg_queue = s.queues (s.ports slot').msg_queue ∧
      (∀ x, s.Owns (s.ports slot') (.sem x) → s'.sems x = s.sems x) ∧
      ∀ r, s.Owns (s.ports slot') r → s'.InUse r)
    (hself : port.id ≠ -1 → s'.PortOk slot port ∧
      ∀ r, s'.Owns port r → (s.Taken slot ∧ s.Owns (s.ports slot) r) ∨ ¬ s.InUse r) :
    (s'.setPort slot port).Sound := by
  refine h.step_slot slot hnext hfrees ?_ ?_
  · intro slot' hslot' htaken
    rw [Taken, setPort_of_ne hslot', hports] at htaken
    rw [setPort_of_ne hslot', hports]
    obtain ⟨hqueue, hsems, hused⟩ := hother slot' hslot' htaken
    exact ⟨htaken, ⟨⟨_, rfl⟩, congrFun hqueue, hsems _ (.inl rfl), hsems _ (.inr rfl)⟩, hused⟩
  · intro htaken
    rw [Taken, setPort_self] at htaken
    rw [setPort_self]
    exact ⟨(hself htaken).1.setPort, (hself htaken).2⟩

/-- A step that leaves all slots alone. -/
theorem Sound.still (h : s.Sound) (hports : s'.ports = s.ports) (hnext : s'.next_port = s.next_port)
    (hfrees : s'.misfreed = s.misfreed)
    (hqueue : ∀ q, s.blocks q = true → s'.queues q = s.queues q)
    (hsems : ∀ x, s.sems x ≠ none → s'.sems x = s.sems x)
    (hblocks : ∀ p, s.blocks p = true → s'.blocks p = true)
    (hchains : s'.chains = s.chains) : s'.Sound := by
  have hkept : ∀ slot, s.Taken slot → Same s s' (s.ports slot) (s'.ports slot) ∧
      ∀ r, s.Owns (s.ports slot) r → s'.InUse r := by
    intro slot htaken
    have hused := (h.ok slot htaken).used
    refine ⟨⟨⟨(s.ports slot).closed, by rw [hports]⟩, fun i => ?_, ?_, ?_⟩, fun r hr => ?_⟩
    · rw [hqueue _ (hused (.block _) (.inr rfl))]
    · exact hsems _ (hused (.sem _) (.inl rfl))
    · exact hsems _ (hused (.sem _) (.inr rfl))
    · have hr := hused r hr
      cases r with
      | block p => exact hblocks p hr
      | sem x =>
        show s'.sems x ≠ none
        rw [hsems x hr]
        exact hr
      | chain c =>
        show s'.chains c = true
        rw [hchains]
        exact hr
  have htaken : ∀ slot, s'.Taken slot ↔ s.Taken slot := fun slot => by rw [Taken, Taken, hports]
  refine ⟨hnext ▸ h.next_nonneg, fun slot hslot => ?_, fun slot slot' r hslot hslot' hr hr' => ?_,
    hfrees.trans h.frees⟩
  · have hold := (htaken slot).mp hslot
    exact (hkept slot hold).1.ok (le_of_eq hnext.symm) (hkept slot hold).2 (h.ok slot hold)
  · have hold := (htaken slot).mp hslot
    have hold' := (htaken slot').mp hslot'
    exact h.apart slot slot' r hold hold' (((hkept slot hold).1.owns r).mp hr)
      (((hkept slot' hold').1.owns r).mp hr')

/-! ## Memory -/

theorem kfree_of_used {p : Nat} (h : s.blocks p = true) :
    s.kfree p = { s with blocks := update s.blocks p false } := if_pos h

theorem kfree_kfree {p q : Nat} (hp : s.blocks p = true)
    (hq : update s.blocks p false q = true) :
    (s.kfree p).kfree q = { s with blocks := update (update s.blocks p false) q false } := by
  rw [kfree_of_used hp]
  exact kfree_of_used hq

theorem kfree_of_unused {p q : Nat} (hp : s.blocks p = false) (hq : s.blocks q = false) :
    (s.kfree p).kfree q = { s with misfreed := s.misfreed ++ [p, q] } := by
  have hfirst : s.kfree p = { s with misfreed := s.misfreed ++ [p] } :=
    if_neg (Bool.eq_false_iff.mp hp)
  have hsecond : ({ s with misfreed := s.misfreed ++ [p] } : PortTable).kfree q =
      { s with misfreed := s.misfreed ++ [p] ++ [q] } := if_neg (Bool.eq_false_iff.mp hq)
  rw [hfirst, hsecond, append_assoc, singleton_append]

theorem kmalloc_kfree {p : Nat} (h : s.blocks p = false) : (s.kmalloc p).kfree p = s := by
  rw [kfree_of_used (update_self ..)]
  simp only [kmalloc, update_idem, ← h, update_eq_self]

theorem foldl_free : ∀ {l : List Nat} {s : PortTable}, l.Nodup → (∀ c ∈ l, s.chains c = true) →
    l.foldl cbuf_free_chain s =
      { s with chains := fun c => s.chains c && !decide (c ∈ l), freed := s.freed ++ l }
  | [], s, _, _ => by simp
  | c :: l, s, hnodup, hused => by
    obtain ⟨hnot, hnodup⟩ := nodup_cons.mp hnodup
    have hfree : s.cbuf_free_chain c =
        { s with chains := update s.chains c false, freed := s.freed ++ [c] } :=
      if_pos (hused c mem_cons_self)
    rw [foldl_cons, hfree, foldl_free hnodup fun c' hc' => ?_]
    · simp only [append_assoc, singleton_append, PortTable.mk.injEq, true_and, and_true]
      funext c'
      by_cases heq : c' = c
      · subst heq
        simp
      · simp [heq]
    · have hne : c' ≠ c := fun heq => hnot (heq ▸ hc')
      show update s.chains c false c' = true
      rw [update_of_ne hne]
      exact hused c' (mem_cons_of_mem _ hc')

/-! ## The pointers in a queue -/

/-- The entries that have never been written hold no pointer. -/
def Clean (s : PortTable) (port : port_slot) : Prop :=
  ∀ i < port.capacity, port.total_count ≤ i → (s.queues port.msg_queue i).data_cbuf = none

theorem mem_undelivered {port : port_slot} {c : Nat} :
    c ∈ s.undelivered port ↔ s.Owns port (.chain c) := by
  simp only [undelivered, mem_filterMap, mem_range]
  exact Iff.rfl

section

variable {slot : Nat} {port : port_slot} (h : s.PortOk slot port)
include h

theorem PortOk.nodup_undelivered :
    (s.undelivered port).Nodup := by
  refine pairwise_filterMap.mpr (nodup_range.imp_of_mem ?_)
  intro k k' hk hk' hne c hc c' hc' heq
  subst heq
  exact hne (h.cells k (mem_range.mp hk) k' (mem_range.mp hk') c hc hc')

theorem PortOk.stored (hclean : s.Clean port)
    {i c : Nat} (hi : i < port.capacity) (hc : (s.queues port.msg_queue i).data_cbuf = some c) :
    ∃ k < s.count port, i = (port.tail + k) % port.capacity := by
  by_contra hnot
  have hnot' : ∀ k < s.count port, i ≠ (port.tail + k) % port.capacity := fun k hk heq =>
    hnot ⟨k, hk, heq⟩
  by_cases htotal : i < port.total_count
  · cases hc.symm.trans (h.unused i hi hnot' htotal)
  · cases hc.symm.trans (hclean i hi (Nat.le_of_not_lt htotal))

theorem PortOk.pointers_perm
    (hclean : s.Clean port) :
    (s.pointers port.msg_queue port.capacity).Perm (s.undelivered port) := by
  have hpos : 0 < port.capacity := Nat.zero_lt_of_lt h.tail_lt
  refine (perm_ext_iff_of_nodup ?_ h.nodup_undelivered).mpr fun c => ?_
  · refine pairwise_filterMap.mpr (nodup_range.imp_of_mem ?_)
    intro i i' hi hi' hne c hc c' hc' heq
    subst heq
    obtain ⟨k, hk, rfl⟩ := h.stored hclean (mem_range.mp hi) hc
    obtain ⟨k', hk', rfl⟩ := h.stored hclean (mem_range.mp hi') hc'
    exact hne (by rw [h.cells k hk k' hk' c hc hc'])
  · rw [mem_undelivered]
    simp only [pointers, mem_filterMap, mem_range]
    constructor
    · rintro ⟨i, hi, hc⟩
      obtain ⟨k, hk, rfl⟩ := h.stored hclean hi hc
      exact ⟨k, hk, hc⟩
    · rintro ⟨k, hk, hc⟩
      exact ⟨_, Nat.mod_lt _ hpos, hc⟩

end

/-! ## Making a port -/

/-- The port is open and empty, with so many free places. -/
structure Open (s : PortTable) (id : Int) (places : Nat) : Prop where
  id_eq : (s.portOf id).id = id
  closed : (s.portOf id).closed = false
  capacity : (s.portOf id).capacity = places
  ends : (s.portOf id).head = 0 ∧ (s.portOf id).tail = 0
  read : s.sems (s.portOf id).read_sem = some 0
  write : s.sems (s.portOf id).write_sem = some places

theorem freeSlot_spec {slot : Nat} : ∀ {left : Nat}, left ≤ MAX_PORTS →
    s.freeSlot left = some slot → slot < MAX_PORTS ∧ ¬ s.Taken slot
  | 0, _, hfree => absurd hfree nofun
  | left + 1, hleft, hfree => by
    unfold freeSlot at hfree
    split at hfree
    · rename_i hid
      cases hfree
      exact ⟨Nat.sub_lt (Nat.lt_of_lt_of_le (Nat.succ_pos _) hleft) (Nat.succ_pos _),
        not_not.mpr hid⟩
    · exact freeSlot_spec (Nat.le_of_succ_le hleft) hfree

theorem freeSlot_congr (hports : s'.ports = s.ports) : ∀ left, s'.freeSlot left = s.freeSlot left
  | 0 => rfl
  | left + 1 => by rw [freeSlot, freeSlot, hports, freeSlot_congr hports left]

theorem freeSlot_none (h : ∀ slot < MAX_PORTS, s.Taken slot) :
    ∀ {left : Nat}, left ≤ MAX_PORTS → s.freeSlot left = none
  | 0, _ => rfl
  | left + 1, hleft => by
    have htaken := h (MAX_PORTS - (left + 1)) (by omega)
    rw [freeSlot, if_neg htaken]
    exact freeSlot_none h (Nat.le_of_succ_le hleft)

theorem freeSlot_first {slot : Nat} (h : ∀ slot' < slot, s.Taken slot')
    (hfree : (s.ports slot).id = -1) : ∀ {left : Nat}, left ≤ MAX_PORTS → MAX_PORTS - left ≤ slot →
      slot < MAX_PORTS → s.freeSlot left = some slot
  | 0, _, hle, hlt => by omega
  | left + 1, hleft, hle, hlt => by
    rw [freeSlot]
    by_cases heq : MAX_PORTS - (left + 1) = slot
    · rw [heq, if_pos hfree]
    · rw [if_neg (h _ (by omega))]
      exact freeSlot_first h hfree (Nat.le_of_succ_le hleft) (by omega) hlt

/-- The memory and the semaphores of a port that is going to be made. -/
def reserve (s : PortTable) (capacity temp_name q : Nat) (entries : Nat → queue_entry)
    (sem_r sem_w : Nat) : PortTable :=
  ((((s.kmalloc temp_name).kmalloc q).setQueue q entries).setSem sem_r (some 0)).setSem sem_w
    (some capacity)

theorem freeSlot_reserve (capacity temp_name q : Nat) (entries : Nat → queue_entry)
    (sem_r sem_w left : Nat) :
    (s.reserve capacity temp_name q entries sem_r sem_w).freeSlot left = s.freeSlot left := by
  have hports : (s.reserve capacity temp_name q entries sem_r sem_w).ports = s.ports := rfl
  exact freeSlot_congr hports left

theorem portOf_fill {slot : Nat} (capacity temp_name q sem_r sem_w : Nat)
    (hid : toInt (PortSystem.nextId s.next_port slot) = PortSystem.nextId s.next_port slot)
    (hslot : PortSystem.slotOf (PortSystem.nextId s.next_port slot) = slot) :
    (s.fill slot capacity temp_name q sem_r sem_w).portOf
        (toInt (PortSystem.nextId s.next_port slot)) = {
      s.ports slot with
      id := toInt (PortSystem.nextId s.next_port slot)
      capacity
      name := some temp_name
      read_sem := sem_r
      write_sem := sem_w
      msg_queue := q
      head := 0
      tail := 0
      total_count := 0 } := by
  rw [portOf, hid, hslot]
  unfold fill
  rw [setPort_self, hid]

theorem Sound.fill (h : s.Sound) {slot capacity temp_name q sem_r sem_w : Nat}
    {entries : Nat → queue_entry} (hslot : slot < MAX_PORTS)
    (hfits : PortSystem.nextId s.next_port slot + 1 < 2 ^ 31) (hcapacity : 0 < capacity)
    (hname : s.blocks temp_name = false) (hq : s.blocks q = false) (hne : temp_name ≠ q)
    (hread : s.sems sem_r = none) (hwrite : s.sems sem_w = none) (hsems : sem_r ≠ sem_w) :
    ((s.reserve capacity temp_name q entries sem_r sem_w).fill slot capacity temp_name q sem_r
      sem_w).Sound := by
  obtain ⟨hle, hslotOf⟩ := PortSystem.nextId_spec h.next_nonneg hslot
  have hnext := h.next_nonneg
  have hid : toInt (PortSystem.nextId s.next_port slot) = PortSystem.nextId s.next_port slot :=
    toInt_of_range (by omega) (by omega)
  have hid' : toInt (PortSystem.nextId s.next_port slot + 1) =
      PortSystem.nextId s.next_port slot + 1 := toInt_of_range (by omega) (by omega)
  have hfill : (s.reserve capacity temp_name q entries sem_r sem_w).next_port = s.next_port := rfl
  unfold PortTable.fill
  rw [hfill]
  simp only [hid, hid']
  generalize PortSystem.nextId s.next_port slot = id at *
  have hsem : ∀ x, s.sems x ≠ none →
      update (update s.sems sem_r (some 0)) sem_w (some capacity) x = s.sems x := by
    intro x hx
    have hxw : x ≠ sem_w := fun heq => hx (heq ▸ hwrite)
    have hxr : x ≠ sem_r := fun heq => hx (heq ▸ hread)
    rw [update_of_ne hxw, update_of_ne hxr]
  have hblock : ∀ p, s.blocks p = true →
      update (update s.blocks temp_name true) q true p = true := by
    intro p hp
    have hpq : p ≠ q := fun heq => Bool.false_ne_true (hq.symm.trans (heq ▸ hp))
    have hpn : p ≠ temp_name := fun heq => Bool.false_ne_true (hname.symm.trans (heq ▸ hp))
    rw [update_of_ne hpq, update_of_ne hpn]
    exact hp
  have hreadSem : update (update s.sems sem_r (some 0)) sem_w (some capacity)
      sem_r = some 0 := by
    rw [update_of_ne hsems, update_self]
  have hwriteSem : update (update s.sems sem_r (some 0)) sem_w (some capacity)
      sem_w = some capacity := update_self ..
  have hnameBlock : update (update s.blocks temp_name true) q true temp_name = true := by
    rw [update_of_ne hne, update_self]
  have hqBlock : update (update s.blocks temp_name true) q true q = true := update_self ..
  refine @Sound.set s { s.reserve capacity temp_name q entries sem_r sem_w with next_port := id + 1 }
    h rfl (show s.next_port ≤ id + 1 by omega) rfl slot _ ?_ fun _ => ⟨?_, ?_⟩
  · intro slot' hslot' htaken
    have hused := (h.ok slot' htaken).used
    refine ⟨update_of_ne ?_ .., fun x hx => hsem x (hused _ hx), fun r hr => ?_⟩
    · rintro rfl
      cases (hused (.block _) (.inr rfl)).symm.trans hq
    · have hr := hused r hr
      cases r with
      | block p => exact hblock p hr
      | sem x => exact fun hnone => hr ((hsem x hr).symm.trans hnone)
      | chain c => exact hr
  · have hcount : ∀ port : port_slot, port.read_sem = sem_r →
        PortTable.count { s.reserve capacity temp_name q entries sem_r sem_w with
          next_port := id + 1 } port = 0 := by
      rintro port rfl
      exact congrArg (Option.getD · 0) hreadSem
    refine ⟨⟨show 0 ≤ id by omega, show id < id + 1 by omega⟩, hslotOf, hcapacity, ?_, ?_, ?_, ?_, ?_,
      ⟨temp_name, rfl, hne⟩, hsems, ?_, fun r hr => ?_⟩
    · rw [hcount _ rfl]
      exact Nat.zero_le _
    · rw [hcount _ rfl]
      exact (Nat.zero_mod _).symm
    · exact (Nat.zero_mod _).symm
    · rw [hcount _ rfl]
      exact Nat.le_of_eq (congrArg (Option.getD · 0) hwriteSem)
    · exact fun i _ _ hi => absurd hi (Nat.not_lt_zero i)
    · rw [hcount _ rfl]
      exact fun k hk => absurd hk (Nat.not_lt_zero k)
    · cases r with
      | block p =>
        rcases hr with hr | rfl
        · cases hr
          exact hnameBlock
        · exact hqBlock
      | sem x =>
        rcases hr with rfl | rfl
        · exact fun hnone => absurd (hreadSem.symm.trans hnone) nofun
        · exact fun hnone => absurd (hwriteSem.symm.trans hnone) nofun
      | chain c =>
        obtain ⟨k, hk, -⟩ := hr
        rw [hcount _ rfl] at hk
        exact absurd hk (Nat.not_lt_zero k)
  · intro r hr
    refine .inr fun hused => ?_
    cases r with
    | block p =>
      rcases hr with hr | rfl
      · cases hr
        cases hused.symm.trans hname
      · cases hused.symm.trans hq
    | sem x =>
      rcases hr with rfl | rfl
      · exact hused hread
      · exact hused hwrite
    | chain c =>
      obtain ⟨k, hk, -⟩ := hr
      have hzero : k < (some 0 : Option Nat).getD 0 := hreadSem ▸ hk
      exact absurd hzero (Nat.not_lt_zero k)

/-- The call gets as far as to the search for a slot. -/
def Searches (queue_length : Int) (env : CreateEnv) (temp_name q : Nat) (entries : Nat → queue_entry)
    (sem_r sem_w : Nat) : Prop :=
  (1 ≤ queue_length ∧ queue_length ≤ MAX_QUEUE_LENGTH) ∧ env.temp_name = some temp_name ∧
    env.q = some (q, entries) ∧ env.sem_r = .ok sem_r ∧ env.sem_w = .ok sem_w

theorem create_of_searches {queue_length : Int} {env : CreateEnv} {temp_name q : Nat}
    {entries : Nat → queue_entry} {sem_r sem_w : Nat}
    (h : Searches queue_length env temp_name q entries sem_r sem_w) :
    s.create_port queue_length env =
      (s.reserve queue_length.toNat temp_name q entries sem_r sem_w).place queue_length.toNat
        temp_name q sem_r sem_w := by
  obtain ⟨⟨hlow, hhigh⟩, hname, hq, hr, hw⟩ := h
  unfold create_port
  simp only [hname, hq, hr, hw, if_neg (not_lt.mpr hlow), if_neg (not_lt.mpr hhigh)]
  rfl

/-- A call that fails before the search gives back what it has got, but for a name whose length is
refused. -/
theorem Sound.create_fails (h : s.Sound) {queue_length : Int} {env : CreateEnv}
    (hfresh : env.Fresh s)
    (hfails : ∀ temp_name q entries sem_r sem_w,
      ¬ Searches queue_length env temp_name q entries sem_r sem_w) :
    (s.create_port queue_length env).2.Sound ∧ ∀ id, (s.create_port queue_length env).1 ≠ .ok id := by
  unfold create_port
  cases hname : env.temp_name with
  | none => exact ⟨h, fun _ => nofun⟩
  | some temp_name =>
    have hnameFree := hfresh.name temp_name hname
    have hmalloc : (s.kmalloc temp_name).Sound :=
      h.still rfl rfl rfl (fun _ _ => rfl) (fun _ _ => rfl) (fun p hp => by
        show update s.blocks temp_name true p = true
        have hne : p ≠ temp_name := fun heq => Bool.false_ne_true (hnameFree.symm.trans (heq ▸ hp))
        rw [update_of_ne hne]
        exact hp) rfl
    dsimp only
    split
    · exact ⟨hmalloc, fun _ => nofun⟩
    · split
      · exact ⟨hmalloc, fun _ => nofun⟩
      · rename_i hlow hhigh
        cases hq : env.q with
        | none =>
          rw [kmalloc_kfree hnameFree]
          exact ⟨h, fun _ => nofun⟩
        | some q =>
          obtain ⟨q, entries⟩ := q
          obtain ⟨hqFree, hne⟩ := hfresh.queue _ hq
          have hqname : q ≠ temp_name := fun heq => hne (hname.trans (congrArg some heq.symm))
          have hback : ∀ t : PortTable, t.blocks = update
              (update s.blocks temp_name true) q true →
              (t.kfree temp_name).kfree q = { t with blocks := s.blocks } := by
            intro t ht
            have hname' : t.blocks temp_name = true := by
              rw [ht, update_of_ne hqname.symm, update_self]
            have hq' : update t.blocks temp_name false q = true := by
              rw [update_of_ne hqname, ht, update_self]
            rw [kfree_kfree hname' hq']
            have hblocks : update (update t.blocks temp_name false) q false = s.blocks := by
              funext p
              by_cases hpq : p = q
              · rw [hpq, update_self, hqFree]
              · rw [update_of_ne hpq]
                by_cases hpn : p = temp_name
                · rw [hpn, update_self, hnameFree]
                · rw [update_of_ne hpn, ht, update_of_ne hpq, update_of_ne hpn]
            rw [← hblocks]
          have hqueues : ∀ q', s.blocks q' = true → update s.queues q entries q' = s.queues q' := by
            intro q' hq'
            have hne' : q' ≠ q := fun heq => Bool.false_ne_true (hqFree.symm.trans (heq ▸ hq'))
            exact update_of_ne hne' ..
          dsimp only
          cases hr : env.sem_r with
          | error err =>
            rw [hback _ rfl]
            exact ⟨h.still rfl rfl rfl hqueues (fun _ _ => rfl) (fun _ hp => hp) rfl,
              fun _ => nofun⟩
          | ok sem_r =>
            have hrFree := hfresh.sem_r sem_r hr
            cases hw : env.sem_w with
            | error err =>
              dsimp only
              rw [hback _ rfl]
              refine ⟨h.still rfl rfl rfl hqueues (fun x hx => ?_) (fun _ hp => hp) rfl,
                fun _ => nofun⟩
              have hne' : x ≠ sem_r := fun heq => hx (heq ▸ hrFree)
              show update (update s.sems sem_r (some 0)) sem_r none x = _
              rw [update_of_ne hne', update_of_ne hne']
            | ok sem_w =>
              exact absurd ⟨⟨by omega, by omega⟩, hname, hq, hr, hw⟩
                (hfails temp_name q entries sem_r sem_w)

/-- A call that finds a slot makes an open port if the slot is left by an open one. -/
theorem Sound.create (h : s.Sound) {queue_length : Int} {env : CreateEnv} (hfresh : env.Fresh s)
    {temp_name q : Nat} {entries : Nat → queue_entry} {sem_r sem_w slot : Nat}
    (hsearches : Searches queue_length env temp_name q entries sem_r sem_w)
    (hslot : s.freeSlot MAX_PORTS = some slot) (hopen : (s.ports slot).closed = false)
    (hfits : PortSystem.nextId s.next_port slot + 1 < 2 ^ 31) :
    (s.create_port queue_length env).2.Sound ∧ ∃ id, (s.create_port queue_length env).1 = .ok id ∧
      Open (s.create_port queue_length env).2 id queue_length.toNat := by
  have hcreate := create_of_searches (s := s) hsearches
  obtain ⟨⟨hlow, hhigh⟩, hname, hq, hr, hw⟩ := hsearches
  obtain ⟨hlt, -⟩ := freeSlot_spec (Nat.le_refl _) hslot
  obtain ⟨hle, hslotOf⟩ := PortSystem.nextId_spec h.next_nonneg hlt
  have hnext := h.next_nonneg
  have hqFree := hfresh.queue _ hq
  have hwFree := hfresh.sem_w sem_w hw
  have hsems : sem_r ≠ sem_w := fun heq => hwFree.2 (hr.trans (congrArg Except.ok heq))
  have hid : toInt (PortSystem.nextId s.next_port slot) = PortSystem.nextId s.next_port slot :=
    toInt_of_range (by omega) (by omega)
  have hfree := (freeSlot_reserve queue_length.toNat temp_name q entries sem_r sem_w
    MAX_PORTS).trans hslot
  have hport := portOf_fill (s := s.reserve queue_length.toNat temp_name q entries sem_r sem_w)
    queue_length.toNat temp_name q sem_r sem_w hid hslotOf
  simp only [hcreate, place, hfree]
  refine ⟨h.fill hlt hfits (by omega) (hfresh.name _ hname) hqFree.1
    (fun heq => hqFree.2 (hname.trans (congrArg some heq))) (hfresh.sem_r _ hr) hwFree.1 hsems,
    _, rfl, congrArg port_slot.id hport, (congrArg port_slot.closed hport).trans hopen,
    congrArg port_slot.capacity hport,
    ⟨congrArg port_slot.head hport, congrArg port_slot.tail hport⟩, ?_, ?_⟩
  · rw [hport]
    show update (update s.sems sem_r (some 0)) sem_w _ sem_r = some 0
    rw [update_of_ne hsems, update_self]
  · rw [hport]
    exact update_self ..

/-! ## Closing and deleting a port -/

/-- The id is that of the port in its slot. -/
def Live (s : PortTable) (id : Int) : Prop := 0 ≤ id ∧ (s.portOf id).id = id

theorem Live.taken {id : Int} (h : s.Live id) : s.Taken (PortSystem.slotOf id) := by
  intro hfree
  have hid : id = -1 := h.2.symm.trans hfree
  have := h.1
  omega

theorem Sound.apart_live (h : s.Sound) {id : Int} (hlive : s.Live id) (slot' : Nat)
    (hslot' : slot' ≠ PortSystem.slotOf id) (htaken : s.Taken slot') (r : Resource)
    (hr : s.Owns (s.ports slot') r) : ¬ s.Owns (s.portOf id) r := fun hr' =>
  hslot' (h.apart slot' _ r htaken hlive.taken hr hr')

theorem Sound.close (h : s.Sound) (id : Int) : (s.close_port id).Sound := by
  unfold close_port
  split
  · exact h
  · split
    · exact h
    · rename_i hneg hid
      have hlive : s.Live id := ⟨not_lt.mp hneg, not_not.mp hid⟩
      have hok := h.ok _ hlive.taken
      have hsame : Same s s (s.portOf id) { s.portOf id with closed := true } :=
        ⟨⟨true, rfl⟩, fun _ => rfl, rfl, rfl⟩
      refine h.set rfl (le_refl _) rfl (fun slot' _ htaken => ?_) fun _ => ⟨?_, fun r hr => ?_⟩
      · exact ⟨rfl, fun _ _ => rfl, (h.ok slot' htaken).used⟩
      · exact hsame.ok (le_refl _) hok.used hok
      · exact .inl ⟨hlive.taken, (hsame.owns r).mp hr⟩

/-- What is left of the memory when a port is deleted. -/
def release (s : PortTable) (port : port_slot) (temp_name : Nat) : PortTable :=
  { s with
    sems := update (update s.sems port.read_sem none) port.write_sem none
    blocks := update (update s.blocks port.msg_queue false) temp_name false
    chains := fun c => s.chains c && !decide (c ∈ s.pointers port.msg_queue port.capacity)
    freed := s.freed ++ s.pointers port.msg_queue port.capacity }

section

variable (h : s.Sound) {id : Int} (hlive : s.Live id) (hclean : s.Clean (s.portOf id))
include h hlive hclean

theorem Sound.delete_eq :
    ∃ temp_name, (s.portOf id).name = some temp_name ∧
      s.delete_port id = (s.release (s.portOf id) temp_name).setPort (PortSystem.slotOf id)
        { s.portOf id with id := -1, name := none } := by
  have hok : s.PortOk (PortSystem.slotOf id) (s.portOf id) := h.ok _ hlive.taken
  have hperm := hok.pointers_perm hclean
  obtain ⟨temp_name, hname, hne⟩ := hok.name
  refine ⟨temp_name, hname, ?_⟩
  have hchains : ∀ c ∈ s.pointers (s.portOf id).msg_queue (s.portOf id).capacity,
      s.chains c = true := fun c hc => hok.used (.chain c) (mem_undelivered.mp (hperm.subset hc))
  have hnodup : (s.pointers (s.portOf id).msg_queue (s.portOf id).capacity).Nodup :=
    hperm.nodup_iff.mpr hok.nodup_undelivered
  have hq : s.blocks (s.portOf id).msg_queue = true := hok.used (.block _) (.inr rfl)
  have hn : update s.blocks (s.portOf id).msg_queue false temp_name = true := by
    rw [update_of_ne hne]
    exact hok.used (.block _) (.inl hname)
  unfold delete_port
  rw [if_neg (not_lt.mpr hlive.1), if_neg (not_not.mpr hlive.2)]
  dsimp only
  generalize hset : s.setPort (PortSystem.slotOf id) { s.portOf id with id := -1, name := none } = t
  have hfold : (t.pointers (s.portOf id).msg_queue (s.portOf id).capacity).foldl cbuf_free_chain t =
      { t with
        chains := fun c => s.chains c && !decide
          (c ∈ s.pointers (s.portOf id).msg_queue (s.portOf id).capacity)
        freed := s.freed ++ s.pointers (s.portOf id).msg_queue (s.portOf id).capacity } := by
    subst hset
    exact foldl_free hnodup hchains
  simp only [hfold, hname, map_some, getD_some]
  subst hset
  rw [kfree_kfree (by exact hq) (by exact hn)]
  rfl

theorem Sound.delete :
    (s.delete_port id).Sound := by
  obtain ⟨temp_name, hname, heq⟩ := h.delete_eq hlive hclean
  have hok := h.ok _ hlive.taken
  rw [heq]
  refine @Sound.set s (s.release (s.portOf id) temp_name) h rfl (le_refl _) rfl _ _
    (fun slot' hslot' htaken => ?_) fun hid => absurd rfl hid
  have hfar := h.apart_live hlive slot' hslot' htaken
  have hsems : ∀ x, s.Owns (s.ports slot') (.sem x) →
      (s.release (s.portOf id) temp_name).sems x = s.sems x := by
    intro x hx
    have hread : x ≠ (s.portOf id).read_sem := fun heq => hfar _ hx (.inl heq.symm)
    have hwrite : x ≠ (s.portOf id).write_sem := fun heq => hfar _ hx (.inr heq.symm)
    show update (update s.sems _ none) _ none x = s.sems x
    rw [update_of_ne hwrite, update_of_ne hread]
  refine ⟨rfl, hsems, fun r hr => ?_⟩
  have hused := (h.ok slot' htaken).used r hr
  cases r with
  | block p =>
    have hq : p ≠ (s.portOf id).msg_queue := fun heq => hfar _ hr (.inr heq.symm)
    have hn : p ≠ temp_name := fun heq => hfar _ hr (.inl (heq ▸ hname))
    show update (update s.blocks _ false) _ false p = true
    rw [update_of_ne hn, update_of_ne hq]
    exact hused
  | sem x =>
    show (s.release (s.portOf id) temp_name).sems x ≠ none
    rw [hsems x hr]
    exact hused
  | chain c =>
    have hnot : c ∉ s.pointers (s.portOf id).msg_queue (s.portOf id).capacity := fun hc =>
      hfar _ hr (mem_undelivered.mp ((hok.pointers_perm hclean).subset hc))
    show (s.chains c && !decide (c ∈ s.pointers _ _)) = true
    rw [decide_eq_false hnot]
    exact (Bool.and_true _).trans hused

theorem Sound.delete_frees :
    ∃ l, (s.delete_port id).freed = s.freed ++ l ∧ l.Perm (s.undelivered (s.portOf id)) ∧
      l.Nodup ∧ (s.delete_port id).misfreed = s.misfreed := by
  obtain ⟨temp_name, -, heq⟩ := h.delete_eq hlive hclean
  have hok := h.ok _ hlive.taken
  have hperm := hok.pointers_perm hclean
  refine ⟨_, ?_, hperm, hperm.nodup_iff.mpr hok.nodup_undelivered, ?_⟩
  · rw [heq]
    rfl
  · rw [heq]
    rfl

end

/-! ## Writing and reading -/

/-- A unit of the write semaphore is taken. -/
theorem Sound.wait_write (h : s.Sound) {slot n : Nat} (htaken : s.Taken slot)
    (hsem : s.sems (s.ports slot).write_sem = some (n + 1)) :
    (s.setSem (s.ports slot).write_sem (some n)).Sound ∧
      n + (s.setSem (s.ports slot).write_sem (some n)).count (s.ports slot) <
        (s.ports slot).capacity := by
  have hok := h.ok slot htaken
  have hread : update s.sems (s.ports slot).write_sem (some n) (s.ports slot).read_sem =
      s.sems (s.ports slot).read_sem := update_of_ne hok.sems_ne ..
  have hcount : ∀ port : port_slot, port.read_sem = (s.ports slot).read_sem →
      (s.setSem (s.ports slot).write_sem (some n)).count port = s.count (s.ports slot) := by
    intro port hport
    show (update s.sems _ _ port.read_sem).getD 0 = (s.sems _).getD 0
    rw [hport, hread]
  have hwrite : update s.sems (s.ports slot).write_sem (some n)
      (s.ports slot).write_sem = some n := update_self ..
  have hroom : n + 1 + s.count (s.ports slot) ≤ (s.ports slot).capacity := by
    have hroom := hok.room
    rw [hsem] at hroom
    exact hroom
  have hused : ∀ r, s.InUse r → (s.setSem (s.ports slot).write_sem (some n)).InUse r := by
    intro r hr
    cases r with
    | block p | chain c => exact hr
    | sem x =>
      show update s.sems _ _ x ≠ none
      by_cases heq : x = (s.ports slot).write_sem
      · rw [heq, hwrite]
        exact nofun
      · rw [update_of_ne heq]
        exact hr
  have hown : ∀ r, (s.setSem (s.ports slot).write_sem (some n)).Owns (s.ports slot) r →
      s.Owns (s.ports slot) r := by
    intro r hr
    cases r with
    | block p | sem x => exact hr
    | chain c =>
      obtain ⟨k, hk, hc⟩ := hr
      rw [hcount _ rfl] at hk
      exact ⟨k, hk, hc⟩
  refine ⟨?_, ?_⟩
  · have hkept : (s.setSem (s.ports slot).write_sem (some n)).setPort slot (s.ports slot) =
        s.setSem (s.ports slot).write_sem (some n) := by
      unfold setPort
      congr 1
      exact update_eq_self ..
    rw [← hkept]
    refine @Sound.set s (s.setSem (s.ports slot).write_sem (some n)) h rfl (le_refl _) rfl _ _
      (fun slot' hslot' htaken' => ?_) fun _ => ⟨?_, ?_⟩
    · refine ⟨rfl, fun x hx => update_of_ne ?_ .., fun r hr => ?_⟩
      · rintro rfl
        exact hslot' (h.apart slot' slot _ htaken' htaken hx (.inr rfl))
      · exact hused r ((h.ok slot' htaken').used r hr)
    · refine ⟨hok.range, hok.slot_eq, hok.tail_lt, ?_, ?_, hok.head_total, ?_, ?_, hok.name,
        hok.sems_ne, ?_, fun r hr => ?_⟩
      · rw [hcount _ rfl]
        exact hok.count_le
      · rw [hcount _ rfl]
        exact hok.head_eq
      · rw [hcount _ rfl]
        show (update s.sems _ _ _).getD 0 + _ ≤ _
        rw [hwrite]
        exact Nat.le_trans (Nat.add_le_add_right (Nat.le_succ n) _) hroom
      · rw [hcount _ rfl]
        exact hok.unused
      · rw [hcount _ rfl]
        exact hok.cells
      · exact hused r (hok.used r (hown r hr))
    · exact fun r hr => .inl ⟨htaken, hown r hr⟩
  · rw [hcount _ rfl]
    omega

theorem PortOk.read_eq {slot : Nat} {port : port_slot} (h : s.PortOk slot port) :
    s.sems port.read_sem = some (s.count port) := by
  cases hsem : s.sems port.read_sem with
  | none => exact absurd hsem (h.used (.sem _) (.inl rfl))
  | some n => rw [count, hsem, getD_some]

/-- A message is put behind the last one. -/
theorem Sound.store (h : s.Sound) {id : Int} (hlive : s.Live id) {entry : queue_entry}
    {chains : Nat → Bool}
    (hroom : (s.sems (s.portOf id).write_sem).getD 0 + s.count (s.portOf id) <
      (s.portOf id).capacity)
    (hkept : ∀ c, s.chains c = true → chains c = true)
    (hfresh : ∀ c ∈ entry.data_cbuf, s.chains c = false ∧ chains c = true) :
    ∃ s', PortTable.store { s with chains } id entry = some s' ∧ s'.Sound := by
  have hok : s.PortOk (PortSystem.slotOf id) (s.portOf id) := h.ok _ hlive.taken
  have hfar := h.apart_live hlive
  have hread := hok.read_eq
  generalize hport : s.portOf id = port at *
  generalize hn : s.count port = n at *
  have hlt : port.head < port.capacity := by
    rw [hok.head_eq]
    exact Nat.mod_lt _ (Nat.zero_lt_of_lt hok.tail_lt)
  have hhead : port.head = (port.tail + n) % port.capacity := hn ▸ hok.head_eq
  generalize ht : ({ s with
      chains
      queues := update s.queues port.msg_queue
        (update (s.queues port.msg_queue) port.head entry)
      sems := update s.sems port.read_sem (some (n + 1)) } : PortTable) = t
  generalize hport' : ({ port with
      head := (port.head + 1) % port.capacity
      total_count := port.total_count + 1 } : port_slot) = port'
  have hstored : PortTable.store { s with chains } id entry =
      some (t.setPort (PortSystem.slotOf id) port') := by
    have hportOf : PortTable.portOf { s with chains } id = port := hport
    unfold PortTable.store
    rw [hportOf, if_neg (Nat.not_le.mpr hlt)]
    subst ht hport'
    show some ({ s with
      chains
      ports := update s.ports (PortSystem.slotOf id) _
      queues := update s.queues port.msg_queue _
      sems := update s.sems port.read_sem ((s.sems port.read_sem).map (· + 1)) } :
        PortTable) = _
    rw [hread]
    rfl
  refine ⟨_, hstored, ?_⟩
  have hsemRead : t.sems port.read_sem = some (n + 1) := by
    subst ht
    exact update_self ..
  have hsemOther : ∀ x ≠ port.read_sem, t.sems x = s.sems x := by
    subst ht
    exact fun x hx => update_of_ne hx ..
  have hqueueOther : ∀ q ≠ port.msg_queue, t.queues q = s.queues q := by
    subst ht
    exact fun q hq => update_of_ne hq ..
  have hentry : t.queues port.msg_queue port.head = entry := by
    subst ht
    show update s.queues _ _ _ _ = entry
    rw [update_self, update_self]
  have hentries : ∀ i ≠ port.head, t.queues port.msg_queue i = s.queues port.msg_queue i := by
    subst ht
    intro i hi
    show update s.queues _ _ _ _ = _
    rw [update_self, update_of_ne hi]
  have hcount : t.count port' = n + 1 := by
    subst hport'
    show (t.sems port.read_sem).getD 0 = n + 1
    rw [hsemRead, getD_some]
  have hroom' : n + 1 ≤ port.capacity := by omega
  have hcellOld : ∀ k < n, t.cell port' k = s.cell port k := by
    intro k hk
    have hne : (port.tail + k) % port.capacity ≠ port.head := by
      rw [hhead]
      exact mod_ne_of_lt (by omega) (by omega)
    subst hport'
    show (t.queues port.msg_queue ((port.tail + k) % port.capacity)).data_cbuf = _
    rw [hentries _ hne]
    rfl
  have hcellNew : t.cell port' n = entry.data_cbuf := by
    subst hport'
    show (t.queues port.msg_queue ((port.tail + n) % port.capacity)).data_cbuf = _
    rw [← hhead, hentry]
  have hchains : t.chains = chains := by
    subst ht
    rfl
  have hcell : ∀ k < n + 1, ∀ c, t.cell port' k = some c →
      (k < n ∧ s.cell port k = some c) ∨ (k = n ∧ s.chains c = false ∧ chains c = true) := by
    intro k hk c hc
    rcases Nat.lt_succ_iff_lt_or_eq.mp hk with hk | rfl
    · exact .inl ⟨hk, (hcellOld k hk).symm.trans hc⟩
    · exact .inr ⟨rfl, hfresh c (hcellNew.symm.trans hc)⟩
  have hheld : ∀ k < n, ∀ c, s.cell port k = some c → s.chains c = true := fun k hk c hc =>
    hok.used (.chain c) ⟨k, hn.symm ▸ hk, hc⟩
  have hused : ∀ r, s.InUse r → t.InUse r := by
    intro r hr
    cases r with
    | block p =>
      subst ht
      exact hr
    | sem x =>
      by_cases hx : x = port.read_sem
      · show t.sems x ≠ none
        rw [hx, hsemRead]
        exact nofun
      · show t.sems x ≠ none
        rw [hsemOther x hx]
        exact hr
    | chain c =>
      show t.chains c = true
      rw [hchains]
      exact hkept c hr
  have howns : ∀ r, t.Owns port' r → s.Owns port r ∨
      ∃ c, r = .chain c ∧ s.chains c = false ∧ chains c = true := by
    intro r hr
    cases r with
    | block p | sem x =>
      subst hport'
      exact .inl hr
    | chain c =>
      obtain ⟨k, hk, hc⟩ := hr
      rw [hcount] at hk
      rcases hcell k hk c hc with ⟨hk, hc⟩ | ⟨-, hfree⟩
      · exact .inl ⟨k, hn.symm ▸ hk, hc⟩
      · exact .inr ⟨c, rfl, hfree⟩
  subst hport'
  have hslot : s.ports (PortSystem.slotOf id) = port := hport
  refine @Sound.set s t h (ht ▸ rfl) (ht ▸ le_refl _) (ht ▸ rfl) _ _
    (fun slot' hslot' htaken => ?_) fun _ => ⟨?_, fun r hr => ?_⟩
  · refine ⟨hqueueOther _ ?_, fun x hx => hsemOther x ?_, fun r hr => ?_⟩
    · exact fun heq => hfar slot' hslot' htaken (.block _) (.inr rfl) (.inr heq.symm)
    · exact fun heq => hfar slot' hslot' htaken _ hx (.inl heq.symm)
    · exact hused r ((h.ok slot' htaken).used r hr)
  · refine ⟨?_, ?_, ?_, ?_, ?_, ?_, ?_, ?_, ?_, ?_, ?_, fun r hr => ?_⟩
    · subst ht
      exact hok.range
    · exact hok.slot_eq
    · exact hok.tail_lt
    · rw [hcount]
      exact hroom'
    · rw [hcount]
      show (port.head + 1) % port.capacity = (port.tail + (n + 1)) % port.capacity
      rw [hhead, Nat.mod_add_mod, Nat.add_assoc]
    · show (port.head + 1) % port.capacity = (port.total_count + 1) % port.capacity
      rw [hok.head_total, Nat.mod_add_mod]
    · rw [hcount]
      show (t.sems port.write_sem).getD 0 + (n + 1) ≤ port.capacity
      rw [hsemOther _ hok.sems_ne.symm]
      omega
    · rw [hcount]
      intro i hi hnot htotal
      have hne : i ≠ port.head := hhead ▸ hnot n (Nat.lt_succ_self n)
      show (t.queues port.msg_queue i).data_cbuf = none
      rw [hentries i hne]
      refine hok.unused i hi (fun k hk => hnot k (by omega)) ?_
      rcases Nat.lt_succ_iff_lt_or_eq.mp htotal with htotal | htotal
      · exact htotal
      · refine absurd ?_ hne
        rw [hok.head_total, ← htotal, Nat.mod_eq_of_lt hi]
    · exact hok.name
    · exact hok.sems_ne
    · rw [hcount]
      intro k hk k' hk' c hc hc'
      rcases hcell k hk c hc with ⟨hk, hc⟩ | ⟨rfl, hfree⟩
      · rcases hcell k' hk' c hc' with ⟨hk', hc'⟩ | ⟨rfl, hfree'⟩
        · exact hok.cells k (hn.symm ▸ hk) k' (hn.symm ▸ hk') c hc hc'
        · cases (hheld k hk c hc).symm.trans hfree'.1
      · rcases hcell k' hk' c hc' with ⟨hk', hc'⟩ | ⟨rfl, -⟩
        · cases (hheld k' hk' c hc').symm.trans hfree.1
        · rfl
    · rcases howns r hr with hold | ⟨c, rfl, hfree⟩
      · exact hused r (hok.used r hold)
      · show t.chains c = true
        rw [hchains]
        exact hfree.2
  · rcases howns r hr with hold | ⟨c, rfl, hfree⟩
    · exact .inl ⟨hlive.taken, hslot.symm ▸ hold⟩
    · exact .inr fun hc => absurd (hc.symm.trans hfree.1) nofun

/-- The first message is taken. -/
theorem Sound.read (h : s.Sound) {id : Int} (hlive : s.Live id) {n : Nat}
    (hsem : s.sems (s.portOf id).read_sem = some (n + 1)) :
    ∃ s', (s.setSem (s.portOf id).read_sem (some n)).taken id = some s' ∧ s'.Sound := by
  have hok : s.PortOk (PortSystem.slotOf id) (s.portOf id) := h.ok _ hlive.taken
  have hfar := h.apart_live hlive
  generalize hport : s.portOf id = port at *
  have hn : s.count port = n + 1 := by rw [count, hsem, getD_some]
  have hroom := hok.room
  have hcapacity := hok.count_le
  rw [hn] at hroom hcapacity
  have hwriteSem : ∃ w, s.sems port.write_sem = some w :=
    ne_none_iff_exists'.mp (hok.used (.sem _) (.inr rfl))
  obtain ⟨w, hwriteSem⟩ := hwriteSem
  rw [hwriteSem, getD_some] at hroom
  have hfirst : (s.queues port.msg_queue port.tail).data_cbuf = s.cell port 0 := by
    rw [cell, Nat.add_zero, Nat.mod_eq_of_lt hok.tail_lt]
  generalize hc₀ : s.cell port 0 = first at *
  have hheld : ∀ k < n + 1, ∀ c, s.cell port k = some c → s.chains c = true := fun k hk c hc =>
    hok.used (.chain c) ⟨k, hn.symm ▸ hk, hc⟩
  generalize ht : ({ s with
      queues := update s.queues port.msg_queue (update (s.queues port.msg_queue)
        port.tail { s.queues port.msg_queue port.tail with data_cbuf := none })
      sems := update (update s.sems port.read_sem (some n)) port.write_sem
        (some (w + 1))
      chains := fun c => s.chains c && !decide (first = some c)
      freed := s.freed ++ first.toList } : PortTable) = t
  generalize hport' : ({ port with tail := (port.tail + 1) % port.capacity } : port_slot) = port'
  have htaken : (s.setSem port.read_sem (some n)).taken id =
      some (t.setPort (PortSystem.slotOf id) port') := by
    have hportOf : (s.setSem port.read_sem (some n)).portOf id = port := hport
    have hentry : (s.setSem port.read_sem (some n)).queues = s.queues := rfl
    have hwrite : update s.sems port.read_sem (some n) port.write_sem = some w := by
      rw [update_of_ne hok.sems_ne.symm]
      exact hwriteSem
    unfold taken
    rw [hportOf, if_neg (Nat.not_lt.mpr (Nat.le_of_lt hok.tail_lt)), hentry]
    dsimp only
    rw [hfirst]
    subst ht hport'
    cases hfirst' : first with
    | none =>
      show some ({ s with
        ports := update s.ports (PortSystem.slotOf id) _
        queues := update s.queues port.msg_queue _
        sems := update _ port.write_sem
          ((update s.sems port.read_sem (some n) port.write_sem).map (· + 1)) } :
          PortTable) = _
      have hchains : (fun c => s.chains c && !decide ((none : Option Nat) = some c)) = s.chains := by
        funext c
        simp
      rw [hwrite, hchains, toList_none, append_nil]
      rfl
    | some c =>
      have hheld₀ : s.chains c = true := hheld 0 (Nat.succ_pos n) c (hc₀.trans hfirst')
      simp only [map_some, getD_some]
      rw [cbuf_free_chain, if_pos (by exact hheld₀)]
      show some ({ s with
        ports := update s.ports (PortSystem.slotOf id) _
        queues := update s.queues port.msg_queue _
        sems := update _ port.write_sem
          ((update s.sems port.read_sem (some n) port.write_sem).map (· + 1))
        chains := update s.chains c false
        freed := s.freed ++ [c] } : PortTable) = _
      rw [hwrite]
      have hchains : update s.chains c false =
          fun c' => s.chains c' && !decide (some c = some c') := by
        funext c'
        by_cases heq : c' = c
        · subst heq
          simp
        · have heq' : ¬ c = c' := fun h => heq h.symm
          simp [heq, heq']
      rw [hchains]
      rfl
  refine ⟨_, htaken, ?_⟩
  have hsemRead : t.sems port.read_sem = some n := by
    subst ht
    show update (update s.sems _ _) _ _ _ = _
    rw [update_of_ne hok.sems_ne, update_self]
  have hsemWrite : t.sems port.write_sem = some (w + 1) := by
    subst ht
    exact update_self ..
  have hsemOther : ∀ x, x ≠ port.read_sem → x ≠ port.write_sem → t.sems x = s.sems x := by
    subst ht
    intro x hr hw
    show update (update s.sems _ _) _ _ _ = _
    rw [update_of_ne hw, update_of_ne hr]
  have hqueueOther : ∀ q ≠ port.msg_queue, t.queues q = s.queues q := by
    subst ht
    exact fun q hq => update_of_ne hq ..
  have hentry : (t.queues port.msg_queue port.tail).data_cbuf = none := by
    subst ht
    show (update s.queues _ _ _ _).data_cbuf = none
    rw [update_self, update_self]
  have hentries : ∀ i ≠ port.tail, t.queues port.msg_queue i = s.queues port.msg_queue i := by
    subst ht
    intro i hi
    show update s.queues _ _ _ _ = _
    rw [update_self, update_of_ne hi]
  have hcount : t.count port' = n := by
    subst hport'
    show (t.sems port.read_sem).getD 0 = n
    rw [hsemRead, getD_some]
  have hshift : ∀ k, (port'.tail + k) % port.capacity = (port.tail + (k + 1)) % port.capacity := by
    subst hport'
    intro k
    show ((port.tail + 1) % port.capacity + k) % port.capacity = _
    rw [Nat.mod_add_mod, Nat.add_assoc, Nat.add_comm 1 k]
  have htail : ∀ k < n, (port.tail + (k + 1)) % port.capacity ≠ port.tail := by
    intro k hk
    rw [← Nat.mod_eq_of_lt hok.tail_lt, Nat.mod_add_mod]
    exact (mod_ne_of_lt (by omega) (by omega)).symm
  have hcell : ∀ k < n, t.cell port' k = s.cell port (k + 1) := by
    intro k hk
    have hqueue : port'.msg_queue = port.msg_queue ∧ port'.capacity = port.capacity := by
      subst hport'
      exact ⟨rfl, rfl⟩
    rw [cell, cell, hqueue.1, hqueue.2, hshift, hentries _ (htail k hk)]
  have hchains : ∀ c, first ≠ some c → s.chains c = true → t.chains c = true := by
    subst ht
    intro c hne hc
    show (s.chains c && !decide (first = some c)) = true
    rw [decide_eq_false hne, hc]
    rfl
  have howns : ∀ r, t.Owns port' r → s.Owns port r := by
    intro r hr
    cases r with
    | block p | sem x =>
      subst hport'
      exact hr
    | chain c =>
      obtain ⟨k, hk, hc⟩ := hr
      rw [hcount] at hk
      rw [hcell k hk] at hc
      exact ⟨k + 1, hn.symm ▸ Nat.succ_lt_succ hk, hc⟩
  have hused : ∀ r, s.InUse r → (∀ c, r = .chain c → first ≠ some c) → t.InUse r := by
    intro r hr hne
    cases r with
    | block p =>
      subst ht
      exact hr
    | sem x =>
      show t.sems x ≠ none
      by_cases hx : x = port.read_sem
      · rw [hx, hsemRead]
        exact nofun
      · by_cases hx' : x = port.write_sem
        · rw [hx', hsemWrite]
          exact nofun
        · rw [hsemOther x hx hx']
          exact hr
    | chain c => exact hchains c (hne c rfl) hr
  subst hport'
  have hslot : s.ports (PortSystem.slotOf id) = port := hport
  refine @Sound.set s t h (ht ▸ rfl) (ht ▸ le_refl _) (ht ▸ rfl) _ _
    (fun slot' hslot' hslotTaken => ?_) fun _ => ⟨?_, fun r hr => ?_⟩
  · refine ⟨hqueueOther _ ?_, fun x hx => hsemOther x ?_ ?_, fun r hr => ?_⟩
    · exact fun heq => hfar slot' hslot' hslotTaken (.block _) (.inr rfl) (.inr heq.symm)
    · exact fun heq => hfar slot' hslot' hslotTaken _ hx (.inl heq.symm)
    · exact fun heq => hfar slot' hslot' hslotTaken _ hx (.inr heq.symm)
    · refine hused r ((h.ok slot' hslotTaken).used r hr) ?_
      rintro c rfl heq
      exact hfar slot' hslot' hslotTaken _ hr ⟨0, hn.symm ▸ Nat.succ_pos n, hc₀.trans heq⟩
  · refine ⟨?_, ?_, ?_, ?_, ?_, ?_, ?_, ?_, ?_, ?_, ?_, fun r hr => ?_⟩
    · subst ht
      exact hok.range
    · exact hok.slot_eq
    · exact Nat.mod_lt _ (Nat.zero_lt_of_lt hok.tail_lt)
    · rw [hcount]
      exact Nat.le_of_succ_le hcapacity
    · rw [hcount, hshift]
      exact hn ▸ hok.head_eq
    · exact hok.head_total
    · rw [hcount]
      show (t.sems port.write_sem).getD 0 + n ≤ port.capacity
      rw [hsemWrite, getD_some]
      omega
    · rw [hcount]
      intro i hi hnot htotal
      show (t.queues port.msg_queue i).data_cbuf = none
      by_cases heq : i = port.tail
      · rw [heq]
        exact hentry
      · rw [hentries i heq]
        refine hok.unused i hi (fun k hk => ?_) htotal
        cases k with
        | zero =>
          rw [Nat.add_zero, Nat.mod_eq_of_lt hok.tail_lt]
          exact heq
        | succ k => exact fun heq' => hnot k (by omega) (heq'.trans (hshift k).symm)
    · exact hok.name
    · exact hok.sems_ne
    · rw [hcount]
      intro k hk k' hk' c hc hc'
      rw [hcell k hk] at hc
      rw [hcell k' hk'] at hc'
      exact Nat.succ.inj (hok.cells (k + 1) (by omega) (k' + 1) (by omega) c hc hc')
    · refine hused r (hok.used r (howns r hr)) ?_
      rintro c rfl heq
      obtain ⟨k, hk, hc⟩ := hr
      rw [hcount] at hk
      rw [hcell k hk] at hc
      cases hok.cells (k + 1) (by omega) 0 (by omega) c hc (hc₀.trans heq)
  · exact .inl ⟨hlive.taken, hslot.symm ▸ howns r hr⟩

/-! ## Every history -/

/-- A new port gets a slot, which no closed port has left, and an id that fits; and a queue that is
walked holds no pointer in the entries that have never been written. -/
def Safe (s : PortTable) : TableCall → Prop
  | .create_port queue_length env =>
    (∃ temp_name q entries sem_r sem_w, Searches queue_length env temp_name q entries sem_r sem_w) →
    ∃ slot, s.freeSlot MAX_PORTS = some slot ∧ (s.ports slot).closed = false ∧
      PortSystem.nextId s.next_port slot + 1 < 2 ^ 31
  | .delete_port id => s.Live id → s.Clean (s.portOf id)
  | _ => True

/-- What a call on the slots does: a new port is open and empty, and what is given back is the memory of
the port, each buffer once. -/
def Reuses (s : PortTable) : TableCall → Prop
  | .create_port queue_length env =>
    (s.create_port queue_length env).2.misfreed = [] ∧
      ∀ id, (s.create_port queue_length env).1 = .ok id →
        Open (s.create_port queue_length env).2 id queue_length.toNat
  | .delete_port id =>
    s.Live id →
      ∃ l, (s.delete_port id).freed = s.freed ++ l ∧ l.Perm (s.undelivered (s.portOf id)) ∧
        l.Nodup ∧ (s.delete_port id).misfreed = []
  | _ => s.misfreed = []

theorem init_sound (h : s.Init) : s.Sound :=
  ⟨le_of_eq h.2.1.symm, fun slot htaken => absurd (h.1 slot).1 htaken,
    fun slot _ _ htaken => absurd (h.1 slot).1 htaken, h.2.2⟩

theorem Sound.create_reuses (h : s.Sound) {queue_length : Int} {env : CreateEnv}
    (hfresh : env.Fresh s) (hsafe : s.Safe (.create_port queue_length env)) :
    (s.create_port queue_length env).2.Sound ∧ ∀ id, (s.create_port queue_length env).1 = .ok id →
      Open (s.create_port queue_length env).2 id queue_length.toNat := by
  by_cases hsearches : ∃ temp_name q entries sem_r sem_w,
      Searches queue_length env temp_name q entries sem_r sem_w
  · obtain ⟨slot, hslot, hopen, hfits⟩ := hsafe hsearches
    obtain ⟨temp_name, q, entries, sem_r, sem_w, hsearches⟩ := hsearches
    obtain ⟨hsound, id, hid, hnew⟩ := h.create hfresh hsearches hslot hopen hfits
    refine ⟨hsound, fun id' hid' => ?_⟩
    cases hid.symm.trans hid'
    exact hnew
  · obtain ⟨hsound, hfails⟩ := h.create_fails hfresh fun temp_name q entries sem_r sem_w hs =>
      hsearches ⟨temp_name, q, entries, sem_r, sem_w, hs⟩
    exact ⟨hsound, fun id hid => absurd hid (hfails id)⟩

theorem delete_of_not_live {id : Int} (h : ¬ s.Live id) : s.delete_port id = s := by
  unfold delete_port
  split
  · rfl
  · rename_i hneg
    exact if_pos fun heq => h ⟨not_lt.mp hneg, heq⟩

theorem Enters.cases {id : Int} {sem : port_slot → Nat} {res : Acquired}
    {next : PortTable → Option PortTable} (h : s.Enters id sem res next s') :
    s' = s ∨ (s.Live id ∧ ∃ count, s.sems (sem (s.portOf id)) = some (count + 1) ∧
      next (s.setSem (sem (s.portOf id)) (some count)) = some s') := by
  unfold Enters at h
  split at h
  · exact .inl h
  · rename_i hlive
    obtain ⟨hneg, hid⟩ := not_or.mp hlive
    obtain ⟨s₁, hwaits, hnext⟩ := h
    cases res with
    | B_NO_ERROR =>
      obtain ⟨count, hcount, rfl⟩ := hwaits
      exact .inr ⟨⟨not_lt.mp hneg, not_not.mp hid⟩, count, hcount, hnext⟩
    | _ => exact .inl (hnext.trans hwaits)

theorem Sound.write (h : s.Sound) {id msg_code : Int} {buffer_size : Nat} {chain : Option Nat}
    (hfresh : ∀ c ∈ chain, s.chains c = false) (hlive : s.Live id) {n : Nat}
    (hsem : s.sems (s.portOf id).write_sem = some (n + 1))
    (hs' : (s.setSem (s.portOf id).write_sem (some n)).written id msg_code buffer_size chain =
      some s') : s'.Sound := by
  have hwait : (s.setSem (s.portOf id).write_sem (some n)).Sound ∧
      n + (s.setSem (s.portOf id).write_sem (some n)).count (s.portOf id) <
        (s.portOf id).capacity := h.wait_write hlive.taken hsem
  obtain ⟨hwait, hroom⟩ := hwait
  generalize ht : s.setSem (s.portOf id).write_sem (some n) = t at *
  have hport : t.portOf id = s.portOf id := by
    subst ht
    rfl
  have hlive' : t.Live id := ⟨hlive.1, hport ▸ hlive.2⟩
  have hroom' : (t.sems (t.portOf id).write_sem).getD 0 + t.count (t.portOf id) <
      (t.portOf id).capacity := by
    rw [hport]
    subst ht
    show (update s.sems _ _ _).getD 0 + _ < _
    rw [update_self]
    exact hroom
  have hchains : t.chains = s.chains := by
    subst ht
    rfl
  unfold written at hs'
  split at hs'
  · cases chain with
    | none =>
      cases hs'
      exact hwait
    | some c =>
      have hfree : t.chains c = false := hchains ▸ hfresh c rfl
      have hkept : ∀ c', t.chains c' = true → update t.chains c true c' = true := by
        intro c' hc'
        have hne : c' ≠ c := fun heq => Bool.false_ne_true (hfree.symm.trans (heq ▸ hc'))
        rw [update_of_ne hne]
        exact hc'
      have hnew : ∀ c' ∈ some c, t.chains c' = false ∧ update t.chains c true c' = true := by
        intro c' hc'
        cases hc'
        exact ⟨hfree, update_self ..⟩
      obtain ⟨s₁, hstore, hsound⟩ :=
        @Sound.store t hwait id hlive' ⟨msg_code, some c, buffer_size⟩ _ hroom' hkept hnew
      cases hstore.symm.trans hs'
      exact hsound
  · obtain ⟨s₁, hstore, hsound⟩ :=
      @Sound.store t hwait id hlive' ⟨msg_code, none, buffer_size⟩ t.chains hroom' (fun _ hc => hc)
        nofun
    cases hstore.symm.trans hs'
    exact hsound

theorem step_sound {call : TableCall} (h : s.Sound) (hsafe : s.Safe call) (hstep : s.Step call s') :
    s'.Sound := by
  cases call with
  | create_port queue_length env =>
    obtain ⟨hfresh, rfl⟩ := hstep
    exact (h.create_reuses hfresh hsafe).1
  | close_port id =>
    obtain rfl := hstep
    exact h.close id
  | delete_port id =>
    obtain rfl := hstep
    by_cases hlive : s.Live id
    · exact h.delete hlive (hsafe hlive)
    · rw [delete_of_not_live hlive]
      exact h
  | write_port_etc id msg_code buffer_size res chain =>
    obtain ⟨hfresh, hstep⟩ := hstep
    split at hstep
    · exact hstep ▸ h
    · rcases hstep.cases with rfl | ⟨hlive, n, hsem, hs'⟩
      · exact h
      · exact h.write hfresh hlive hsem hs'
  | read_port_etc id res =>
    rcases hstep.cases with rfl | ⟨hlive, n, hsem, hs'⟩
    · exact h
    · obtain ⟨s₁, htaken, hsound⟩ := h.read hlive hsem
      cases htaken.symm.trans hs'
      exact hsound

/-- Slots are used again in every history of safe calls. -/
theorem slots_reused (h : By Init Safe Step s) {call : TableCall} (hsafe : s.Safe call)
    (hstep : s.Step call s') : s.Reuses call := by
  have hsound : s.Sound := h.invariant Sound (fun _ => init_sound) fun _ _ _ => step_sound
  cases call with
  | create_port queue_length env =>
    obtain ⟨hsound', hopen⟩ := hsound.create_reuses hstep.1 hsafe
    exact ⟨hsound'.frees, hopen⟩
  | delete_port id =>
    intro hlive
    obtain ⟨l, hfreed, hperm, hnodup, hmis⟩ := hsound.delete_frees hlive (hsafe hlive)
    exact ⟨l, hfreed, hperm, hnodup, hmis.trans hsound.frees⟩
  | close_port id | write_port_etc id msg_code buffer_size res chain | read_port_etc id res =>
    exact hsound.frees

/-! ## Three histories -/

/-- A call that finds no slot gives the name and the queue back twice. -/
theorem create_of_full (hfull : s.freeSlot MAX_PORTS = none) {queue_length : Int} {env : CreateEnv}
    (hfresh : env.Fresh s) {temp_name q : Nat} {entries : Nat → queue_entry} {sem_r sem_w : Nat}
    (hsearches : Searches queue_length env temp_name q entries sem_r sem_w) :
    (s.create_port queue_length env).2.misfreed = s.misfreed ++ [temp_name, q] := by
  have hfull' := (freeSlot_reserve queue_length.toNat temp_name q entries sem_r sem_w
    MAX_PORTS).trans hfull
  have hne : temp_name ≠ q := fun heq =>
    (hfresh.queue _ hsearches.2.2.1).2 (hsearches.2.1.trans (congrArg some heq))
  have hmalloc : update (update s.blocks temp_name true) q true q = true := update_self ..
  have hmalloc' : update (update (update s.blocks temp_name true) q true) q
      false temp_name = true := by
    rw [update_of_ne hne, update_of_ne hne, update_self]
  have hback : update (update (update (update s.blocks temp_name
      true) q true) q false) temp_name false temp_name = false := update_self ..
  have hback' : update (update (update (update s.blocks temp_name
      true) q true) q false) temp_name false q = false := by
    rw [update_of_ne hne.symm, update_self]
  rw [create_of_searches hsearches, place, hfull']
  generalize hreserve : s.reserve queue_length.toNat temp_name q entries sem_r sem_w = t
  have hfirst : (t.kfree q).kfree temp_name = { t with
      blocks := update (update t.blocks q false) temp_name false } := by
    subst hreserve
    exact kfree_kfree hmalloc hmalloc'
  dsimp only
  rw [hfirst]
  subst hreserve
  rw [kfree_of_unused (by exact hback) (by exact hback')]
  rfl

/-- So many ports in the first slots. -/
structure Filled (s : PortTable) (n : Nat) : Prop where
  next : s.next_port = n
  taken : ∀ slot < n, s.Taken slot
  free : ∀ slot ≥ n, (s.ports slot).id = -1 ∧ (s.ports slot).closed = false
  unused : ∀ p ≥ 2 * n, s.blocks p = false ∧ s.sems p = none

/-- Memory for the next port. -/
def nextEnv (n : Nat) : CreateEnv :=
  ⟨some (2 * n), some (2 * n + 1, fun _ => ⟨0, none, 0⟩), .ok (2 * n), .ok (2 * n + 1)⟩

theorem Filled.fresh {n : Nat} (h : s.Filled n) : (nextEnv n).Fresh s := by
  refine ⟨?_, ?_, ?_, ?_⟩
  · rintro p ⟨⟩
    exact (h.unused _ (Nat.le_refl _)).1
  · rintro q ⟨⟩
    refine ⟨(h.unused _ (Nat.le_succ _)).1, fun heq => ?_⟩
    have := Option.some.inj heq
    omega
  · rintro sem ⟨⟩
    exact (h.unused _ (Nat.le_refl _)).2
  · rintro sem ⟨⟩
    refine ⟨(h.unused _ (Nat.le_succ _)).2, fun heq => ?_⟩
    have := Except.ok.inj heq
    omega

theorem nextEnv_searches (n : Nat) :
    Searches 1 (nextEnv n) (2 * n) (2 * n + 1) (fun _ => ⟨0, none, 0⟩) (2 * n) (2 * n + 1) :=
  ⟨⟨le_refl _, by decide⟩, rfl, rfl, rfl, rfl⟩

theorem Filled.next_slot {n : Nat} (h : s.Filled n) (hn : n < MAX_PORTS) :
    s.freeSlot MAX_PORTS = some n ∧ PortSystem.nextId s.next_port n = n := by
  refine ⟨freeSlot_first h.taken (h.free n (Nat.le_refl n)).1 (Nat.le_refl _) (by omega) hn, ?_⟩
  have hmod : (n : Int).tmod MAX_PORTS = ((n % MAX_PORTS : Nat) : Int) := rfl
  rw [h.next, PortSystem.nextId, hmod, Nat.mod_eq_of_lt hn, if_pos (le_refl _)]
  omega

theorem Filled.create {n : Nat} (h : s.Filled n) (hn : n < MAX_PORTS) :
    (s.create_port 1 (nextEnv n)).2.Filled (n + 1) := by
  obtain ⟨hslot, hid⟩ := h.next_slot hn
  have hbound : MAX_PORTS = 4096 := rfl
  have htoInt : toInt (n : Int) = n := toInt_of_range (by omega) (by omega)
  have htoInt' : toInt ((n : Int) + 1) = n + 1 := toInt_of_range (by omega) (by omega)
  have hslot' := (freeSlot_reserve 1 (2 * n) (2 * n + 1) (fun _ => ⟨0, none, 0⟩) (2 * n) (2 * n + 1)
    MAX_PORTS).trans hslot
  rw [create_of_searches (nextEnv_searches n), place]
  simp only [toNat_one, hslot', fill]
  have hnext : (s.reserve 1 (2 * n) (2 * n + 1) (fun _ => ⟨0, none, 0⟩) (2 * n)
      (2 * n + 1)).next_port = s.next_port := rfl
  rw [hnext, hid, htoInt, htoInt']
  refine ⟨(Nat.cast_succ n).symm, fun slot hlt => ?_, fun slot hge => ?_, fun p hp => ?_⟩
  · by_cases heq : slot = n
    · subst heq
      rw [Taken, setPort_self]
      show (slot : Int) ≠ -1
      omega
    · rw [Taken, setPort_of_ne heq]
      exact h.taken slot (by omega)
  · rw [setPort_of_ne (by omega)]
    exact h.free slot (by omega)
  · obtain ⟨hblock, hsem⟩ := h.unused p (by omega)
    have hne : p ≠ 2 * n := by omega
    have hne' : p ≠ 2 * n + 1 := by omega
    refine ⟨?_, ?_⟩
    · show update (update s.blocks (2 * n) true) (2 * n + 1) true p = false
      rw [update_of_ne hne', update_of_ne hne]
      exact hblock
    · show update (update s.sems (2 * n) (some 0)) (2 * n + 1) (some 1) p = none
      rw [update_of_ne hne', update_of_ne hne]
      exact hsem

/-- The table after `port_init`, with no memory in use. -/
def boot : PortTable where
  ports _ := ⟨-1, 0, none, 0, 0, 0, 0, 0, false, 0⟩
  next_port := 0
  sems _ := none
  queues _ _ := ⟨0, none, 0⟩
  blocks _ := false
  chains _ := false
  freed := []
  misfreed := []

theorem init_boot : boot.Init := ⟨fun _ => ⟨rfl, rfl⟩, rfl, rfl⟩

theorem filled_boot : boot.Filled 0 :=
  ⟨rfl, fun _ hlt => absurd hlt (Nat.not_lt_zero _), fun _ _ => ⟨rfl, rfl⟩, fun _ _ => ⟨rfl, rfl⟩⟩

theorem exists_filled : ∀ {n : Nat}, n ≤ MAX_PORTS → ∃ s, By Init Safe Step s ∧ s.Filled n
  | 0, _ => ⟨boot, .init init_boot, filled_boot⟩
  | n + 1, hn => by
    obtain ⟨s, hrun, hfilled⟩ := exists_filled (Nat.le_of_succ_le hn)
    obtain ⟨hslot, hid⟩ := hfilled.next_slot hn
    have hbound : MAX_PORTS = 4096 := rfl
    refine ⟨_, hrun.step (a := .create_port 1 (nextEnv n)) (fun _ => ⟨n, hslot, ?_, ?_⟩)
      ⟨hfilled.fresh, rfl⟩, hfilled.create hn⟩
    · exact (hfilled.free n (Nat.le_refl n)).2
    · omega

/-- A port is deleted with a message in its queue. -/
theorem slots_reused_full : ∃ s, By Init Safe Step s ∧ s.Live 0 ∧ s.undelivered (s.portOf 0) = [5] ∧
      s.Reuses (.delete_port 0) := by
  obtain ⟨s₁, hs₁⟩ : ∃ s₁, s₁ = (boot.create_port 1 (nextEnv 0)).2 := ⟨_, rfl⟩
  have hrun : By Init Safe Step s₁ := by
    refine (By.init init_boot).step (a := .create_port 1 (nextEnv 0)) (fun _ => ⟨0, rfl, rfl, ?_⟩)
      ⟨filled_boot.fresh, hs₁⟩
    decide
  have hwritten : ((s₁.setSem 1 (some 0)).written 0 7 10 (some 5)).map (fun s =>
      ((s.portOf 0).id, (s.portOf 0).capacity, (s.portOf 0).total_count,
        s.undelivered (s.portOf 0))) = some (0, 1, 1, [5]) := by
    subst hs₁
    rfl
  obtain ⟨s₂, hs₂, hend⟩ := map_eq_some_iff.mp hwritten
  obtain ⟨hid, hend⟩ := Prod.mk.inj hend
  obtain ⟨hcapacity, hend⟩ := Prod.mk.inj hend
  obtain ⟨htotal, hundelivered⟩ := Prod.mk.inj hend
  have hrun' : By Init Safe Step s₂ := by
    refine hrun.step (a := .write_port_etc 0 7 10 .B_NO_ERROR (some 5)) trivial ⟨fun c _ => ?_, ?_⟩
    · subst hs₁
      rfl
    · subst hs₁
      exact ⟨_, ⟨0, rfl, rfl⟩, hs₂⟩
  have hsafe : s₂.Safe (.delete_port 0) := by
    intro _ i hi htotal'
    rw [hcapacity] at hi
    rw [htotal] at htotal'
    omega
  exact ⟨s₂, hrun', ⟨le_refl _, hid⟩, hundelivered, slots_reused hrun' hsafe rfl⟩

/-- A slot that a closed port has left makes a closed one, the pointers that a new queue happens to
hold are freed with it, and a call that finds no slot frees the name and the queue twice. -/
theorem slots_not_reused :
    (∃ s env, By Init (fun _ _ => True) Step s ∧ env.Fresh s ∧ s.freeSlot MAX_PORTS = some 0 ∧
      ¬ s.Reuses (.create_port 1 env)) ∧
    (∃ s, By Init (fun _ _ => True) Step s ∧ s.Live 0 ∧ s.undelivered (s.portOf 0) = [] ∧
      (s.delete_port 0).freed = [77] ∧ ¬ s.Reuses (.delete_port 0)) ∧
    ∃ s env, By Init (fun _ _ => True) Step s ∧ env.Fresh s ∧ s.freeSlot MAX_PORTS = none ∧
      ¬ s.Reuses (.create_port 1 env) := by
  refine ⟨?_, ?_, ?_⟩
  · refine ⟨((boot.create_port 1 (nextEnv 0)).2.close_port 0).delete_port 0, nextEnv 1, ?_, ?_, rfl, ?_⟩
    · have hrun : By Init (fun _ _ => True) Step (boot.create_port 1 (nextEnv 0)).2 :=
        (By.init init_boot).step (a := .create_port 1 (nextEnv 0)) trivial ⟨filled_boot.fresh, rfl⟩
      have hclosed : By Init (fun _ _ => True) Step ((boot.create_port 1 (nextEnv 0)).2.close_port 0) :=
        hrun.step (a := .close_port 0) trivial rfl
      exact hclosed.step (a := .delete_port 0) trivial rfl
    · refine ⟨?_, ?_, ?_, ?_⟩
      · rintro p ⟨⟩
        rfl
      · rintro q ⟨⟩
        exact ⟨rfl, by decide⟩
      · rintro sem ⟨⟩
        rfl
      · rintro sem ⟨⟩
        exact ⟨rfl, nofun⟩
    · intro h
      exact absurd (h.2 4096 rfl).closed (by decide)
  · have hfresh : CreateEnv.Fresh boot ⟨some 0, some (1, fun _ => ⟨0, some 77, 0⟩), .ok 0, .ok 1⟩ :=
      ⟨fun _ _ => rfl, fun q hq => ⟨rfl, by cases hq; decide⟩, fun _ _ => rfl,
        fun sem hsem => ⟨rfl, by cases hsem; exact nofun⟩⟩
    refine ⟨_, (By.init init_boot).step (a := .create_port 1 ⟨_, _, _, _⟩) trivial ⟨hfresh, rfl⟩,
      ⟨le_refl _, rfl⟩, rfl, rfl, ?_⟩
    intro h
    obtain ⟨l, hfreed, hperm, -, -⟩ := h ⟨le_refl _, rfl⟩
    have hnil : l = [] := List.Perm.eq_nil hperm
    have hfreed' : [77] = ([] : List Nat) ++ l := hfreed
    rw [hnil] at hfreed'
    cases hfreed'
  · obtain ⟨s, hrun, hfilled⟩ := exists_filled (Nat.le_refl MAX_PORTS)
    have hfull := freeSlot_none hfilled.taken (Nat.le_refl _)
    refine ⟨s, nextEnv MAX_PORTS, hrun.mono fun _ _ _ => trivial, hfilled.fresh, hfull, fun h => ?_⟩
    have hmis := create_of_full hfull hfilled.fresh (nextEnv_searches MAX_PORTS)
    rw [h.1] at hmis
    exact absurd hmis (by simp)

end PortTable

end Kernel
