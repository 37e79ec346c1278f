import OpenBeOS.Net.Pool

/-! # Runs of a memory pool

Every block has one owner at most: the free list, whoever it was handed out to, or a thread that is
about to hand it out. Blocks are slots of areas, so that two of them do not overlap.
-/

namespace Pools

open Bytes Chain Function List

/-! ## Slots -/

/-- A block that has been cut from an area. -/
def Slot (s : State) (p : Nat) : Prop :=
  ∃ b, b < s.made ∧ ∃ k, p = (s.blocks b).base_addr + k * s.pool.alloc_size ∧
    p + s.pool.alloc_size ≤ (s.blocks b).ptr

/-- The header of an area that is filled from its start on. -/
structure BlockOk (s : State) (b : Nat) : Prop where
  ptr : ∃ k, (s.blocks b).ptr = (s.blocks b).base_addr + k * s.pool.alloc_size
  avail : (s.blocks b).ptr + (s.blocks b).avail = (s.blocks b).base_addr + (s.blocks b).mem_size
  base : 0 < (s.blocks b).base_addr
  top : (s.blocks b).base_addr + (s.blocks b).mem_size ≤ 2 ^ 32

/-- The areas of the pool. -/
structure AreasOk (s : State) : Prop where
  size : sizeofFreeBlk ≤ s.pool.alloc_size
  block : ∀ b, b < s.made → BlockOk s b
  aid : ∀ b c, b < s.made → c < s.made → b ≠ c → (s.blocks b).aid ≠ (s.blocks c).aid
  apart : ∀ b c, b < s.made → c < s.made → b ≠ c →
    (s.blocks b).base_addr + (s.blocks b).mem_size ≤ (s.blocks c).base_addr ∨
      (s.blocks c).base_addr + (s.blocks c).mem_size ≤ (s.blocks b).base_addr

theorem slots_of_area {base size k k' : Nat} (hne : base + k * size ≠ base + k' * size) :
    base + k * size + size ≤ base + k' * size ∨ base + k' * size + size ≤ base + k * size := by
  rcases Nat.lt_trichotomy k k' with hlt | rfl | hlt
  · left
    calc base + k * size + size = base + (k + 1) * size := by rw [Nat.succ_mul]; omega
      _ ≤ base + k' * size := Nat.add_le_add_left (Nat.mul_le_mul_right size hlt) base
  · exact absurd rfl hne
  · right
    calc base + k' * size + size = base + (k' + 1) * size := by rw [Nat.succ_mul]; omega
      _ ≤ base + k * size := Nat.add_le_add_left (Nat.mul_le_mul_right size hlt) base

theorem Slot.apart {s : State} (h : AreasOk s) {p q : Nat} (hp : Slot s p) (hq : Slot s q)
    (hne : p ≠ q) : p + s.pool.alloc_size ≤ q ∨ q + s.pool.alloc_size ≤ p := by
  obtain ⟨b, hb, k, rfl, htop⟩ := hp
  obtain ⟨c, hc, l, rfl, htop'⟩ := hq
  by_cases hbc : b = c
  · subst hbc
    exact slots_of_area hne
  · have hareas := h.apart b c hb hc hbc
    have havail := (h.block b hb).avail
    have havail' := (h.block c hc).avail
    omega

theorem Slot.bounds {s : State} (h : AreasOk s) {p : Nat} (hp : Slot s p) :
    0 < p ∧ p + s.pool.alloc_size ≤ 2 ^ 32 := by
  obtain ⟨b, hb, k, rfl, htop⟩ := hp
  have hbase := (h.block b hb).base
  have havail := (h.block b hb).avail
  have hend := (h.block b hb).top
  omega

/-! ## Owners -/

inductive Owner where
  | free
  | client
  | thread (t : Nat)
  deriving DecidableEq

/-- The block that a thread has found and not handed out. -/
def Place.block : Place → Option Nat
  | .scanned rv => rv
  | .found rv => some rv
  | .carved rv => rv
  | _ => none

/-- The headers a thread knows. -/
def Place.headers : Place → List Nat
  | .entered mp => mp
  | .missed mp => mp
  | .scanning mp => mp
  | .made mp => [mp]
  | .published mp => [mp]
  | _ => []

/-- Who has which block; `fl` is the free list. -/
structure Owned (s : State) (owner : Nat → Option Owner) (fl : List Nat) : Prop where
  free : ∀ p, owner p = some .free ↔ p ∈ fl
  client : ∀ p, owner p = some .client ↔ p ∈ s.out
  thread : ∀ p t, owner p = some (.thread t) ↔ (s.threads t).block = some p
  nodup_free : fl.Nodup
  nodup_out : s.out.Nodup
  slot : ∀ p o, owner p = some o → Slot s p
  chain : Leads (nextFree s.mem) s.pool.freelist fl none

/-- The list of the areas, and the headers the threads know. -/
structure ListOk (s : State) : Prop where
  nonempty : s.pool.list ≠ []
  nodup : s.pool.list.Nodup
  listed : ∀ b ∈ s.pool.list, b < s.made
  known : ∀ t, ∀ b ∈ (s.threads t).headers, b < s.made
  place : ∀ b, b < s.made → b ∈ s.pool.list ∨ ∃ t, s.threads t = .made b
  unlisted : ∀ t b, s.threads t = .made b → b ∉ s.pool.list
  maker : ∀ t t' b, s.threads t = .made b → s.threads t' = .made b → t = t'
  entered : ∀ t mp, s.threads t = .entered mp ∨ s.threads t = .missed mp ∨
    s.threads t = .scanning mp → mp ≠ []

/-- What holds between any two sections. -/
structure Inv (s : State) : Prop where
  areas : AreasOk s
  list : ListOk s
  owned : ∃ owner fl, Owned s owner fl

/-! ## The owners when a section is taken -/

section Owners

variable {s : State} {owner : Nat → Option Owner} {fl : List Nat} {t : Nat}

theorem goTo_threads (s : State) (t : Nat) (place : Place) (t' : Nat) :
    (s.goTo t place).threads t' = if t' = t then place else s.threads t' :=
  update_apply s.threads t place t'

theorem Owned.goTo (h : Owned s owner fl) {place : Place}
    (hblock : place.block = (s.threads t).block) : Owned (s.goTo t place) owner fl := by
  refine ⟨h.free, h.client, fun p t' => ?_, h.nodup_free, h.nodup_out, h.slot, h.chain⟩
  rw [goTo_threads, h.thread]
  split
  · rename_i heq
    rw [hblock, heq]
  · exact Iff.rfl

/-- The thread takes a block from the free list, or a new one. -/
theorem Owned.threadTakes {s' : State} {fl' : List Nat} (h : Owned s owner fl) {place : Place} {x : Nat}
    (hold : (s.threads t).block = none) (hnew : place.block = some x)
    (hthreads : s'.threads = update s.threads t place) (hout : s'.out = s.out)
    (hx : owner x = none ∨ owner x = some .free)
    (hfree : ∀ p, p ∈ fl' ↔ p ≠ x ∧ p ∈ fl) (hnodup : fl'.Nodup)
    (hslot : ∀ p, Slot s p → Slot s' p) (hslotx : Slot s' x)
    (hchain : Leads (nextFree s'.mem) s'.pool.freelist fl' none) :
    Owned s' (update owner x (some (.thread t))) fl' := by
  refine ⟨fun p => ?_, fun p => ?_, fun p t' => ?_, hnodup, ?_, fun p o hp => ?_, hchain⟩
  · rw [hfree, ← h.free]
    by_cases hpx : p = x
    · subst hpx
      simp
    · rw [update_of_ne hpx]
      exact ⟨fun h => ⟨hpx, h⟩, And.right⟩
  · rw [hout, ← h.client]
    by_cases hpx : p = x
    · subst hpx
      rw [update_self]
      rcases hx with hx | hx <;> simp [hx]
    · rw [update_of_ne hpx]
  · have hnot : (s.threads t').block ≠ some x := by
      intro hblock
      have := (h.thread x t').2 hblock
      rcases hx with hx | hx <;> simp [hx] at this
    have hplace : s'.threads t' = if t' = t then place else s.threads t' := by
      rw [hthreads, update_apply]
    rw [hplace]
    by_cases hpx : p = x
    · subst hpx
      rw [update_self]
      split
      · rename_i heq
        simp [hnew, heq]
      · rename_i hne
        simp only [Option.some.injEq, Owner.thread.injEq]
        exact ⟨fun heq => absurd heq.symm hne, fun hblock => absurd hblock hnot⟩
    · rw [update_of_ne hpx, h.thread]
      split
      · rename_i heq
        rw [heq, hold, hnew]
        simp only [reduceCtorEq, Option.some.injEq, false_iff]
        exact fun heq => hpx heq.symm
      · exact Iff.rfl
  · rw [hout]
    exact h.nodup_out
  · by_cases hpx : p = x
    · rw [hpx]
      exact hslotx
    · rw [update_of_ne hpx] at hp
      exact hslot p (h.slot p o hp)

section

variable (h : Owned s owner fl) (ha : AreasOk s)
include h ha

theorem Owned.links {mem : Buffer} {x : Nat}
    (hslot : Slot s x) (hx : x ∉ fl)
    (hmem : ∀ i, (i < x ∨ x + s.pool.alloc_size ≤ i) → mem i = s.mem i) :
    ∀ p ∈ fl, nextFree mem p = nextFree s.mem p := by
  intro p hp
  have hsize := ha.size
  have hpslot := h.slot p .free ((h.free p).2 hp)
  have hapart := hpslot.apart ha hslot fun heq => hx (heq ▸ hp)
  have hload : loadLE mem p 4 = loadLE s.mem p 4 :=
    loadLE_congr fun i hi => hmem _ (by unfold sizeofFreeBlk at hsize; omega)
  rw [nextFree, nextFree, hload]

/-- The thread hands out its block. -/
theorem Owned.handOut {rv : Nat}
    (hold : (s.threads t).block = some rv) :
    Owned (s.handOut t rv) (update owner rv (some .client)) fl := by
  have howner := (h.thread rv t).2 hold
  have hrv : rv ∉ fl := fun hmem => by
    rw [(h.free rv).2 hmem] at howner
    exact absurd howner (by simp)
  have hout : rv ∉ s.out := fun hmem => by
    rw [(h.client rv).2 hmem] at howner
    exact absurd howner (by simp)
  have hslot := h.slot rv _ howner
  refine ⟨fun p => ?_, fun p => ?_, fun p t' => ?_, h.nodup_free, ?_, fun p o hp => ?_, ?_⟩
  · by_cases hpx : p = rv
    · subst hpx
      simp [hrv]
    · rw [update_of_ne hpx, h.free]
  · show _ ↔ p ∈ rv :: s.out
    rw [mem_cons, ← h.client]
    by_cases hpx : p = rv
    · subst hpx
      simp
    · simp [hpx]
  · have hplace : (s.handOut t rv).threads t' = if t' = t then .outside else s.threads t' :=
      update_apply s.threads t .outside t'
    rw [hplace]
    by_cases hpx : p = rv
    · subst hpx
      rw [update_self]
      split
      · simp [Place.block]
      · rename_i hne
        simp only [Option.some.injEq, reduceCtorEq, false_iff]
        intro hblock
        have hother := (h.thread p t').2 hblock
        rw [howner] at hother
        exact hne (Owner.thread.inj (Option.some.inj hother)).symm
    · rw [update_of_ne hpx, h.thread]
      split
      · rename_i heq
        rw [heq, hold]
        simp only [Option.some.injEq, Place.block, reduceCtorEq, iff_false]
        exact fun heq => hpx heq.symm
      · exact Iff.rfl
  · exact nodup_cons.2 ⟨hout, h.nodup_out⟩
  · by_cases hpx : p = rv
    · rw [hpx]
      exact hslot
    · rw [update_of_ne hpx] at hp
      exact h.slot p o hp
  · exact h.chain.congr (h.links ha hslot hrv fun i hi => memset_outside hi)

/-- A block comes back to the free list. -/
theorem Owned.put {ptr : Nat} (hout : ptr ∈ s.out) :
    Owned (s.put ptr) (update owner ptr (some .free)) (ptr :: fl) := by
  have howner := (h.client ptr).2 hout
  have hptr : ptr ∉ fl := fun hmem => by
    rw [(h.free ptr).2 hmem] at howner
    exact absurd howner (by simp)
  have hslot := h.slot ptr _ howner
  refine ⟨fun p => ?_, fun p => ?_, fun p t => ?_, ?_, h.nodup_out.erase ptr, fun p o hp => ?_, ?_⟩
  · rw [mem_cons, ← h.free]
    by_cases hpx : p = ptr
    · subst hpx
      simp
    · simp [hpx]
  · show _ ↔ p ∈ s.out.erase ptr
    rw [h.nodup_out.mem_erase_iff, ← h.client]
    by_cases hpx : p = ptr
    · subst hpx
      simp
    · simp [hpx]
  · show _ ↔ (s.threads t).block = some p
    rw [← h.thread]
    by_cases hpx : p = ptr
    · subst hpx
      simp [howner]
    · rw [update_of_ne hpx]
  · exact nodup_cons.2 ⟨hptr, h.nodup_free⟩
  · by_cases hpx : p = ptr
    · rw [hpx]
      exact hslot
    · rw [update_of_ne hpx] at hp
      exact h.slot p o hp
  · have hsize := ha.size
    -- the link of the block is the old free list
    have hlink : nextFree (s.put ptr).mem ptr = s.pool.freelist := by
      have hload : loadLE (s.put ptr).mem ptr 4 = pointer s.pool.freelist % 256 ^ 4 :=
        loadLE_storeLE_same _ _ _ _
      rw [nextFree, hload]
      cases hhead : s.pool.freelist with
      | none => simp [pointer]
      | some x =>
        have hx : x ∈ fl := by
          have := h.chain.head
          rw [hhead] at this
          exact mem_of_mem_head? this.symm
        have hbounds := (h.slot x _ ((h.free x).2 hx)).bounds ha
        have hmod : pointer (some x) % 256 ^ 4 = x :=
          Nat.mod_eq_of_lt (by simp only [pointer]; unfold sizeofFreeBlk at hsize; omega)
        rw [hmod, if_neg (by omega)]
    refine ⟨rfl, ?_⟩
    rw [hlink]
    refine h.chain.congr (h.links ha hslot hptr fun i hi => ?_)
    show storeLE _ ptr 4 _ i = s.mem i
    rw [storeLE_outside (by unfold sizeofFreeBlk at hsize; omega), memset_outside hi]

theorem Owned.poke {ptr i : Nat} {v : UInt8}
    (hout : ptr ∈ s.out) (hi : i < s.pool.alloc_size) :
    Owned { s with mem := update s.mem (ptr + i) v } owner fl := by
  have howner := (h.client ptr).2 hout
  have hptr : ptr ∉ fl := fun hmem => by
    rw [(h.free ptr).2 hmem] at howner
    exact absurd howner (by simp)
  refine ⟨h.free, h.client, h.thread, h.nodup_free, h.nodup_out, h.slot, ?_⟩
  refine h.chain.congr (h.links ha (h.slot ptr _ howner) hptr fun j hj => ?_)
  exact update_of_ne (by omega) _ _

end

end Owners

/-! ## The areas when a section is taken -/

section Areas

variable {s : State} {b c p aid base : Nat}

section

variable (s : State) (b c : Nat)

theorem take_blocks : (s.take b).blocks c =
    if c = b then
      { s.blocks b with
        ptr := (s.blocks b).ptr + s.pool.alloc_size
        avail := (s.blocks b).avail - s.pool.alloc_size }
    else s.blocks c :=
  update_apply s.blocks b _ c

@[simp] theorem take_base_addr :
    ((s.take b).blocks c).base_addr = (s.blocks c).base_addr := by
  rw [take_blocks]
  split
  · rename_i heq
    rw [heq]
  · rfl

@[simp] theorem take_mem_size :
    ((s.take b).blocks c).mem_size = (s.blocks c).mem_size := by
  rw [take_blocks]
  split
  · rename_i heq
    rw [heq]
  · rfl

@[simp] theorem take_aid :
    ((s.take b).blocks c).aid = (s.blocks c).aid := by
  rw [take_blocks]
  split
  · rename_i heq
    rw [heq]
  · rfl

end

theorem take_self (s : State) (b : Nat) :
    ((s.take b).blocks b).ptr = (s.blocks b).ptr + s.pool.alloc_size ∧
      ((s.take b).blocks b).avail = (s.blocks b).avail - s.pool.alloc_size := by
  unfold State.take
  simp

theorem take_other (s : State) (h : c ≠ b) : (s.take b).blocks c = s.blocks c := update_of_ne h _ _

theorem AreasOk.take (h : AreasOk s) (havail : s.pool.alloc_size ≤ (s.blocks b).avail) :
    AreasOk (s.take b) := by
  refine ⟨h.size, fun c hc => ?_, fun c d hc hd hne => ?_, fun c d hc hd hne => ?_⟩
  · have hok := h.block c hc
    by_cases hcb : c = b
    · subst hcb
      obtain ⟨hptr, hleft⟩ := take_self s c
      obtain ⟨k, hk⟩ := hok.ptr
      have hsum := hok.avail
      refine ⟨⟨k + 1, ?_⟩, ?_, ?_, ?_⟩
      · show _ = _ + (k + 1) * s.pool.alloc_size
        rw [hptr, take_base_addr, hk, Nat.succ_mul]
        omega
      · rw [hptr, hleft, take_base_addr, take_mem_size]
        omega
      · rw [take_base_addr]
        exact hok.base
      · rw [take_base_addr, take_mem_size]
        exact hok.top
    · refine ⟨?_, ?_, ?_, ?_⟩ <;> rw [take_other s hcb]
      · exact hok.ptr
      · exact hok.avail
      · exact hok.base
      · exact hok.top
  · rw [take_aid, take_aid]
    exact h.aid c d hc hd hne
  · rw [take_base_addr, take_base_addr, take_mem_size, take_mem_size]
    exact h.apart c d hc hd hne

theorem Slot.take (h : Slot s p) : Slot (s.take b) p := by
  obtain ⟨c, hc, k, hk, htop⟩ := h
  refine ⟨c, hc, k, ?_, ?_⟩
  · rw [take_base_addr]
    exact hk
  · by_cases hcb : c = b
    · subst hcb
      have hptr := (take_self s c).1
      show p + s.pool.alloc_size ≤ _
      omega
    · rw [take_other s hcb]
      exact htop

theorem slot_take (h : AreasOk s) (hb : b < s.made) : Slot (s.take b) (s.blocks b).ptr := by
  obtain ⟨k, hk⟩ := (h.block b hb).ptr
  refine ⟨b, hb, k, ?_, ?_⟩
  · rw [take_base_addr]
    exact hk
  · rw [(take_self s b).1]
    exact Nat.le_refl _

theorem not_slot_top (h : AreasOk s) (hb : b < s.made)
    (havail : s.pool.alloc_size ≤ (s.blocks b).avail) : ¬Slot s (s.blocks b).ptr := by
  rintro ⟨c, hc, k, hk, htop⟩
  have hsize := h.size
  unfold sizeofFreeBlk at hsize
  by_cases hbc : b = c
  · subst hbc
    omega
  · have hapart := h.apart b c hb hc hbc
    have hsum := (h.block b hb).avail
    have hsum' := (h.block c hc).avail
    obtain ⟨l, hl⟩ := (h.block b hb).ptr
    omega

theorem addArea_old (s : State) (h : b < s.made) : (s.addArea aid base).blocks b = s.blocks b :=
  update_of_ne (by omega) _ _

theorem addArea_new (s : State) : (s.addArea aid base).blocks s.made =
    ⟨aid, base, s.pool.block_size, base, s.pool.block_size⟩ :=
  update_self ..

theorem AreasOk.addArea (h : AreasOk s) (hfits : Fits s aid base) :
    AreasOk (s.addArea aid base) := by
  obtain ⟨hbase, htop, hother⟩ := hfits
  have hcases : ∀ c, c < (s.addArea aid base).made → c < s.made ∨ c = s.made := by
    intro c hc
    change c < s.made + 1 at hc
    omega
  refine ⟨h.size, fun c hc => ?_, fun c d hc hd hne => ?_, fun c d hc hd hne => ?_⟩
  · obtain hold | rfl := hcases c hc
    · have hok := h.block c hold
      refine ⟨?_, ?_, ?_, ?_⟩ <;> rw [addArea_old s hold]
      · exact hok.ptr
      · exact hok.avail
      · exact hok.base
      · exact hok.top
    · refine ⟨?_, ?_, ?_, ?_⟩ <;> rw [addArea_new]
      · exact ⟨0, by simp⟩
      · exact hbase
      · exact htop
  · obtain hold | rfl := hcases c hc <;> obtain hold' | rfl := hcases d hd
    · rw [addArea_old s hold, addArea_old s hold']
      exact h.aid c d hold hold' hne
    · rw [addArea_old s hold, addArea_new]
      exact (hother c hold).1
    · rw [addArea_old s hold', addArea_new]
      exact (hother d hold').1.symm
    · exact absurd rfl hne
  · obtain hold | rfl := hcases c hc <;> obtain hold' | rfl := hcases d hd
    · rw [addArea_old s hold, addArea_old s hold']
      exact h.apart c d hold hold' hne
    · rw [addArea_old s hold, addArea_new]
      exact (hother c hold).2
    · rw [addArea_old s hold', addArea_new]
      exact (hother d hold').2.symm
    · exact absurd rfl hne

theorem Slot.addArea (h : Slot s p) : Slot (s.addArea aid base) p := by
  obtain ⟨c, hc, k, hk, htop⟩ := h
  refine ⟨c, Nat.lt_succ_of_lt hc, k, ?_, ?_⟩ <;> rw [addArea_old s hc]
  · exact hk
  · exact htop

end Areas

/-! ## The list of the areas when a section is taken -/

section Lists

variable {s s' : State} {t b : Nat} {place : Place}

/-- The thread goes on, without making or publishing an area. -/
theorem ListOk.goTo (h : ListOk s) (hlist : s'.pool.list = s.pool.list) (hmade : s'.made = s.made)
    (hthreads : s'.threads = update s.threads t place)
    (hold : ∀ b, s.threads t ≠ .made b) (hnew : ∀ b, place ≠ .made b)
    (hheaders : ∀ b ∈ place.headers, b ∈ (s.threads t).headers ∨ b ∈ s.pool.list)
    (hentered : ∀ mp, place = .entered mp ∨ place = .missed mp ∨ place = .scanning mp → mp ≠ []) :
    ListOk s' := by
  have hplace : ∀ t', s'.threads t' = if t' = t then place else s.threads t' := by
    intro t'
    rw [hthreads, update_apply]
  have hmaker : ∀ t' b, s'.threads t' = .made b ↔ s.threads t' = .made b := by
    intro t' b
    rw [hplace]
    split
    · rename_i heq
      subst heq
      exact ⟨fun h => absurd h (hnew b), fun h => absurd h (hold b)⟩
    · exact Iff.rfl
  refine ⟨?_, ?_, ?_, fun t' b hb => ?_, ?_, ?_, ?_, fun t' mp hmp => ?_⟩
  · rw [hlist]
    exact h.nonempty
  · rw [hlist]
    exact h.nodup
  · rw [hlist, hmade]
    exact h.listed
  · rw [hplace] at hb
    rw [hmade]
    split at hb
    · rcases hheaders b hb with hb | hb
      · exact h.known t b hb
      · exact h.listed b hb
    · exact h.known t' b hb
  · simp only [hlist, hmade, hmaker]
    exact h.place
  · simp only [hlist, hmaker]
    exact h.unlisted
  · simp only [hmaker]
    exact h.maker
  · rw [hplace] at hmp
    split at hmp
    · exact hentered mp hmp
    · exact h.entered t' mp hmp

theorem ListOk.congr (h : ListOk s) (hlist : s'.pool.list = s.pool.list) (hmade : s'.made = s.made)
    (hthreads : s'.threads = s.threads) : ListOk s' := by
  refine ⟨?_, ?_, ?_, ?_, ?_, ?_, ?_, ?_⟩ <;> simp only [hlist, hmade, hthreads]
  · exact h.nonempty
  · exact h.nodup
  · exact h.listed
  · exact h.known
  · exact h.place
  · exact h.unlisted
  · exact h.maker
  · exact h.entered

/-- A new header, which its thread will publish. -/
theorem ListOk.addArea {aid base : Nat} (h : ListOk s) (hold : s.threads t = .growing) :
    ListOk ((s.addArea aid base).goTo t (.made s.made)) := by
  have hmaker : ∀ t' b, ((s.addArea aid base).goTo t (.made s.made)).threads t' = .made b ↔
      (t' = t ∧ b = s.made) ∨ s.threads t' = .made b := by
    intro t' b
    rw [goTo_threads]
    split
    · rename_i heq
      subst heq
      simp [hold, eq_comm]
    · rename_i hne
      simp only [hne, false_and, false_or]
      rfl
  have hbound : ∀ t' b, s.threads t' = .made b → b < s.made := by
    intro t' b hb
    exact h.known t' b (by rw [hb]; exact mem_singleton_self b)
  refine ⟨h.nonempty, h.nodup, fun b hb => Nat.lt_succ_of_lt (h.listed b hb), fun t' b hb => ?_,
    fun b hb => ?_, fun t' b hb => ?_, fun t' t'' b hb hb' => ?_, fun t' mp hmp => ?_⟩
  · rw [goTo_threads] at hb
    show b < s.made + 1
    split at hb
    · rw [mem_singleton.1 hb]
      exact Nat.lt_succ_self _
    · exact Nat.lt_succ_of_lt (h.known t' b hb)
  · simp only [hmaker]
    change b < s.made + 1 at hb
    rcases Nat.lt_or_ge b s.made with hlt | hge
    · rcases h.place b hlt with hlist | ⟨t', ht'⟩
      · exact .inl hlist
      · exact .inr ⟨t', .inr ht'⟩
    · exact .inr ⟨t, .inl ⟨rfl, by omega⟩⟩
  · rcases (hmaker t' b).1 hb with ⟨-, rfl⟩ | hb
    · exact fun hmem => absurd (h.listed _ hmem) (Nat.lt_irrefl _)
    · exact h.unlisted t' b hb
  · rcases (hmaker t' b).1 hb with ⟨ht, rfl⟩ | hmade <;>
      rcases (hmaker t'' _).1 hb' with ⟨ht', hnew⟩ | hmade'
    · rw [ht, ht']
    · exact absurd (hbound _ _ hmade') (Nat.lt_irrefl _)
    · exact absurd (hnew ▸ hbound _ _ hmade) (Nat.lt_irrefl _)
    · exact h.maker t' t'' b hmade hmade'
  · rw [goTo_threads] at hmp
    split at hmp
    · simp at hmp
    · exact h.entered t' mp hmp

/-- The new header comes to the front of the list. -/
theorem ListOk.publish (h : ListOk s) (hold : s.threads t = .made b) :
    ListOk ({ s with pool := { s.pool with list := b :: s.pool.list } }.goTo t (.published b)) := by
  generalize hs' : { s with pool := { s.pool with list := b :: s.pool.list } }.goTo t
    (.published b) = s'
  have hlist : s'.pool.list = b :: s.pool.list := by rw [← hs']; rfl
  have hmade : s'.made = s.made := by rw [← hs']; rfl
  have hplace : ∀ t', s'.threads t' = if t' = t then .published b else s.threads t' := by
    intro t'
    rw [← hs', goTo_threads]
  have hb : b < s.made := h.known t b (by rw [hold]; exact mem_singleton_self b)
  have hmaker : ∀ t' c, s'.threads t' = .made c ↔ t' ≠ t ∧ s.threads t' = .made c := by
    intro t' c
    rw [hplace]
    split
    · rename_i heq
      simp [heq]
    · rename_i hne
      simp [hne]
  refine ⟨?_, ?_, fun c hc => ?_, fun t' c hc => ?_, fun c hc => ?_, fun t' c hc => ?_,
    fun t' t'' c hc hc' => ?_, fun t' mp hmp => ?_⟩
  · rw [hlist]
    exact cons_ne_nil _ _
  · rw [hlist]
    exact nodup_cons.2 ⟨h.unlisted t b hold, h.nodup⟩
  · rw [hlist] at hc
    rw [hmade]
    rcases mem_cons.1 hc with rfl | hc
    · exact hb
    · exact h.listed c hc
  · rw [hplace] at hc
    rw [hmade]
    split at hc
    · rw [mem_singleton.1 hc]
      exact hb
    · exact h.known t' c hc
  · rw [hmade] at hc
    rw [hlist, mem_cons]
    rcases h.place c hc with hmem | ⟨t', ht'⟩
    · exact .inl (.inr hmem)
    · by_cases htt : t' = t
      · subst htt
        rw [hold] at ht'
        exact .inl (.inl (Place.made.inj ht').symm)
      · exact .inr ⟨t', (hmaker t' c).2 ⟨htt, ht'⟩⟩
  · obtain ⟨hne, hc⟩ := (hmaker t' c).1 hc
    rw [hlist, mem_cons]
    rintro (rfl | hmem)
    · exact hne (h.maker t' t c hc hold)
    · exact h.unlisted t' c hc hmem
  · exact h.maker t' t'' c ((hmaker t' c).1 hc).2 ((hmaker t'' c).1 hc').2
  · rw [hplace] at hmp
    split at hmp
    · simp at hmp
    · exact h.entered t' mp hmp

end Lists

/-! ## Every section keeps the invariant -/

section Steps

variable {s s' : State} {owner : Nat → Option Owner} {fl : List Nat} {t : Nat}

theorem AreasOk.congr (h : AreasOk s) (hsize : s'.pool.alloc_size = s.pool.alloc_size)
    (hblocks : s'.blocks = s.blocks) (hmade : s'.made = s.made) : AreasOk s' := by
  refine ⟨hsize ▸ h.size, fun b hb => ?_, ?_, ?_⟩
  · have hok := h.block b (hmade ▸ hb)
    refine ⟨?_, ?_, ?_, ?_⟩ <;> simp only [hsize, hblocks]
    · exact hok.ptr
    · exact hok.avail
    · exact hok.base
    · exact hok.top
  · rw [hblocks, hmade]
    exact h.aid
  · rw [hblocks, hmade]
    exact h.apart

theorem Owned.congr (h : Owned s owner fl) (hthreads : s'.threads = s.threads)
    (hout : s'.out = s.out) (hmem : s'.mem = s.mem)
    (hfreelist : s'.pool.freelist = s.pool.freelist) (hslot : ∀ p, Slot s p → Slot s' p) :
    Owned s' owner fl := by
  refine ⟨h.free, ?_, ?_, h.nodup_free, ?_, fun p o hp => hslot p (h.slot p o hp), ?_⟩
  · rw [hout]
    exact h.client
  · rw [hthreads]
    exact h.thread
  · rw [hout]
    exact h.nodup_out
  · rw [hmem, hfreelist]
    exact h.chain

section

variable (h : Inv s)
include h

theorem Inv.goTo {place : Place} (hblock : place.block = (s.threads t).block)
    (hold : ∀ b, s.threads t ≠ .made b) (hnew : ∀ b, place ≠ .made b)
    (hheaders : ∀ b ∈ place.headers, b ∈ (s.threads t).headers ∨ b ∈ s.pool.list)
    (hentered : ∀ mp, place = .entered mp ∨ place = .missed mp ∨ place = .scanning mp → mp ≠ []) :
    Inv (s.goTo t place) := by
  obtain ⟨owner, fl, howned⟩ := h.owned
  exact ⟨h.areas.congr rfl rfl rfl,
    h.list.goTo rfl rfl rfl hold hnew hheaders hentered, owner, fl, howned.goTo hblock⟩

theorem Inv.readers (n : Nat) : Inv { s with readers := n } := by
  obtain ⟨owner, fl, howned⟩ := h.owned
  exact ⟨h.areas.congr rfl rfl rfl, h.list.congr rfl rfl rfl,
    owner, fl, howned.congr rfl rfl rfl rfl fun _ h => h⟩

/-- A thread takes the first block of the free list. -/
theorem Inv.takeFree {rv : Nat} {mp : List Nat} (hplace : s.threads t = .entered mp)
    (hfreelist : s.pool.freelist = some rv) :
    Inv ({ s with pool := { s.pool with freelist := nextFree s.mem rv } }.goTo t (.found rv)) := by
  obtain ⟨owner, fl, howned⟩ := h.owned
  have hchain := howned.chain
  rw [hfreelist] at hchain
  cases fl with
  | nil => cases hchain
  | cons x rest =>
    obtain ⟨hx, hrest⟩ := hchain
    cases hx
    obtain ⟨hnotMem, hnodup⟩ := nodup_cons.1 howned.nodup_free
    have howner := (howned.free rv).2 mem_cons_self
    refine ⟨h.areas.congr rfl rfl rfl, ?_, _, rest,
      howned.threadTakes (by rw [hplace]; rfl) (show (Place.found rv).block = some rv from rfl)
        rfl rfl (.inr howner)
        (fun p => ?_) hnodup (fun _ h => h) (howned.slot rv _ howner) hrest⟩
    · refine h.list.goTo rfl rfl rfl ?_ nofun nofun ?_
      · intro b
        simp [hplace]
      · simp
    · rw [mem_cons]
      constructor
      · intro hp
        exact ⟨fun heq => hnotMem (heq ▸ hp), .inr hp⟩
      · rintro ⟨hne, rfl | hp⟩
        · exact absurd rfl hne
        · exact hp

/-- A thread takes a block off the top of an area. -/
theorem Inv.takeTop {b : Nat} {place : Place} (hb : b < s.made)
    (havail : s.pool.alloc_size ≤ (s.blocks b).avail) (hblock : (s.threads t).block = none)
    (hnewblock : place.block = some (s.blocks b).ptr) (hold : ∀ b, s.threads t ≠ .made b)
    (hnew : ∀ b, place ≠ .made b) (hheaders : place.headers = [])
    (hentered : ∀ mp, ¬(place = .entered mp ∨ place = .missed mp ∨ place = .scanning mp)) :
    Inv ((s.take b).goTo t place) := by
  obtain ⟨owner, fl, howned⟩ := h.owned
  have hareas := h.areas.take havail
  have howner : owner (s.blocks b).ptr = none := by
    cases ho : owner (s.blocks b).ptr with
    | none => rfl
    | some o => exact absurd (howned.slot _ o ho) (not_slot_top h.areas hb havail)
  refine ⟨hareas.congr rfl rfl rfl, ?_, _, fl,
    howned.threadTakes hblock hnewblock rfl rfl (.inl howner) (fun p => ?_) howned.nodup_free
      (fun _ hp => hp.take) (slot_take h.areas hb) howned.chain⟩
  · refine h.list.goTo rfl rfl rfl hold hnew ?_ fun mp hmp => absurd hmp (hentered mp)
    rw [hheaders]
    exact nofun
  · constructor
    · intro hp
      refine ⟨?_, hp⟩
      rintro rfl
      rw [(howned.free _).2 hp] at howner
      cases howner
    · exact And.right

theorem Inv.addArea {aid base : Nat} (hplace : s.threads t = .growing)
    (hfits : Fits s aid base) : Inv ((s.addArea aid base).goTo t (.made s.made)) := by
  obtain ⟨owner, fl, howned⟩ := h.owned
  have hareas := h.areas.addArea hfits
  refine ⟨hareas.congr rfl rfl rfl, h.list.addArea hplace, owner, fl,
    Owned.goTo (s := s.addArea aid base)
      (howned.congr rfl rfl rfl rfl fun _ hp => hp.addArea) ?_⟩
  show _ = (s.threads t).block
  rw [hplace]
  rfl

theorem Inv.publish {b : Nat} (hplace : s.threads t = .made b) :
    Inv ({ s with pool := { s.pool with list := b :: s.pool.list } }.goTo t (.published b)) := by
  obtain ⟨owner, fl, howned⟩ := h.owned
  have hsame : Owned { s with pool := { s.pool with list := b :: s.pool.list } } owner fl :=
    howned.congr rfl rfl rfl rfl fun _ hp => hp
  refine ⟨h.areas.congr rfl rfl rfl, h.list.publish hplace, owner, fl, hsame.goTo ?_⟩
  show _ = (s.threads t).block
  rw [hplace]
  rfl

theorem Inv.handOut {rv : Nat} (hblock : (s.threads t).block = some rv)
    (hold : ∀ b, s.threads t ≠ .made b) : Inv (s.handOut t rv) := by
  obtain ⟨owner, fl, howned⟩ := h.owned
  exact ⟨h.areas.congr rfl rfl rfl,
    h.list.goTo rfl rfl (show _ = update _ t Place.outside from rfl) hold nofun nofun
      (by simp), _, fl,
    howned.handOut h.areas hblock⟩

/-- **Every section keeps the invariant.** -/
theorem Inv.step {a : Act} (hstep : step s a = some s') : Inv s' := by
  cases a
  all_goals simp only [Pools.step] at hstep
  case enter t =>
    split at hstep <;> try contradiction
    rename_i hplace
    cases hstep
    refine h.goTo (by rw [hplace]; rfl) (by simp [hplace]) nofun (fun b hb => .inr hb) ?_
    rintro mp (hmp | hmp | hmp)
    · rw [← Place.entered.inj hmp]
      exact h.list.nonempty
    · cases hmp
    · cases hmp
  case tryFreelist t =>
    split at hstep
    · rename_i hplace hfreelist
      split at hstep <;> try contradiction
      cases hstep
      exact h.takeFree hplace hfreelist
    · rename_i mp hplace hfreelist
      split at hstep <;> try contradiction
      cases hstep
      have hne := h.list.entered t mp (.inl hplace)
      refine h.goTo (by rw [hplace]; rfl) (by simp [hplace]) nofun
        (fun b hb => .inl (by rw [hplace]; exact hb)) ?_
      rintro mp' (hmp | hmp | hmp)
      · cases hmp
      · rwa [← Place.missed.inj hmp]
      · cases hmp
    · cases hstep
  case lockRead t =>
    split at hstep <;> try contradiction
    rename_i mp hplace
    cases hstep
    have hne := h.list.entered t mp (.inr (.inl hplace))
    refine (h.readers _).goTo (by rw [hplace]; rfl) (by simp [hplace]) nofun
      (fun b hb => .inl (by rw [hplace]; exact hb)) ?_
    rintro mp' (hmp | hmp | hmp)
    · cases hmp
    · cases hmp
    · rwa [← Place.scanning.inj hmp]
  case carve t =>
    split at hstep <;> try contradiction
    rename_i b rest hplace
    have hb := h.list.known t b (by rw [hplace]; exact mem_cons_self)
    split at hstep
    · rename_i havail
      cases hstep
      exact h.takeTop hb havail (by rw [hplace]; rfl) rfl (by simp [hplace]) nofun rfl nofun
    · split at hstep
      · cases hstep
        exact h.goTo (by rw [hplace]; rfl) (by simp [hplace]) nofun nofun (by simp)
      · rename_i hrest
        cases hstep
        refine h.goTo (by rw [hplace]; rfl) (by simp [hplace]) nofun
          (fun c hc => .inl (by rw [hplace]; exact mem_cons_of_mem b hc)) ?_
        rintro mp (hmp | hmp | hmp)
        · cases hmp
        · cases hmp
        · rwa [← Place.scanning.inj hmp]
  case unlockRead t =>
    split at hstep <;> try contradiction
    all_goals
      rename_i hplace
      cases hstep
      exact (h.readers _).goTo (by rw [hplace]; rfl) (by simp [hplace]) nofun nofun (by simp)
  case createArea t c =>
    split at hstep
    · rename_i hplace
      split at hstep <;> try contradiction
      rename_i hfits
      cases hstep
      exact h.addArea hplace hfits
    · rename_i hplace _
      cases hstep
      exact h.goTo (by rw [hplace]; rfl) (by simp [hplace]) nofun nofun (by simp)
    · contradiction
  case publish t =>
    split at hstep <;> try contradiction
    rename_i hplace
    split at hstep <;> try contradiction
    cases hstep
    exact h.publish hplace
  case carveNew t =>
    split at hstep <;> try contradiction
    rename_i b hplace
    have hb := h.list.known t b (by rw [hplace]; exact mem_singleton_self b)
    split at hstep
    · rename_i havail
      cases hstep
      exact h.takeTop hb havail (by rw [hplace]; rfl) rfl (by simp [hplace]) nofun rfl nofun
    · cases hstep
      exact h.goTo (by rw [hplace]; rfl) (by simp [hplace]) nofun nofun (by simp)
  case clear t =>
    split at hstep <;> try contradiction
    · rename_i hplace
      cases hstep
      exact h.handOut (by rw [hplace]; rfl) (by simp [hplace])
    · rename_i hplace
      cases hstep
      exact h.handOut (by rw [hplace]; rfl) (by simp [hplace])
    · rename_i hplace
      cases hstep
      exact h.goTo (by rw [hplace]; rfl) (by simp [hplace]) nofun nofun (by simp)
  case put ptr =>
    split at hstep <;> try contradiction
    rename_i hput
    cases hstep
    obtain ⟨owner, fl, howned⟩ := h.owned
    exact ⟨h.areas.congr rfl rfl rfl, h.list.congr rfl rfl rfl, _, _, howned.put h.areas hput.2⟩
  case poke ptr i v =>
    split at hstep <;> try contradiction
    rename_i hpoke
    cases hstep
    obtain ⟨owner, fl, howned⟩ := h.owned
    exact ⟨h.areas.congr rfl rfl rfl, h.list.congr rfl rfl rfl, _,
      _, howned.poke h.areas hpoke.1 hpoke.2⟩

end

end Steps

/-! ## Runs -/

section Runs

open Reachable

variable {s s₀ : State}

theorem pool_init_inv {size : Nat} {c : Creation} {mem : Buffer}
    (h : pool_init size c mem = some s₀) :
    Inv s₀ ∧ s₀.pool.alloc_size = size ∧ ∀ t, s₀.threads t = .outside := by
  unfold pool_init at h
  split at h <;> try contradiction
  rename_i hsize
  simp only at h
  split at h <;> try contradiction
  split at h <;> try contradiction
  rename_i hfits
  cases h
  have hnone : ∀ b, ¬b < 0 := fun b => Nat.not_lt_zero b
  have hareas := AreasOk.addArea
    ⟨Nat.not_lt.1 hsize, fun b hb => absurd hb (hnone b), fun b c hb => absurd hb (hnone b),
      fun b c hb => absurd hb (hnone b)⟩ hfits
  refine ⟨⟨hareas.congr rfl rfl rfl, ?_, fun _ => none, [], ?_⟩, rfl, fun _ => rfl⟩
  · refine ⟨by simp, by simp, ?_, nofun, ?_, nofun, nofun, nofun⟩
    · intro b hb
      rw [mem_singleton.1 hb]
      exact Nat.zero_lt_one
    · intro b hb
      exact .inl (mem_singleton.2 (Nat.lt_one_iff.1 hb))
  · exact ⟨by simp, by simp [State.addArea], by simp [State.addArea, Place.block], nodup_nil,
      nodup_nil, nofun, rfl⟩

/-- The condition holds of every section of a run. -/
def Along (ok : State → Act → Prop) : List Act → State → Prop
  | [], _ => True
  | a :: as, s => ok s a ∧ ∀ s', step s a = some s' → Along ok as s'

theorem Along.of_inv {ok : State → Act → Prop} (hok : ∀ s a s', Inv s → step s a = some s' → ok s a) :
    ∀ (as : List Act) {s s' : State}, Inv s → exec step as s = some s' → Along ok as s
  | [], _, _, _, _ => trivial
  | a :: as, s, s', h, hrun => by
    obtain ⟨s₁, hstep, hrest⟩ := Option.bind_eq_some_iff.1 hrun
    refine ⟨hok s a s₁ h hstep, fun s₂ hstep' => ?_⟩
    cases hstep.symm.trans hstep'
    exact Along.of_inv hok as (h.step hstep) hrest

theorem exec_inv : ∀ (as : List Act) {s s' : State}, Inv s → exec step as s = some s' → Inv s'
  | [], _, _, h, hrun => Option.some.inj hrun ▸ h
  | a :: as, s, s', h, hrun => by
    obtain ⟨s₁, hstep, hrest⟩ := Option.bind_eq_some_iff.1 hrun
    exact exec_inv as (h.step hstep) hrest

/-! ## What the blocks are -/

/-- The blocks that are handed out do not overlap, and are inside areas of the pool. -/
structure BlocksOk (s : State) : Prop where
  once : s.out.Nodup
  disjoint : ∀ p ∈ s.out, ∀ q ∈ s.out, p ≠ q → p + s.pool.alloc_size ≤ q ∨ q + s.pool.alloc_size ≤ p
  inside : ∀ p ∈ s.out, ∃ b, b < s.made ∧ (s.blocks b).base_addr ≤ p ∧
    p + s.pool.alloc_size ≤ (s.blocks b).base_addr + (s.blocks b).mem_size

theorem Inv.blocksOk (h : Inv s) : BlocksOk s := by
  obtain ⟨owner, fl, howned⟩ := h.owned
  have hslot : ∀ p ∈ s.out, Slot s p := fun p hp => howned.slot p _ ((howned.client p).2 hp)
  refine ⟨howned.nodup_out, fun p hp q hq hne => (hslot p hp).apart h.areas (hslot q hq) hne, ?_⟩
  intro p hp
  obtain ⟨b, hb, k, rfl, htop⟩ := hslot p hp
  have hsum := (h.areas.block b hb).avail
  exact ⟨b, hb, by omega, by omega⟩

/-- A new block is cleared, and was nobody's. -/
def HandsOutCleared (s : State) (a : Act) : Prop :=
  ∀ s' rv, step s a = some s' → s'.out = rv :: s.out →
    rv ∉ s.out ∧ ∀ i, i < s.pool.alloc_size → s'.mem (rv + i) = 0

theorem handOut_cleared {t rv rv' : Nat} (h : Inv s) (hblock : (s.threads t).block = some rv)
    (hout : (s.handOut t rv).out = rv' :: s.out) :
    rv' ∉ s.out ∧ ∀ i, i < s.pool.alloc_size → (s.handOut t rv).mem (rv' + i) = 0 := by
  obtain rfl := (List.cons.inj hout).1
  obtain ⟨owner, fl, howned⟩ := h.owned
  refine ⟨fun hmem => ?_, fun i hi => ?_⟩
  · have howner := (howned.thread rv t).2 hblock
    rw [(howned.client rv).2 hmem] at howner
    exact absurd howner (by simp)
  · exact memset_inside (Nat.le_add_right _ _) (Nat.add_lt_add_left hi _)

variable {s' : State} {a : Act}

/-- What a section does to the blocks that are handed out. -/
theorem step_out (hstep : step s a = some s') :
    (∃ t rv, (s.threads t).block = some rv ∧ s' = s.handOut t rv) ∨ s'.out = s.out ∨
      ∃ ptr, s' = s.put ptr := by
  cases a with
  | clear t =>
    simp only [Pools.step] at hstep
    split at hstep <;> try contradiction
    · rename_i hplace
      exact .inl ⟨t, _, by rw [hplace]; rfl, (Option.some.inj hstep).symm⟩
    · rename_i hplace
      exact .inl ⟨t, _, by rw [hplace]; rfl, (Option.some.inj hstep).symm⟩
    · rw [← Option.some.inj hstep]
      exact .inr (.inl rfl)
  | put ptr =>
    simp only [Pools.step] at hstep
    split at hstep <;> try contradiction
    exact .inr (.inr ⟨ptr, (Option.some.inj hstep).symm⟩)
  | enter t | lockRead t | publish t | tryFreelist t | carve t | unlockRead t | createArea t c
  | carveNew t | poke ptr i v =>
    refine .inr (.inl ?_)
    simp only [Pools.step] at hstep
    repeat' split at hstep
    all_goals first
      | contradiction
      | (cases hstep
         rfl)

theorem Inv.handsOutCleared (h : Inv s) : HandsOutCleared s a := by
  intro s' rv hstep hout
  rcases step_out hstep with ⟨t, rv', hblock, rfl⟩ | hsame | ⟨ptr, rfl⟩
  · exact handOut_cleared h hblock hout
  · have hlength := congrArg List.length (hsame.symm.trans hout)
    simp at hlength
  · have hlength := congrArg List.length hout
    have hle := length_erase_le (a := ptr) (l := s.out)
    simp only [State.put, length_cons] at hlength
    omega

/-! ## When no block is found -/

/-- `pool_get()` comes out with `NULL` here: it returns it, or clears what it points to. -/
def ComesOutNull (s : State) : Act → Prop
  | .createArea t c => s.threads t = .growing ∧ ∀ aid base, c ≠ .area aid base
  | .clear t => s.threads t = .carved none
  | _ => False

/-- A new area could not be created. -/
def AreaFailed : Act → Prop
  | .createArea _ c => ∀ aid base, c ≠ .area aid base
  | _ => False

/-- The thread that made an area has no room in it: it is too small, or used up by others since it
was published. -/
def UsedUp (s : State) : Act → Prop
  | .carveNew t => ∃ b, s.threads t = .published b ∧ (s.blocks b).avail < s.pool.alloc_size
  | _ => False

/-- The thread that a section belongs to. -/
def Act.thread? : Act → Option Nat
  | .enter t => some t
  | .tryFreelist t => some t
  | .lockRead t => some t
  | .carve t => some t
  | .unlockRead t => some t
  | .createArea t _ => some t
  | .publish t => some t
  | .carveNew t => some t
  | .clear t => some t
  | .put _ => none
  | .poke _ _ _ => none

theorem step_other {t : Nat} (hstep : step s a = some s')
    (ht : a.thread? ≠ some t) : s'.threads t = s.threads t := by
  cases a with
  | enter t' | lockRead t' | publish t' | tryFreelist t' | carve t' | unlockRead t'
  | createArea t' c | carveNew t' | clear t' =>
    have hne : t ≠ t' := fun heq => ht (by rw [heq]; rfl)
    simp only [Pools.step] at hstep
    repeat' split at hstep
    all_goals first
      | contradiction
      | (rw [← Option.some.inj hstep]; exact update_of_ne hne _ _)
  | put ptr | poke ptr i v =>
    simp only [Pools.step] at hstep
    split at hstep <;> try contradiction
    cases hstep
    rfl

/-- A thread comes to a `NULL` that it clears only by finding its area used up, and leaves it only
by clearing it. -/
theorem step_pending (hstep : step s a = some s') (t : Nat) :
    (s'.threads t = .carved none ∧ s.threads t ≠ .carved none ↔ a = .carveNew t ∧ UsedUp s a) ∧
    (s.threads t = .carved none → s'.threads t = .carved none ∨ a = .clear t) := by
  by_cases ht : a.thread? = some t
  · cases a with
    | put ptr | poke ptr i v => exact absurd ht nofun
    | carveNew t' =>
      obtain rfl := Option.some.inj ht
      simp only [Pools.step] at hstep
      split at hstep <;> try contradiction
      rename_i b hplace
      split at hstep
      · rename_i havail
        rw [← Option.some.inj hstep, goTo_threads, if_pos rfl]
        refine ⟨⟨fun h => absurd h.1 nofun, ?_⟩, ?_⟩
        · rintro ⟨-, c, hc, hlt⟩
          obtain rfl := Place.published.inj (hplace.symm.trans hc)
          omega
        · simp [hplace]
      · rename_i havail
        rw [← Option.some.inj hstep, goTo_threads, if_pos rfl]
        refine ⟨⟨fun _ => ⟨rfl, b, hplace, Nat.not_le.1 havail⟩, ?_⟩, ?_⟩
        · simp [hplace]
        · simp [hplace]
    | clear t' =>
      cases ht
      refine ⟨⟨fun h => ?_, fun h => absurd h.1 nofun⟩, fun _ => .inr rfl⟩
      simp only [Pools.step] at hstep
      split at hstep <;> try contradiction
      all_goals
        rw [← Option.some.inj hstep] at h
        simp [State.handOut, State.goTo] at h
    | enter t' | lockRead t' | publish t' | tryFreelist t' | carve t' | unlockRead t'
    | createArea t' c =>
      cases ht
      simp only [Pools.step] at hstep
      repeat' split at hstep
      all_goals first
        | contradiction
        | (rw [← Option.some.inj hstep, goTo_threads, if_pos rfl]
           simp [*])
  · rw [step_other hstep ht]
    refine ⟨⟨fun h => absurd h.1 h.2, ?_⟩, .inl⟩
    rintro ⟨rfl, -⟩
    exact absurd rfl ht

theorem along_pending {t : Nat} : ∀ (as : List Act) {s s' : State}, exec step as s = some s' →
    s.threads t = .carved none → s'.threads t ≠ .carved none →
    ¬Along (fun s a => ComesOutNull s a → AreaFailed a) as s
  | [], s, s', hrun, ht, ht', _ => by
    rw [← Option.some.inj hrun] at ht'
    exact ht' ht
  | a :: as, s, s', hrun, ht, ht', halong => by
    obtain ⟨s₁, hstep, hrest⟩ := Option.bind_eq_some_iff.1 hrun
    obtain ⟨hok, hnext⟩ := halong
    rcases (step_pending hstep t).2 ht with hsame | rfl
    · exact along_pending as hrest hsame ht' (hnext s₁ hstep)
    · exact hok ht

/-- **When `NULL` only comes from an area that could not be created.** In a run at whose end no
thread is left with `NULL` this is so just when no thread finds its own area used up. -/
theorem null_iff : ∀ (as : List Act) {s s' : State}, exec step as s = some s' →
    (∀ t, s.threads t ≠ .carved none) → (∀ t, s'.threads t ≠ .carved none) →
    (Along (fun s a => ComesOutNull s a → AreaFailed a) as s ↔ Along (fun s a => ¬UsedUp s a) as s)
  | [], _, _, _, _, _ => Iff.rfl
  | a :: as, s, s', hrun, hs, hs' => by
    obtain ⟨s₁, hstep, hrest⟩ := Option.bind_eq_some_iff.1 hrun
    have hok : ComesOutNull s a → AreaFailed a := by
      cases a with
      | createArea t c => exact And.right
      | clear t => exact fun hnull => absurd hnull (hs t)
      | _ => exact False.elim
    by_cases hused : UsedUp s a
    · -- the `NULL` has to come out later
      cases a with
      | carveNew t =>
        have hpending := (((step_pending hstep t).1).2 ⟨rfl, hused⟩).1
        constructor
        · intro halong
          exact absurd (halong.2 s₁ hstep) (along_pending as hrest hpending (hs' t))
        · intro halong
          exact absurd hused halong.1
      | _ => exact hused.elim
    · have hnone : ∀ t, s₁.threads t ≠ .carved none := fun t ht =>
        hused (((step_pending hstep t).1).1 ⟨ht, hs t⟩).2
      have ih := null_iff as hrest hnone hs'
      constructor
      · intro halong
        refine ⟨hused, fun s₂ hstep' => ?_⟩
        cases hstep.symm.trans hstep'
        exact ih.1 (halong.2 s₁ hstep)
      · intro halong
        refine ⟨hok, fun s₂ hstep' => ?_⟩
        cases hstep.symm.trans hstep'
        exact ih.2 (halong.2 s₁ hstep)

/-! ## Deleting a pool -/

/-- The areas that are deleted. -/
def areasDeleted (ds : List Deletion) : List Nat :=
  ds.filterMap fun d => match d with
    | .delete_area aid => some aid
    | _ => none

/-- The headers that are freed. -/
def headersFreed (ds : List Deletion) : List Nat :=
  ds.filterMap fun d => match d with
    | .free b => some b
    | _ => none

/-- The locks whose semaphores are deleted; `none` is the one `NULL` points to. -/
def locksRead (ds : List Deletion) : List (Option Nat) :=
  ds.filterMap fun d => match d with
    | .delete_sem header => some header
    | _ => none

theorem areasDeleted_loop (blocks : Nat → PoolMem) (list : List Nat) :
    areasDeleted (destroyLoop blocks list) = list.map fun b => (blocks b).aid := by
  induction list with
  | nil => rfl
  | cons b list ih =>
    rw [map_cons, ← ih]
    rfl

theorem headersFreed_loop (blocks : Nat → PoolMem) (list : List Nat) :
    headersFreed (destroyLoop blocks list) = list := by
  induction list with
  | nil => rfl
  | cons b list ih =>
    conv_rhs => rw [← ih]
    rfl

theorem locksRead_loop (blocks : Nat → PoolMem) (b : Nat) (list : List Nat) :
    locksRead (destroyLoop blocks (b :: list)) = list.map some ++ [none] := by
  induction list generalizing b with
  | nil => rfl
  | cons c list ih =>
    rw [map_cons, cons_append, ← ih c]
    rfl

/-- Each area is deleted and each header freed once. -/
structure DestroysOnce (s : State) : Prop where
  areas_nodup : (areasDeleted (pool_destroy s)).Nodup
  areas : ∀ aid, aid ∈ areasDeleted (pool_destroy s) ↔ ∃ b, b < s.made ∧ aid = (s.blocks b).aid
  headers_nodup : (headersFreed (pool_destroy s)).Nodup
  headers : ∀ b, b ∈ headersFreed (pool_destroy s) ↔ b < s.made

/-- Only headers in the list are read. -/
def StaysInList (s : State) : Prop :=
  ∀ header ∈ locksRead (pool_destroy s), ∃ b ∈ s.pool.list, header = some b

theorem Inv.destroysOnce (h : Inv s) (hidle : ∀ t, s.threads t = .outside) : DestroysOnce s := by
  have hmem : ∀ b, b ∈ s.pool.list ↔ b < s.made := by
    intro b
    refine ⟨h.list.listed b, fun hb => ?_⟩
    rcases h.list.place b hb with hlist | ⟨t, ht⟩
    · exact hlist
    · rw [hidle t] at ht
      cases ht
  refine ⟨?_, fun aid => ?_, ?_, fun b => ?_⟩
  · rw [pool_destroy, areasDeleted_loop]
    refine h.list.nodup.map_on fun b hb c hc hsame => ?_
    by_contra hne
    exact h.areas.aid b c ((hmem b).1 hb) ((hmem c).1 hc) hne hsame
  · rw [pool_destroy, areasDeleted_loop, mem_map]
    constructor
    · rintro ⟨b, hb, rfl⟩
      exact ⟨b, (hmem b).1 hb, rfl⟩
    · rintro ⟨b, hb, rfl⟩
      exact ⟨b, (hmem b).2 hb, rfl⟩
  · rw [pool_destroy, headersFreed_loop]
    exact h.list.nodup
  · rw [pool_destroy, headersFreed_loop]
    exact hmem b

theorem Inv.not_staysInList (h : Inv s) : ¬StaysInList s := by
  intro hstays
  obtain ⟨b, list, hlist⟩ := exists_cons_of_ne_nil h.list.nonempty
  have hnull : none ∈ locksRead (pool_destroy s) := by
    rw [pool_destroy, hlist, locksRead_loop]
    exact mem_append_right _ (mem_singleton_self none)
  obtain ⟨c, -, hc⟩ := hstays none hnull
  cases hc

/-! ## What holds of every run -/

/-- **The runs of a pool.** Blocks are handed out once, cleared, and inside areas, in every run;
`NULL` comes only from an area that could not be created just when no thread finds its new area used
up; and `pool_destroy()` deletes and frees everything once, but always reads behind the list. -/
theorem pool_runs {size : Nat} {c : Creation} {mem : Buffer} {as : List Act}
    (hinit : pool_init size c mem = some s₀) (hrun : exec step as s₀ = some s) :
    BlocksOk s ∧ Along HandsOutCleared as s₀ ∧ ((∀ t, s.threads t ≠ .carved none) →
        (Along (fun s a => ComesOutNull s a → AreaFailed a) as s₀ ↔
          Along (fun s a => ¬UsedUp s a) as s₀)) ∧
      ((∀ t, s.threads t = .outside) → DestroysOnce s ∧ ¬StaysInList s) := by
  obtain ⟨hinv₀, -, hidle₀⟩ := pool_init_inv hinit
  have hinv := exec_inv as hinv₀ hrun
  refine ⟨hinv.blocksOk, Along.of_inv (fun s a s' h _ => h.handsOutCleared) as hinv₀ hrun,
    fun hnone => null_iff as hrun (fun t => by simp [hidle₀ t]) hnone,
    fun hidle => ⟨hinv.destroysOnce hidle, hinv.not_staysInList⟩⟩

end Runs

/-! ## A pool of blocks of 512 bytes -/

section Example

open Reachable

def somePool : Option State := pool_init 512 (.area 1 65536) fun _ => 0

/-- A call of `pool_get()` that finds a block in the first area of the list. -/
def getFrom (t : Nat) : List Act :=
  [.enter t, .tryFreelist t, .lockRead t, .carve t, .unlockRead t, .clear t]

/-- The first thread empties the area, the second one makes another, and before it gets to it the
first one has emptied it as well. -/
def race : List Act :=
  (List.replicate 8 (getFrom 0)).flatten ++
    [.enter 1, .tryFreelist 1, .lockRead 1, .carve 1, .unlockRead 1, .createArea 1 (.area 2 131072),
      .publish 1] ++
    (List.replicate 8 (getFrom 0)).flatten ++ [.carveNew 1, .clear 1]

theorem somePool_some : ∃ s₀, somePool = some s₀ := Option.isSome_iff_exists.1 (by decide +kernel)

/-- A block is handed out; and the pool, deleted at once, deletes what it has but reads on. -/
theorem pool_runs_one :
    (∃ s₀ s, somePool = some s₀ ∧ exec step (getFrom 0) s₀ = some s ∧ s.out = [65536] ∧
      BlocksOk s ∧ Along HandsOutCleared (getFrom 0) s₀) ∧
    ∃ s₀, somePool = some s₀ ∧ DestroysOnce s₀ ∧ ¬StaysInList s₀ := by
  obtain ⟨s₀, hs₀⟩ := somePool_some
  constructor
  · have hout : (somePool.bind fun s => exec step (getFrom 0) s).map (fun s => s.out) =
        some [65536] := by decide +kernel
    rw [hs₀, Option.bind_some] at hout
    obtain ⟨s, hrun, hs⟩ := Option.map_eq_some_iff.1 hout
    obtain ⟨hblocks, hcleared, -⟩ := pool_runs hs₀ hrun
    exact ⟨s₀, s, hs₀, hrun, hs, hblocks, hcleared⟩
  · obtain ⟨-, -, -, hdestroy⟩ := @pool_runs s₀ s₀ _ _ _ [] hs₀ rfl
    exact ⟨s₀, hs₀, hdestroy (pool_init_inv hs₀).2.2⟩

/-- The second thread clears what `NULL` points to, although its area was created; and deleting the
pool, even before, reads what `NULL` points to. -/
theorem race_null : ∃ s₀ s, somePool = some s₀ ∧ exec step race s₀ = some s ∧
    s.threads 1 = .crashed ∧ ¬StaysInList s₀ := by
  obtain ⟨s₀, hs₀⟩ := somePool_some
  have hcrash : (somePool.bind fun s => exec step race s).map (fun s => s.threads 1) =
      some .crashed := by decide +kernel
  rw [hs₀, Option.bind_some] at hcrash
  obtain ⟨s, hrun, hs⟩ := Option.map_eq_some_iff.1 hcrash
  exact ⟨s₀, s, hs₀, hrun, hs, (pool_init_inv hs₀).1.not_staysInList⟩

end Example

end Pools
