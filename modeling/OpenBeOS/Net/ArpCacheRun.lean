import OpenBeOS.Lib.Ring
import OpenBeOS.Net.ArpCache

/-! # Runs of the ARP cache

As long as no entry expires and no link address changes in its last two bytes, the circular list
and the hash table hold the same entries, one for each address, with the link address of the last
packet from it.
-/

namespace Arp

open Bytes Nhash Chain List Option

/-! ## The cache and its entries -/

/-- The entry of the hash table for a cache entry. -/
def Cache.hashEntry (c : Cache) (ace : Nat) : Entry Nat Nat := ⟨hashOf (c.key ace) 4, ace, 4, ace⟩

/-- The list and the table hold the entries `order`, one for each address; all others are in the
pool, and none of these was given to `pool_put()`. -/
structure Consistent (c : Cache) (order : List Nat) : Prop where
  ring : Ring (fun ace => (c.entries ace).next) (fun ace => (c.entries ace).prev) c.arpcache order
  table : Holds c.arphash (order.map c.hashEntry)
  address : ∀ a ∈ order, ∀ b ∈ order, SameBytes (c.key a) (c.key b) 4 → a = b
  out : c.out.Perm order
  returned : c.returned = []
  freelist : c.freelist = none

/-- The entry of an address has the link address of the last packet from it, and an address without
a packet has no entry. -/
def UpToDate (c : Cache) (order : List Nat) (calls : List CacheCall) : Prop :=
  ∀ addr, match lastLink addr calls with
    | some link => ∃ ace ∈ order, SameBytes (c.key ace) addr 4 ∧
        SameBytes (c.entries ace).ll_addr link 6
    | none => ∀ ace ∈ order, ¬SameBytes (c.key ace) addr 4

section Lookup

variable {c : Cache} {order : List Nat} {addr : Buffer} {ace : Nat}

theorem matches_hashEntry : Matches c.key addr 4 (c.hashEntry ace) = true ↔
    SameBytes (c.key ace) addr 4 := by
  simp only [Matches, Cache.hashEntry, decide_eq_true_eq, true_and]
  exact ⟨And.right, fun h => ⟨hashOf_congr h, h⟩⟩

theorem Consistent.lookup_some (h : Consistent c order)
    (hget : nhash_get c.arphash c.key addr 4 = some ace) :
    ace ∈ order ∧ SameBytes (c.key ace) addr 4 := by
  obtain ⟨he, hfind, hval⟩ := map_eq_some_iff.1 hget
  obtain ⟨hmem, hmatch⟩ := find_entry_some h.table hfind
  obtain ⟨a, ha, rfl⟩ := mem_map.1 hmem
  obtain rfl : a = ace := hval
  exact ⟨ha, matches_hashEntry.1 hmatch⟩

theorem Consistent.find_none (h : Consistent c order)
    (hget : nhash_get c.arphash c.key addr 4 = none) : find_entry c.arphash c.key addr 4 = none ∧
    ∀ a ∈ order, ¬SameBytes (c.key a) addr 4 := by
  have hfind := map_eq_none_iff.1 hget
  refine ⟨hfind, fun a ha hsame => ?_⟩
  have hnone := find_entry_none h.table hfind (c.hashEntry a) (mem_map.2 ⟨a, ha, rfl⟩)
  rw [matches_hashEntry.2 hsame] at hnone
  cases hnone

theorem Consistent.lookup_eq (h : Consistent c order) (hace : ace ∈ order)
    (hsame : SameBytes (c.key ace) addr 4) : nhash_get c.arphash c.key addr 4 = some ace := by
  cases hget : nhash_get c.arphash c.key addr 4 with
  | none => exact absurd hsame ((h.find_none hget).2 ace hace)
  | some a =>
    obtain ⟨ha, hsame'⟩ := h.lookup_some hget
    rw [h.address a ha ace hace (hsame'.trans hsame.symm)]

end Lookup

/-! ## Updates of an entry -/

section Update

variable {c : Cache} {order : List Nat} {ace : Nat} {f : CacheEntry → CacheEntry}

theorem update_entries (c : Cache) (ace : Nat) (f : CacheEntry → CacheEntry) (a : Nat) :
    (c.update ace f).entries a = if a = ace then f (c.entries ace) else c.entries a :=
  Function.update_apply c.entries ace _ a

/-- The pointers and the address of the entry stay. -/
theorem Consistent.update (h : Consistent c order) (hnext : (f (c.entries ace)).next =
    (c.entries ace).next) (hprev : (f (c.entries ace)).prev = (c.entries ace).prev)
    (hip : (f (c.entries ace)).ip_addr = (c.entries ace).ip_addr) :
    Consistent (c.update ace f) order := by
  have hkey : ∀ a, (c.update ace f).key a = c.key a := by
    intro a
    rw [Cache.key, update_entries]
    split
    · rename_i heq
      rw [heq, hip]
      rfl
    · rfl
  have hentry : (c.update ace f).hashEntry = c.hashEntry := by
    funext a
    rw [Cache.hashEntry, hkey]
    rfl
  refine ⟨h.ring.congr (fun a _ => ?_) fun a _ => ?_, ?_, ?_, h.out, h.returned, h.freelist⟩
  · simp only [update_entries]
    split
    · rename_i heq
      rw [heq, hnext]
    · rfl
  · simp only [update_entries]
    split
    · rename_i heq
      rw [heq, hprev]
    · rfl
  · rw [hentry]
    exact h.table
  · intro a ha b hb hsame
    rw [hkey, hkey] at hsame
    exact h.address a ha b hb hsame

end Update

/-! ## The calls -/

section Calls

variable {c c' : Cache} {order : List Nat} {calls : List CacheCall}

/-- The entry at a place of the list. -/
def Cache.follow (c : Cache) : Nat → Option Nat
  | 0 => c.arpcache
  | i + 1 => (c.follow i).bind fun ace => (c.entries ace).next

/-- When a call keeps the cache right: no link address changes in its last two bytes, and no entry
that the cleanser comes to has expired. -/
def KeepsRight (c : Cache) : CacheCall → Prop
  | .packet link addr _ _ => ∀ ace, nhash_get c.arphash c.key addr 4 = some ace →
      (c.entries ace).ll_addr 4 = link 4 ∧ (c.entries ace).ll_addr 5 = link 5
  | .resolve _ _ => True
  | .cleanse clock _ => ∀ i, i < c.out.length → ∀ ace, c.follow i = some ace →
      clock i < (c.entries ace).expires

/-! ### A packet from a known address -/

variable {link addr : Buffer} {ace : Nat}

/-- Only the link address and the time of one entry change. -/
theorem UpToDate.update (h : UpToDate c order calls) {f : CacheEntry → CacheEntry}
    (hip : (f (c.entries ace)).ip_addr = (c.entries ace).ip_addr)
    (hll : (f (c.entries ace)).ll_addr = (c.entries ace).ll_addr) :
    UpToDate (c.update ace f) order calls := by
  have hkey : ∀ a, (c.update ace f).key a = c.key a := by
    intro a
    rw [Cache.key, update_entries]
    split
    · rename_i heq
      rw [heq, hip]
      rfl
    · rfl
  have hlink : ∀ a, ((c.update ace f).entries a).ll_addr = (c.entries a).ll_addr := by
    intro a
    rw [update_entries]
    split
    · rename_i heq
      rw [heq, hll]
    · rfl
  intro addr
  have hold := h addr
  simp only [hkey, hlink]
  exact hold

/-- The entry of the sender gets the new link address; the others keep theirs. -/
theorem UpToDate.packet (h : UpToDate c order calls) {order' : List Nat} {now fresh : Nat} (hace : ace ∈ order')
    (hkey : SameBytes (c'.key ace) addr 4) (hlink : SameBytes (c'.entries ace).ll_addr link 6)
    (hmem : ∀ a ∈ order, a ∈ order') (hmem' : ∀ a ∈ order', a ≠ ace → a ∈ order)
    (hotherKey : ∀ a ∈ order, a ≠ ace → c'.key a = c.key a)
    (hother : ∀ a ∈ order, a ≠ ace → (c'.entries a).ll_addr = (c.entries a).ll_addr)
    (hnew : ∀ a ∈ order, a = ace → SameBytes (c.key a) addr 4) :
    UpToDate c' order' (calls ++ [.packet link addr now fresh]) := by
  intro addr'
  rw [lastLink_snoc, CacheCall.linkFrom]
  have hold := h addr'
  by_cases hsame : SameBytes addr addr' 4
  · rw [if_pos hsame, some_or]
    exact ⟨ace, hace, hkey.trans hsame, hlink⟩
  · rw [if_neg hsame, none_or]
    cases hlast : lastLink addr' calls with
    | some link' =>
      rw [hlast] at hold
      obtain ⟨a, ha, hkeya, hlinka⟩ := hold
      have hne : a ≠ ace := by
        rintro rfl
        exact hsame ((hnew a ha rfl).symm.trans hkeya)
      refine ⟨a, hmem a ha, ?_, ?_⟩
      · rw [hotherKey a ha hne]
        exact hkeya
      · rw [hother a ha hne]
        exact hlinka
    | none =>
      rw [hlast] at hold
      intro a ha hsamea
      by_cases heq : a = ace
      · rw [heq] at hsamea
        exact hsame (hkey.symm.trans hsamea)
      · rw [hotherKey a (hmem' a ha heq) heq] at hsamea
        exact hold a (hmem' a ha heq) hsamea

theorem UpToDate.other (h : UpToDate c order calls) {call : CacheCall}
    (hcall : ∀ addr, call.linkFrom addr = none) : UpToDate c order (calls ++ [call]) := by
  intro addr
  rw [lastLink_snoc, hcall, none_or]
  exact h addr

/-! ### A packet from a known address -/

theorem sameBytes_link {ll link : Buffer} (h : ll 4 = link 4 ∧ ll 5 = link 5) :
    SameBytes (memcpy ll 0 link 0 4) link 6 := by
  intro i hi
  by_cases hlt : i < 4
  · rw [memcpy_inside (Nat.zero_le i) (by omega)]
    exact congrArg link (by omega)
  · rw [memcpy_outside (by omega)]
    obtain rfl | rfl : i = 4 ∨ i = 5 := by omega
    · exact h.1
    · exact h.2

section

variable (h : Consistent c order) (hup : UpToDate c order calls)
include h hup

theorem packet_known
    {now fresh ace : Nat} (hget : nhash_get c.arphash c.key addr 4 = some ace)
    (hkeeps : KeepsRight c (.packet link addr now fresh))
    (hcall : insert_cache_entry c link addr now fresh = some c') :
    Consistent c' order ∧ UpToDate c' order (calls ++ [.packet link addr now fresh]) := by
  obtain ⟨hace, hsame⟩ := h.lookup_some hget
  have hbytes := hkeeps ace hget
  unfold insert_cache_entry at hcall
  simp only [hget] at hcall
  split at hcall
  · cases hcall
    refine ⟨h.update rfl rfl rfl, ?_⟩
    have hentry := update_entries c ace fun e =>
      { e with ll_addr := memcpy e.ll_addr 0 link 0 4, expires := (now + arp_keep) % 2 ^ 32 }
    refine hup.packet hace ?_ ?_ (fun _ ha => ha) (fun _ ha _ => ha) ?_ ?_ ?_
    · rw [Cache.key, hentry, if_pos rfl]
      exact hsame
    · rw [hentry, if_pos rfl]
      exact sameBytes_link hbytes
    · intro a _ hne
      rw [Cache.key, hentry, if_neg hne]
      rfl
    · intro a _ hne
      rw [hentry, if_neg hne]
    · rintro a _ rfl
      exact hsame
  · rename_i hlink
    cases hcall
    refine ⟨h, hup.packet hace hsame (not_not.1 hlink) (fun _ ha => ha) (fun _ ha _ => ha)
      (fun _ _ _ => rfl) (fun _ _ _ => rfl) ?_⟩
    rintro a _ rfl
    exact hsame

/-! ### A lookup -/

theorem resolve_keeps (addr : Buffer)
    (now : Nat) : Consistent (arp_resolve c addr now).1 order ∧
      UpToDate (arp_resolve c addr now).1 order (calls ++ [.resolve addr now]) := by
  have hnone : ∀ addr', (CacheCall.resolve addr now).linkFrom addr' = none := fun _ => rfl
  unfold arp_resolve
  split
  · dsimp only
    exact ⟨h.update rfl rfl rfl, (hup.update rfl rfl).other hnone⟩
  · exact ⟨h, hup.other hnone⟩

theorem resolve_answer (addr : Buffer)
    (now : Nat) : match lastLink addr calls with
      | some link => ∃ ll, (arp_resolve c addr now).2 = some ll ∧ SameBytes ll link 6
      | none => (arp_resolve c addr now).2 = none := by
  have hold := hup addr
  cases hlast : lastLink addr calls with
  | some link =>
    rw [hlast] at hold
    obtain ⟨ace, hace, hkey, hlink⟩ := hold
    refine ⟨(c.entries ace).ll_addr, ?_, hlink⟩
    unfold arp_resolve
    rw [h.lookup_eq hace hkey]
  | none =>
    rw [hlast] at hold
    unfold arp_resolve
    cases hget : nhash_get c.arphash c.key addr 4 with
    | none => rfl
    | some ace =>
      obtain ⟨hace, hsame⟩ := h.lookup_some hget
      exact absurd hsame (hold ace hace)

end

/-! ### A packet from a new address -/

/-- The parts of an entry that are not pointers. -/
structure SameContents (e e' : CacheEntry) : Prop where
  ip_addr : e'.ip_addr = e.ip_addr
  ll_addr : e'.ll_addr = e.ll_addr
  sa_len : e'.sa_len = e.sa_len
  expires : e'.expires = e.expires

theorem SameContents.refl (e : CacheEntry) : SameContents e e := ⟨rfl, rfl, rfl, rfl⟩

theorem SameContents.trans {e e' e'' : CacheEntry} (h : SameContents e e')
    (h' : SameContents e' e'') : SameContents e e'' :=
  ⟨h'.ip_addr.trans h.ip_addr, h'.ll_addr.trans h.ll_addr, h'.sa_len.trans h.sa_len,
    h'.expires.trans h.expires⟩

theorem sameContents_update {f : CacheEntry → CacheEntry}
    (hf : ∀ e, SameContents e (f e)) (a : Nat) :
    SameContents (c.entries a) ((c.update ace f).entries a) := by
  rw [update_entries]
  split
  · rename_i heq
    rw [heq]
    exact hf _
  · exact .refl _

/-- Only the pointers change, and the head of an empty list. -/
structure Appended (c c' : Cache) (order : List Nat) (ace : Nat) : Prop where
  ring : Ring (fun a => (c'.entries a).next) (fun a => (c'.entries a).prev) c'.arpcache
    (order ++ [ace])
  contents : ∀ a, SameContents (c.entries a) (c'.entries a)
  arphash : c'.arphash = c.arphash
  out : c'.out = c.out
  returned : c'.returned = c.returned
  freelist : c'.freelist = c.freelist

theorem append_spec (h : Ring (fun a => (c.entries a).next)
    (fun a => (c.entries a).prev) c.arpcache order) (hace : ace ∉ order) :
    ∃ c', c.append ace = some c' ∧ Appended c c' order ace := by
  cases order with
  | nil =>
    have hhead : c.arpcache = none := h.head
    unfold Cache.append
    rw [hhead]
    refine ⟨_, rfl, ?_, fun a => ?_, rfl, rfl, rfl, rfl⟩
    · refine Ring.single ?_ ?_ <;>
      · show _ = some ace
        rw [update_entries, if_pos rfl]
    · exact @sameContents_update c ace (fun e => { e with next := some ace, prev := some ace })
        (fun e => ⟨rfl, rfl, rfl, rfl⟩) a
  | cons head rest =>
    have hhead : c.arpcache = some head := h.head
    rw [hhead] at h
    have hlast := h.prev_head
    have hne : (head :: rest) ≠ [] := cons_ne_nil head rest
    rw [List.getLast?_eq_getLast_of_ne_nil hne] at hlast
    have hmem := getLast_mem hne
    generalize (head :: rest).getLast hne = last at hlast hmem
    have hacehead : ace ≠ head := fun heq => hace (heq ▸ mem_cons_self)
    have hacelast : ace ≠ last := fun heq => hace (heq ▸ hmem)
    unfold Cache.append
    rw [hhead]
    simp only [hlast, bind_eq_bind, bind_some]
    refine ⟨_, rfl, ?_, fun a => ?_, rfl, rfl, rfl, rfl⟩
    · show Ring _ _ c.arpcache _
      rw [hhead]
      refine h.push hlast hace ?_ ?_ (fun y hy hne => ?_) ?_ ?_ (fun y hy hne => ?_)
      · by_cases heq : last = head <;> simp [update_entries, hacelast.symm, hacehead.symm, heq]
      · simp [update_entries, hacehead]
      · have hyace : y ≠ ace := fun heq => hace (heq ▸ hy)
        by_cases heq : y = head
        · rw [heq] at hne ⊢
          simp [update_entries, hacehead.symm, hne]
        · simp [update_entries, hyace, hne, heq]
      · simp [update_entries]
      · by_cases heq : last = head
        · simp [update_entries, hacehead, heq, hlast]
        · simp [update_entries, hacehead, Ne.symm heq, hlast]
      · have hyace : y ≠ ace := fun heq => hace (heq ▸ hy)
        by_cases heq : y = last
        · rw [heq] at hne ⊢
          simp [update_entries, hacelast.symm, hne]
        · simp [update_entries, hyace, hne, heq]
    · have hlinks : ∀ (c : Cache) (b : Nat) (next prev : CacheEntry → Option Nat),
          SameContents (c.entries a)
            ((c.update b fun e => { e with next := next e, prev := prev e }).entries a) :=
        fun c b next prev => @sameContents_update c b
          (fun e => { e with next := next e, prev := prev e }) (fun e => ⟨rfl, rfl, rfl, rfl⟩) a
      exact (hlinks c last (fun _ => some ace) CacheEntry.prev).trans <|
        (hlinks _ ace CacheEntry.next _).trans <|
        (hlinks _ ace (fun _ => some head) CacheEntry.prev).trans <|
        hlinks _ head CacheEntry.next fun _ => some ace

/-- What the new entry is before it comes into the list. -/
def newEntry (link addr : Buffer) (now : Nat) : CacheEntry :=
  { CacheEntry.zero with
    sa_len := sizeofSockaddrIn
    ip_addr := memcpy (fun _ => 0) 0 addr 0 4
    ll_addr := memcpy (fun _ => 0) 0 link 0 6
    expires := (now + arp_keep) % 2 ^ 32 }

theorem sameBytes_memcpy (b : Buffer) (n : Nat) : SameBytes (memcpy (fun _ => 0) 0 b 0 n) b n := by
  intro i hi
  rw [memcpy_inside (Nat.zero_le i) (by omega)]
  exact congrArg b (by omega)

theorem packet_new (h : Consistent c order) (hup : UpToDate c order calls)
    {now fresh : Nat} (hget : nhash_get c.arphash c.key addr 4 = none) (hout : fresh ∉ c.out) :
    ∃ c', insert_cache_entry c link addr now fresh = some c' ∧ ∃ order', Consistent c' order' ∧
        UpToDate c' order' (calls ++ [.packet link addr now fresh]) := by
  obtain ⟨-, hnoEntry⟩ := h.find_none hget
  have hfresh : fresh ∉ order := fun hmem => hout (h.out.mem_iff.2 hmem)
  generalize hc₁ : ({ c with out := fresh :: c.out } : Cache).update fresh
    (fun _ => newEntry link addr now) = c₁
  have hentries₁ : ∀ a, c₁.entries a = if a = fresh then newEntry link addr now else c.entries a :=
    fun a => by rw [← hc₁, update_entries]
  have hold₁ : ∀ a ∈ order, c₁.entries a = c.entries a := fun a ha => by
    have hne : a ≠ fresh := fun heq => hfresh (heq ▸ ha)
    rw [hentries₁, if_neg hne]
  have hring₁ : Ring (fun a => (c₁.entries a).next) (fun a => (c₁.entries a).prev) c₁.arpcache
      order := by
    have hhead : c₁.arpcache = c.arpcache := by rw [← hc₁]; rfl
    rw [hhead]
    exact h.ring.congr (fun a ha => by rw [hold₁ a ha]) fun a ha => by rw [hold₁ a ha]
  obtain ⟨c₂, hc₂, happended⟩ := append_spec hring₁ hfresh
  -- the addresses and link addresses in the new cache
  have hkey : ∀ a ∈ order, c₂.key a = c.key a := fun a ha => by
    rw [Cache.key, (happended.contents a).ip_addr, hold₁ a ha]
    rfl
  have hnewKey : SameBytes (c₂.key fresh) addr 4 := by
    rw [Cache.key, (happended.contents fresh).ip_addr, hentries₁, if_pos rfl]
    exact sameBytes_memcpy addr 4
  have hnewLink : SameBytes (c₂.entries fresh).ll_addr link 6 := by
    rw [(happended.contents fresh).ll_addr, hentries₁, if_pos rfl]
    exact sameBytes_memcpy link 6
  have hhash₂ : c₂.arphash = c.arphash := by
    rw [happended.arphash, ← hc₁]
    rfl
  have hmade : insert_cache_entry c link addr now fresh = (c₁.append fresh).bind fun c =>
      some { c with arphash := nhash_set c.arphash c.key fresh 4 (some fresh) } := by
    have hpool : c.pool_get fresh = some ({ c with out := fresh :: c.out }, fresh) := by
      unfold Cache.pool_get
      split
      · rename_i heq
        cases h.freelist.symm.trans heq
      · rw [if_neg hout]
    unfold insert_cache_entry
    simp only [hget, hpool, bind_eq_bind, bind_some]
    rw [← hc₁]
    rfl
  rw [hmade, hc₂, bind_some, hhash₂]
  refine ⟨_, rfl, ?_⟩
  -- the new entry is not in the table yet
  have hfind : find_entry c.arphash c₂.key (c₂.key fresh) 4 = none := by
    cases hfound : find_entry c.arphash c₂.key (c₂.key fresh) 4 with
    | none => rfl
    | some he =>
      obtain ⟨hmem, hmatch⟩ := find_entry_some h.table hfound
      obtain ⟨a, ha, rfl⟩ := mem_map.1 hmem
      simp only [Matches, Cache.hashEntry, decide_eq_true_eq, true_and, hkey a ha] at hmatch
      exact absurd (hmatch.2.trans hnewKey) (hnoEntry a ha)
  have hsameEntries : order.map c₂.hashEntry = order.map c.hashEntry :=
    map_congr_left fun a ha => by rw [Cache.hashEntry, hkey a ha]; rfl
  have htable := (@Holds.nhash_set _ _ _ _ _ 4 _ fresh h.table hfind).perm
    (@perm_append_comm _ [c₂.hashEntry fresh] _)
  rw [← hsameEntries, ← map_singleton, ← map_append] at htable
  refine ⟨order ++ [fresh], ⟨happended.ring, htable, ?_, ?_, ?_, ?_⟩, ?_⟩
  · intro a ha b hb hsame
    rcases mem_append.1 ha with ha | ha <;> rcases mem_append.1 hb with hb | hb
    · change SameBytes (c₂.key a) (c₂.key b) 4 at hsame
      rw [hkey a ha, hkey b hb] at hsame
      exact h.address a ha b hb hsame
    · change SameBytes (c₂.key a) (c₂.key b) 4 at hsame
      rw [hkey a ha, mem_singleton.1 hb] at hsame
      exact absurd (hsame.trans hnewKey) (hnoEntry a ha)
    · change SameBytes (c₂.key a) (c₂.key b) 4 at hsame
      rw [hkey b hb, mem_singleton.1 ha] at hsame
      exact absurd (hsame.symm.trans hnewKey) (hnoEntry b hb)
    · rw [mem_singleton.1 ha, mem_singleton.1 hb]
  · show c₂.out.Perm _
    have hout₂ : c₂.out = fresh :: c.out := by
      rw [happended.out, ← hc₁]
      rfl
    rw [hout₂]
    exact (h.out.cons fresh).trans (@perm_append_comm _ [fresh] _)
  · show c₂.returned = []
    rw [happended.returned, ← hc₁]
    exact h.returned
  · show c₂.freelist = none
    rw [happended.freelist, ← hc₁]
    exact h.freelist
  · refine hup.packet (mem_append_right _ (mem_singleton_self fresh)) hnewKey hnewLink
      (fun a ha => mem_append_left _ ha) (fun a ha hne => ?_) (fun a ha _ => hkey a ha)
      (fun a ha _ => ?_) ?_
    · rcases mem_append.1 ha with ha | ha
      · exact ha
      · exact absurd (mem_singleton.1 ha) hne
    · show (c₂.entries a).ll_addr = (c.entries a).ll_addr
      rw [(happended.contents a).ll_addr, hold₁ a ha]
    · rintro a ha rfl
      exact absurd ha hfresh

/-! ### A run of the cleanser -/

/-- As long as nothing has expired, the loop goes through the rest of the list and changes
nothing. -/
theorem cleanseLoop_keeps {clock : Nat → Nat}
    (hexpires : ∀ i, i < c.out.length → ∀ ace, c.follow i = some ace →
      clock i < (c.entries ace).expires) :
    ∀ (xs : List Nat) {fuel i x : Nat}, Leads (fun a => (c.entries a).next) (some x) (x :: xs)
      c.arpcache → c.follow i = some x → i + xs.length < c.out.length → xs.length < fuel →
        cleanseLoop clock fuel i (some x) c = some c := by
  intro xs
  induction xs with
  | nil =>
    intro fuel i x hleads hfollow hlen hfuel
    obtain ⟨fuel, rfl⟩ := Nat.exists_eq_succ_of_ne_zero (show fuel ≠ 0 by omega)
    have hlt := hexpires i (by omega) x hfollow
    have hend : (c.entries x).next = c.arpcache := hleads.2
    simp only [cleanseLoop]
    rw [if_neg (by omega), if_pos hend]
  | cons y ys ih =>
    intro fuel i x hleads hfollow hlen hfuel
    rw [length_cons] at hlen hfuel
    obtain ⟨fuel, rfl⟩ := Nat.exists_eq_succ_of_ne_zero (show fuel ≠ 0 by omega)
    have hlt := hexpires i (by omega) x hfollow
    have hnext : (c.entries x).next = some y := hleads.2.1
    have hfollow' : c.follow (i + 1) = some y := by
      rw [Cache.follow, hfollow]
      exact hnext
    have hrest := @ih fuel (i + 1) y ⟨rfl, hleads.2.2⟩ hfollow' (by omega) (by omega)
    simp only [cleanseLoop]
    rw [if_neg (by omega), hnext]
    split
    · rfl
    · exact hrest

theorem cleanse_keeps (h : Consistent c order) {clock : Nat → Nat} {fuel : Nat}
    (hkeeps : KeepsRight c (.cleanse clock fuel)) (hfuel : c.out.length < fuel) :
    arp_cleanse c clock fuel = some c := by
  have hlength := h.out.length_eq
  have hhead := h.ring.head
  unfold arp_cleanse
  cases order with
  | nil =>
    rw [show c.arpcache = none from hhead]
    obtain ⟨fuel, rfl⟩ := Nat.exists_eq_succ_of_ne_zero (show fuel ≠ 0 by omega)
    rfl
  | cons x xs =>
    have hhead : c.arpcache = some x := hhead
    have hleads := h.ring.next
    rw [length_cons] at hlength
    conv_lhs => rw [hhead]
    refine cleanseLoop_keeps hkeeps xs ?_ hhead (by omega) (by omega)
    rw [hhead]
    exact hleads

/-! ## Runs -/

/-- The pool has a block that is not in use, and the cleanser gets time for the whole list. -/
def Possible (c : Cache) : CacheCall → Prop
  | .packet _ _ _ fresh => fresh ∉ c.out
  | .resolve _ _ => True
  | .cleanse _ fuel => c.out.length < fuel

/-- **Every call that keeps the cache right comes back, and the cache is right behind it.** -/
theorem call_keeps (h : Consistent c order) (hup : UpToDate c order calls) {call : CacheCall}
    (hkeeps : KeepsRight c call) (hpossible : Possible c call) :
    ∃ c', c.call call = some c' ∧
      ∃ order', Consistent c' order' ∧ UpToDate c' order' (calls ++ [call]) := by
  cases call with
  | packet link addr now fresh =>
    cases hget : nhash_get c.arphash c.key addr 4 with
    | some ace =>
      obtain ⟨c', hcall⟩ : ∃ c', insert_cache_entry c link addr now fresh = some c' := by
        unfold insert_cache_entry
        simp only [hget]
        split
        · exact ⟨_, rfl⟩
        · exact ⟨_, rfl⟩
      exact ⟨c', hcall, order, packet_known h hup hget hkeeps hcall⟩
    | none => exact packet_new h hup hget hpossible
  | resolve addr now => exact ⟨_, rfl, order, resolve_keeps h hup addr now⟩
  | cleanse clock fuel =>
    exact ⟨c, cleanse_keeps h hkeeps hpossible, order, h, hup.other fun _ => rfl⟩

end Calls

/-- A cache after some calls, all of which keep it right. -/
inductive KeptRun : List CacheCall → Cache → Prop where
  | init : KeptRun [] .empty
  | step {calls : List CacheCall} {c c' : Cache} {call : CacheCall} : KeptRun calls c →
      KeepsRight c call → Possible c call → c.call call = some c' → KeptRun (calls ++ [call]) c'

theorem empty_consistent : Consistent .empty [] :=
  ⟨Ring.nil _ _, nhash_make_holds, nofun, List.Perm.refl [], rfl, rfl⟩

/-- **The cache is right after every such run.** -/
theorem KeptRun.right {calls : List CacheCall} {c : Cache} (run : KeptRun calls c) :
    ∃ order, Consistent c order ∧ UpToDate c order calls := by
  induction run with
  | init => exact ⟨[], empty_consistent, fun _ => nofun⟩
  | step _ hkeeps hpossible hcall ih =>
    obtain ⟨order, h, hup⟩ := ih
    obtain ⟨c', hcall', hright⟩ := call_keeps h hup hkeeps hpossible
    cases hcall.symm.trans hcall'
    exact hright

/-- The list and the table hold the same entries in every state of a run, one for each address; the
pool has none of them back. A lookup answers with the link address of the last packet, and the next
call that keeps the cache right comes back. -/
theorem cache_runs {calls : List CacheCall} {c : Cache} (run : KeptRun calls c) :
    (∃ order, Ring (fun ace => (c.entries ace).next) (fun ace => (c.entries ace).prev) c.arpcache
        order ∧ Holds c.arphash (order.map c.hashEntry) ∧
      (∀ a ∈ order, ∀ b ∈ order, SameBytes (c.key a) (c.key b) 4 → a = b) ∧
      c.out.Perm order ∧ c.returned = []) ∧
    (∀ addr now, match lastLink addr calls with
      | some link => ∃ ll, (arp_resolve c addr now).2 = some ll ∧ SameBytes ll link 6
      | none => (arp_resolve c addr now).2 = none) ∧
    ∀ call, KeepsRight c call → Possible c call → ∃ c', c.call call = some c' := by
  obtain ⟨order, h, hup⟩ := run.right
  refine ⟨⟨order, h.ring, h.table, h.address, h.out, h.returned⟩, ?_, ?_⟩
  · exact resolve_answer h hup
  · intro call hkeeps hpossible
    obtain ⟨c', hcall, -⟩ := call_keeps h hup hkeeps hpossible
    exact ⟨c', hcall⟩

/-! ## Examples of runs -/

def bytes (l : List UInt8) : Buffer := fun i => l.getD i 0

def firstSender : Buffer := bytes [10, 0, 0, 1]

def secondSender : Buffer := bytes [10, 0, 0, 2]

def oldLink : Buffer := bytes [2, 0, 0, 0, 0, 1]

def newLink : Buffer := bytes [2, 0, 0, 0, 0, 2]

def runCalls (calls : List CacheCall) : Option Cache := calls.foldlM Cache.call .empty

/-- A packet and a run of the cleanser that comes too early for it. -/
def onePacket : List CacheCall := [.packet oldLink firstSender 0 0, .cleanse (fun _ => 1199) 2]

theorem cache_runs_one : ∃ c ll, runCalls onePacket = some c ∧
    (arp_resolve c firstSender 1200).2 = some ll ∧ SameBytes ll oldLink 6 := by
  have hrun : KeptRun (onePacket.take 1) ((runCalls (onePacket.take 1)).getD .empty) := by
    refine @KeptRun.step [] _ _ _ .init (fun ace hget => ?_) nofun rfl
    cases hget
  have hrun : KeptRun onePacket ((runCalls onePacket).getD .empty) := by
    refine @KeptRun.step (onePacket.take 1) _ _ _ hrun (fun i hi ace hace => ?_)
      (show 1 < 2 by decide) rfl
    obtain rfl : i = 0 := Nat.lt_one_iff.1 hi
    obtain rfl : 0 = ace := Option.some.inj hace
    decide +kernel
  obtain ⟨ll, hll, hsame⟩ := (cache_runs hrun).2.1 firstSender 1200
  exact ⟨_, ll, rfl, hll, hsame⟩

/-- The second packet brings a link address that differs in its last byte. -/
def twoLinks : List CacheCall := [.packet oldLink firstSender 0 0, .packet newLink firstSender 1 1]

/-- The first of two entries expires 600 seconds before the second. -/
def twoSenders : List CacheCall :=
  [.packet oldLink firstSender 0 0, .packet newLink secondSender 600 1]

/-- A lookup answers with the old last byte. When the first entry expires, it stays in the table and
the pool gets the other one, which the list still begins with; the cleanser goes on with that one and
follows the null pointer in it. -/
theorem cache_goes_wrong : (lastLink firstSender twoLinks = some newLink ∧
      ((runCalls twoLinks).bind fun c => (arp_resolve c firstSender 2).2.map (· 5)) = some 1) ∧
    (((runCalls twoSenders).bind fun c => c.expire 0).map fun r => (r.1.returned, r.1.arpcache,
      nhash_get r.1.arphash r.1.key firstSender 4)) = some ([1], some 1, some 0) ∧
    ∀ fuel, ((runCalls twoSenders).bind fun c => arp_cleanse c (fun _ => 1200) fuel) = none := by
  refine ⟨⟨rfl, ?_⟩, ?_, fun fuel => ?_⟩
  · decide +kernel
  · decide +kernel
  · match fuel with
    | 0 => rfl
    | 1 => rfl
    | fuel + 2 => rfl

end Arp
