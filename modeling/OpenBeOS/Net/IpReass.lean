import OpenBeOS.Net.IpFragments

/-! # Reassembly undoes fragmentation

The queue of a datagram holds the fragments that have arrived, in the order in which `ip_off` puts
them; a second copy is dropped. `ip_off` is an `int16`: where the data of the last fragment begins
in its upper half, that fragment is in front of the first one and the datagram is never whole.
Otherwise the last fragment that is missed completes it, and its header length is the one the
protocol is told.
-/

namespace Ipv4

open Pieces List

/-- Where `ip_reass()` puts a packet. -/
abbrev Packet.begins (p : Packet) : Int := p.frag.ip_off

/-- The packets of a datagram: no two of them overlap. -/
structure Apart (ps : List Packet) : Prop where
  le : ∀ p ∈ ps, ∀ q ∈ ps, p.begins < q.begins → p.begins + p.frag.ip_len ≤ q.begins
  eq : ∀ p ∈ ps, ∀ q ∈ ps, p.begins = q.begins → p = q

/-- The queue has these packets. -/
structure Holds (ps : List Packet) (frags : List Frag) (qs : List Packet) : Prop where
  frags_eq : frags = qs.map Packet.frag
  sorted : qs.Pairwise fun p q => p.begins ≤ q.begins
  mem : ∀ q ∈ qs, q ∈ ps

/-! ## A fragment finds its place -/

section Reass

variable {ps qs : List Packet} {frags : List Frag} {x : Packet}

theorem begins_le_comp (x : Packet) :
    (fun q : Frag => decide (q.ip_off ≤ x.frag.ip_off)) ∘ Packet.frag =
      fun q : Packet => decide (q.begins ≤ x.begins) := by
  funext q
  simp only [Function.comp_apply]

theorem takeWhile_frags (x : Packet) (qs : List Packet) :
    (qs.map Packet.frag).takeWhile (fun q => decide (q.ip_off ≤ x.frag.ip_off)) =
      (qs.takeWhile fun q => decide (q.begins ≤ x.begins)).map Packet.frag := by
  rw [takeWhile_map, begins_le_comp]

theorem dropWhile_frags (x : Packet) (qs : List Packet) :
    (qs.map Packet.frag).dropWhile (fun q => decide (q.ip_off ≤ x.frag.ip_off)) =
      (qs.dropWhile fun q => decide (q.begins ≤ x.begins)).map Packet.frag := by
  rw [dropWhile_map, begins_le_comp]

/-- A second copy of a fragment is dropped. -/
theorem ip_reass_again (hps : Apart ps) (hq : Holds ps frags qs) (hx : x ∈ qs)
    (hlen : 0 < x.frag.ip_len) : ip_reass x.frag frags = .dropped := by
  have hmem : x ∈ qs.takeWhile fun q => decide (q.begins ≤ x.begins) := by
    rw [← takeWhile_append_dropWhile (p := fun q : Packet => decide (q.begins ≤ x.begins))
      (l := qs)] at hx
    rcases mem_append.mp hx with h | h
    · exact h
    · exact absurd (off_lt_of_mem_dropWhile hq.sorted h) (lt_irrefl _)
  obtain ⟨q, hlast⟩ := Option.isSome_iff_exists.mp
    (List.getLast?_isSome.mpr (ne_nil_of_mem hmem))
  have hlastMem := mem_of_getLast? hlast
  have hsorted := hq.sorted.sublist (takeWhile_sublist fun q => decide (q.begins ≤ x.begins))
  have hle := off_le_getLast? hsorted hmem hlast
  have hge := off_le_of_mem_takeWhile hlastMem
  have hmemq := (takeWhile_sublist _).subset hlastMem
  obtain rfl : q = x := hps.eq q (hq.mem q hmemq) x (hq.mem x hx) (by omega)
  have htrim : trimNew (some q.frag) q.frag = none := by
    unfold trimNew
    dsimp only
    rw [if_pos (by omega), if_pos (by omega)]
  unfold ip_reass
  dsimp only
  rw [hq.frags_eq, takeWhile_frags, List.getLast?_map, hlast, Option.map_some, htrim]

/-- A new fragment is put in its place, with nothing cut off. -/
theorem ip_reass_new (hps : Apart ps) (hq : Holds ps frags qs) (hx : x ∈ ps)
    (hnew : x ∉ qs ∨ x.frag.ip_len ≤ 0) :
    ip_reass x.frag frags = complete x.host.key ((place Packet.begins x qs).map Packet.frag) := by
  have htrim : trimNew ((qs.takeWhile fun q => decide (q.begins ≤ x.begins)).map
      Packet.frag).getLast? x.frag = some x.frag := by
    rw [List.getLast?_map]
    cases hlast : (qs.takeWhile fun q => decide (q.begins ≤ x.begins)).getLast? with
    | none => rfl
    | some q =>
      have hmem := mem_of_getLast? hlast
      have hle := off_le_of_mem_takeWhile hmem
      have hmemq := (takeWhile_sublist _).subset hmem
      unfold trimNew
      dsimp only [Option.map_some]
      rw [if_neg]
      show ¬ q.begins + q.frag.ip_len - x.begins > 0
      by_cases heq : q.begins = x.begins
      · obtain rfl := hps.eq q (hq.mem q hmemq) x hx heq
        rcases hnew with hnew | hnew
        · exact absurd hmemq hnew
        · omega
      · have := hps.le q (hq.mem q hmemq) x hx (by omega)
        omega
  have hold : trimOld x.frag ((qs.dropWhile fun q => decide (q.begins ≤ x.begins)).map Packet.frag) =
      (qs.dropWhile fun q => decide (q.begins ≤ x.begins)).map Packet.frag := by
    cases hdrop : qs.dropWhile fun q => decide (q.begins ≤ x.begins) with
    | nil => rfl
    | cons q rest =>
      have hmem : q ∈ qs.dropWhile fun q => decide (q.begins ≤ x.begins) := by
        rw [hdrop]
        exact mem_cons_self ..
      have hlt := off_lt_of_mem_dropWhile hq.sorted hmem
      have hmemq := (dropWhile_sublist _).subset hmem
      have := hps.le x hx q (hq.mem q hmemq) hlt
      rw [map_cons, trimOld, if_neg]
      show ¬ x.begins + x.frag.ip_len > q.begins
      omega
  unfold ip_reass
  dsimp only
  rw [hq.frags_eq, takeWhile_frags, dropWhile_frags, htrim]
  dsimp only
  rw [hold, ← map_cons, ← map_append]
  rfl

theorem Holds.place (hq : Holds ps frags qs) (hx : x ∈ ps) :
    Holds ps ((place Packet.begins x qs).map Packet.frag) (place Packet.begins x qs) := by
  refine ⟨rfl, place_sorted x hq.sorted, ?_⟩
  intro q hmem
  rcases mem_cons.mp ((place_perm x qs).mem_iff.mp hmem) with rfl | hmem
  · exact hx
  · exact hq.mem q hmem

/-! ## The fragments are complete -/

theorem follow_frags (n : Int) (qs : List Packet) :
    (∃ next, follow n (qs.map Packet.frag) = some next) ↔
      Consecutive Packet.begins (fun p => p.frag.ip_len) n qs := by
  induction qs generalizing n with
  | nil => exact ⟨fun _ => trivial, fun _ => ⟨n, rfl⟩⟩
  | cons q qs ih =>
    rw [map_cons, follow, Consecutive]
    by_cases hoff : q.frag.ip_off = n
    · rw [if_neg (not_not_intro hoff)]
      exact (ih _).trans (and_iff_right hoff).symm
    · rw [if_pos hoff]
      constructor
      · rintro ⟨next, h⟩
        cases h
      · rintro ⟨h, -⟩
        exact absurd h hoff

theorem complete_waits (key : Key) {qs : List Packet}
    (h : Consecutive Packet.begins (fun p => p.frag.ip_len) 0 qs →
      ∀ l, qs.getLast? = some l → l.frag.ipf_mff = true) :
    complete key (qs.map Packet.frag) = .waits (qs.map Packet.frag) := by
  unfold complete
  rw [List.head?_map, List.getLast?_map]
  cases hfollow : follow 0 (qs.map Packet.frag) with
  | none => rfl
  | some next =>
    have hmff := h ((follow_frags 0 _).mp ⟨next, hfollow⟩)
    cases hlast : qs.getLast? with
    | none => cases qs.head? <;> rfl
    | some l =>
      cases qs.head? with
      | none => rfl
      | some q => exact if_pos (hmff l hlast)

theorem complete_whole (key : Key) {q : Packet} {qs : List Packet}
    (h : Consecutive Packet.begins (fun p => p.frag.ip_len) 0 qs) {l : Packet}
    (hq : qs.head? = some q) (hl : qs.getLast? = some l) (hmff : l.frag.ipf_mff = false) :
    ∃ next : Int, complete key (qs.map Packet.frag) = .whole { q.host with
        ip_len := (next % 65536).toNat, ip_src := key.ip_src, ip_dst := key.ip_dst }
        (qs.flatMap Packet.data) := by
  obtain ⟨next, hfollow⟩ := (follow_frags 0 _).mpr h
  refine ⟨next, ?_⟩
  have hdata : (qs.map Packet.frag).flatMap Frag.data = qs.flatMap Packet.data := by
    rw [flatMap_map]
    rfl
  unfold complete
  rw [List.head?_map, List.getLast?_map, hfollow, hq, hl, hdata]
  have hnot : ¬ l.frag.ipf_mff = true := by
    rw [hmff]
    exact Bool.false_ne_true
  exact if_neg hnot

end Reass

/-! ## The fragments of a datagram -/

section Fragments

variable {d : Datagram} {if_mtu len : Nat} {ps : List Packet}

theorem Fragments.begins_eq (h : Fragments d if_mtu len 0 ps) {p : Packet} (hp : p ∈ ps) :
    p.begins = int16 p.off ∧ p.frag.ip_len = int16 p.data.length := by
  obtain ⟨mf, hfrag, -, -⟩ := h.isFragment p hp
  exact ⟨hfrag.frag_off, hfrag.frag_len⟩

/-- In `int16`s they do not overlap either. -/
theorem Fragments.apart (h : Fragments d if_mtu len 0 ps) : Apart ps := by
  have hlen := d.len_eq
  have hle := d.len_le
  constructor
  · intro p hp q hq hbegins
    have hpend := h.end_le p hp
    have hqend := h.end_le q hq
    rw [(h.begins_eq hp).1, (h.begins_eq hq).1] at hbegins ⊢
    rw [(h.begins_eq hp).2]
    rcases lt_trichotomy p.off q.off with hoff | hoff | hoff
    · have := h.apart_off hp hq hoff
      unfold int16 at hbegins ⊢
      omega
    · rw [hoff] at hbegins
      exact absurd hbegins (lt_irrefl _)
    · have := h.apart_off hq hp hoff
      unfold int16 at hbegins ⊢
      omega
  · intro p hp q hq hbegins
    have hpend := h.end_le p hp
    have hqend := h.end_le q hq
    rw [(h.begins_eq hp).1, (h.begins_eq hq).1] at hbegins
    apply h.eq_of_off hp hq
    unfold int16 at hbegins
    omega

variable {frags : List Frag} {qs : List Packet}

/-- The last fragment begins in the upper half of an `int16`: nothing is ever complete. -/
theorem Fragments.never_complete (h : Fragments d if_mtu len 0 ps) (hpos : 0 < len)
    (hupper : 32768 ≤ (d.data.length - 1) / len * len) (key : Key) (hq : Holds ps frags qs) :
    complete key (qs.map Packet.frag) = .waits (qs.map Packet.frag) := by
  obtain ⟨l, hl, hoff, hiff⟩ := h.last_iff (Nat.dvd_zero len) hpos
  have hdlen := d.len_eq
  have hle := d.len_le
  refine complete_waits key fun hcons q hlast => ?_
  by_contra hmff
  have hmem := mem_of_getLast? hlast
  obtain rfl : q = l := (hiff q (hq.mem q hmem)).mp (Bool.eq_false_iff.mpr hmff)
  cases qs with
  | nil => cases hmem
  | cons p qs =>
    -- the first one begins at 0, in front of the last one
    have hfirst : p.begins = 0 := hcons.1
    have hsorted := off_le_getLast? hq.sorted (mem_cons_self ..) hlast
    have hend := h.end_le q (hq.mem q hmem)
    have hbegins := (h.begins_eq (hq.mem q hmem)).1
    rw [hoff] at hend
    rw [hoff, int16_upper (by omega) (by omega)] at hbegins
    omega

/-- The last fragment begins in the lower half: then the `int16`s are the numbers that are meant. -/
theorem Fragments.begins_lower (h : Fragments d if_mtu len 0 ps) (hpos : 0 < len) (htwo : len < d.data.length)
    (hlower : (d.data.length - 1) / len * len < 32768) {p : Packet} (hp : p ∈ ps) :
    p.begins = p.off ∧ p.frag.ip_len = p.data.length := by
  obtain ⟨mf, hfrag, hlen, -⟩ := h.isFragment p hp
  obtain ⟨hbegins, hfraglen⟩ := h.begins_eq hp
  have hend := h.end_le p hp
  have hlen32 : len < 32768 := by
    have := Nat.div_le_div_right (c := len) (show len ≤ d.data.length - 1 by omega)
    rw [Nat.div_self hpos] at this
    have := Nat.mul_le_mul_right len this
    omega
  have hoff : p.off < 32768 := by
    have hpend : p.off ≤ d.data.length - 1 := by
      have := length_pos_iff.mpr hfrag.data_ne
      omega
    obtain ⟨l, hl, hloff, -⟩ := h.last_iff (Nat.dvd_zero len) hpos
    have hsorted := (h.consecutive.sorted h.length_pos).imp fun hlt => le_of_lt hlt
    have := off_le_getLast? hsorted hp hl
    omega
  rw [hbegins, hfraglen]
  exact ⟨int16_eq (by omega) (by omega), int16_eq (by omega) (by omega)⟩

/-- The numbers of all packets are the ones that are meant. -/
def Lower (ps : List Packet) : Prop := ∀ p ∈ ps, p.begins = p.off ∧ p.frag.ip_len = p.data.length

theorem Holds.strict (h : Apart ps) (hq : Holds ps frags qs)
    (hnodup : qs.Nodup) : qs.Pairwise fun p q => p.begins < q.begins := by
  refine (hq.sorted.and hnodup).imp_of_mem ?_
  rintro p q hp hq' ⟨hle, hne⟩
  have := h.eq p (hq.mem p hp) q (hq.mem q hq')
  by_contra hlt
  exact hne (this (by omega))

theorem Fragments.strict (h : Fragments d if_mtu len 0 ps) (hlower : Lower ps) :
    ps.Pairwise fun p q => p.begins < q.begins := by
  refine (h.consecutive.sorted h.length_pos).imp_of_mem ?_
  intro p q hp hq hlt
  rw [(hlower p hp).1, (hlower q hq).1]
  exact hlt

/-- What has arrived is complete just if all fragments are there. -/
theorem Fragments.complete_spec (h : Fragments d if_mtu len 0 ps) (hpos : 0 < len)
    (hlower : Lower ps) (key : Key) (hq : Holds ps frags qs)
    (hnodup : qs.Nodup) {first : Packet} (hfirst : ps.head? = some first) :
    (∀ p ∈ ps, p ∈ qs) ∧ (∃ next : Int, complete key (qs.map Packet.frag) = .whole { first.host with
          ip_len := (next % 65536).toNat, ip_src := key.ip_src, ip_dst := key.ip_dst } d.data) ∨
      (¬ ∀ p ∈ ps, p ∈ qs) ∧ complete key (qs.map Packet.frag) = .waits (qs.map Packet.frag) := by
  obtain ⟨l, hl, -, hiff⟩ := h.last_iff (Nat.dvd_zero len) hpos
  have hsub : qs ⊆ ps := fun q hmem => hq.mem q hmem
  have hstrict := hq.strict h.apart hnodup
  have hcons : Consecutive Packet.begins (fun p => p.frag.ip_len) 0 qs ↔
      Consecutive (fun p : Packet => (p.off : Int)) (fun p => (p.data.length : Int)) 0 qs :=
    consecutive_congr fun q hmem => hlower q (hsub hmem)
  by_cases hall : ∀ p ∈ ps, p ∈ qs
  · obtain rfl : qs = ps := eq_of_sorted hstrict (h.strict hlower) hsub hall
    obtain ⟨next, heq⟩ := complete_whole key (hcons.mpr h.consecutive) hfirst hl
      ((hiff l (mem_of_getLast? hl)).mpr rfl)
    rw [h.data_eq] at heq
    exact Or.inl ⟨hall, next, heq⟩
  · refine Or.inr ⟨hall, complete_waits key fun hqcons q hlast => ?_⟩
    -- without a gap and with the last fragment they would be all of them
    by_contra hmff
    have hmem := mem_of_getLast? hlast
    obtain rfl : q = l := (hiff q (hsub hmem)).mp (Bool.eq_false_iff.mpr hmff)
    have hlsub := sublist_of_sorted hstrict (h.strict hlower) hsub
    have heq := h.consecutive.eq_of_sublist h.length_pos (hcons.mp hqcons) hlsub
      (fun p hp => by
        rw [hl] at hp
        cases hp
        exact hmem)
    exact hall fun p hp => heq ▸ hp

end Fragments

end Ipv4
