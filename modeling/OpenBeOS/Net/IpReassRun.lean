import OpenBeOS.Net.IpReass

/-! # Reassembly over a run

The queues of different datagrams do not touch each other, so that of a run only the fragments of a
datagram count for it. They are collected: whenever the last one that is missed has come, the
datagram is handed up and its queue is gone.
-/

namespace Ipv4

open Pieces List

/-! ## The table of queues -/

/-- There is one queue for a datagram, and its fragments belong there. -/
structure Sound (ipq : List Queue) : Prop where
  nodup : (ipq.map Queue.key).Nodup
  nonempty : ∀ fp ∈ ipq, fp.frags ≠ []
  keys : ∀ fp ∈ ipq, ∀ f ∈ fp.frags, f.ip.key = fp.key

section Table

variable {ipq : List Queue} {key key' : Key} {frags : List Frag}

@[simp] theorem waiting_nil (key : Key) : waiting key [] = [] := rfl

theorem waiting_cons (key : Key) (fp : Queue) (ipq : List Queue) :
    waiting key (fp :: ipq) = if fp.key = key then fp.frags else waiting key ipq := by
  unfold waiting
  by_cases h : fp.key = key
  · rw [if_pos h, List.find?_cons_of_pos (by simpa using h)]
  · rw [if_neg h, List.find?_cons_of_neg (by simpa using h)]

theorem remque_cons (key : Key) (fp : Queue) (ipq : List Queue) :
    remque key (fp :: ipq) = if fp.key = key then ipq else fp :: remque key ipq := by
  unfold remque
  by_cases h : fp.key = key
  · rw [if_pos h, eraseP_cons_of_pos (by simpa using h)]
  · rw [if_neg h, eraseP_cons_of_neg (by simpa using h)]

theorem waiting_of_not_mem (h : key ∉ ipq.map Queue.key) : waiting key ipq = [] := by
  induction ipq with
  | nil => rfl
  | cons fp ipq ih =>
    rw [map_cons, mem_cons, not_or] at h
    rw [waiting_cons, if_neg (Ne.symm h.1), ih h.2]

theorem Sound.waiting_eq_nil_iff (h : Sound ipq) :
    waiting key ipq = [] ↔ ∀ fp ∈ ipq, fp.key ≠ key := by
  constructor
  · intro hnil fp hfp heq
    unfold waiting at hnil
    cases hfind : ipq.find? fun fp => decide (fp.key = key) with
    | none => exact absurd heq (by simpa using List.find?_eq_none.mp hfind fp hfp)
    | some fp' =>
      rw [hfind] at hnil
      exact h.nonempty fp' (mem_of_find?_eq_some hfind) hnil
  · intro hne
    apply waiting_of_not_mem
    rw [mem_map]
    rintro ⟨fp, hfp, heq⟩
    exact hne fp hfp heq

theorem Sound.waiting_keys (h : Sound ipq) : ∀ f ∈ waiting key ipq, f.ip.key = key := by
  intro f hf
  unfold waiting at hf
  cases hfind : ipq.find? fun fp => decide (fp.key = key) with
  | none =>
    rw [hfind] at hf
    cases hf
  | some fp =>
    rw [hfind] at hf
    have hkey : fp.key = key := by simpa using List.find?_some hfind
    rw [h.keys fp (mem_of_find?_eq_some hfind) f hf, hkey]

/-- After `remque()` nothing waits there, and all other queues are as before. -/
theorem Sound.waiting_remque (h : Sound ipq) (key' : Key) :
    waiting key' (remque key ipq) = if key' = key then [] else waiting key' ipq := by
  have hnodup := h.nodup
  clear h
  induction ipq with
  | nil => exact (ite_self _).symm
  | cons fp ipq ih =>
    rw [map_cons, nodup_cons] at hnodup
    rw [remque_cons, waiting_cons]
    by_cases hfp : fp.key = key
    · rw [if_pos hfp]
      by_cases hkey : key' = key
      · rw [if_pos hkey, hkey, ← hfp]
        exact waiting_of_not_mem hnodup.1
      · have hne : fp.key ≠ key' := by
          rw [hfp]
          exact Ne.symm hkey
        rw [if_neg hkey, if_neg hne]
    · rw [if_neg hfp, waiting_cons, ih hnodup.2]
      by_cases hkey : key' = key
      · have hne : fp.key ≠ key' := by
          rw [hkey]
          exact hfp
        rw [if_neg hne, if_pos hkey, if_pos hkey]
      · rw [if_neg hkey, if_neg hkey]

theorem waiting_store (key' : Key) (frags : List Frag) (ipq : List Queue) :
    waiting key' (store key frags ipq) = if key' = key then frags else waiting key' ipq := by
  have hmap : ∀ ipq : List Queue, waiting key'
      (ipq.map fun fp => if fp.key = key then { fp with frags := frags } else fp) =
        if key' = key ∧ ipq.any (fun fp => fp.key = key) then frags else waiting key' ipq := by
    intro ipq
    induction ipq with
    | nil => simp
    | cons fp ipq ih =>
      rw [map_cons, waiting_cons, waiting_cons, ih]
      by_cases hfp : fp.key = key
      · by_cases hkey : key' = key
        · simp [hfp, hkey]
        · simp [hfp, hkey, Ne.symm hkey]
      · by_cases hkey : key' = key
        · simp [hfp, hkey]
        · simp [hfp, hkey]
  unfold store
  by_cases hany : ipq.any (fun fp => fp.key = key) = true
  · rw [if_pos hany, hmap]
    simp [hany]
  · rw [if_neg hany, waiting_cons]
    simp only [eq_comm]

theorem Sound.remque (h : Sound ipq) (key : Key) : Sound (remque key ipq) := by
  have hsub : (Ipv4.remque key ipq).Sublist ipq := eraseP_sublist
  refine ⟨h.nodup.sublist (hsub.map _), ?_, ?_⟩
  · intro fp hfp
    exact h.nonempty fp (hsub.subset hfp)
  · intro fp hfp
    exact h.keys fp (hsub.subset hfp)

theorem Sound.store (h : Sound ipq) (hne : frags ≠ []) (hkeys : ∀ f ∈ frags, f.ip.key = key) :
    Sound (store key frags ipq) := by
  unfold Ipv4.store
  dsimp only
  split
  · have hmap : (ipq.map fun fp => if fp.key = key then { fp with frags := frags } else fp).map
        Queue.key = ipq.map Queue.key := by
      rw [map_map]
      apply map_congr_left
      intro fp _
      show (if fp.key = key then { fp with frags := frags } else fp).key = fp.key
      split <;> rfl
    constructor
    · rw [hmap]
      exact h.nodup
    · intro fp hfp
      obtain ⟨fp', hfp', rfl⟩ := mem_map.mp hfp
      split
      · exact hne
      · exact h.nonempty fp' hfp'
    · intro fp hfp f hf
      obtain ⟨fp', hfp', rfl⟩ := mem_map.mp hfp
      by_cases heq : fp'.key = key
      · rw [if_pos heq] at hf ⊢
        rw [hkeys f hf, heq]
      · rw [if_neg heq] at hf ⊢
        exact h.keys fp' hfp' f hf
  · next hany =>
    have hnot : ∀ fp ∈ ipq, fp.key ≠ key := by simpa using hany
    constructor
    · rw [map_cons, nodup_cons]
      refine ⟨?_, h.nodup⟩
      rw [mem_map]
      rintro ⟨fp, hfp, heq⟩
      exact hnot fp hfp heq
    · intro fp hfp
      rcases mem_cons.mp hfp with rfl | hfp
      · exact hne
      · exact h.nonempty fp hfp
    · intro fp hfp
      rcases mem_cons.mp hfp with rfl | hfp
      · exact hkeys
      · exact h.keys fp hfp

end Table

/-! ## What a packet does to the queues -/

section Input

variable {key : Key} {ip ip' : Frag} {frags : List Frag}

theorem trimNew_ip {prev : Option Frag} (h : trimNew prev ip = some ip') : ip'.ip = ip.ip := by
  unfold trimNew at h
  split at h
  · cases h
    rfl
  · dsimp only at h
    split at h
    · split at h
      · cases h
      · cases h
        rfl
    · cases h
      rfl

theorem trimOld_keys (ip : Frag) (h : ∀ f ∈ frags, f.ip.key = key) :
    ∀ f ∈ trimOld ip frags, f.ip.key = key := by
  induction frags with
  | nil => exact h
  | cons q rest ih =>
    have hrest : ∀ f ∈ rest, f.ip.key = key := fun f hf => h f (mem_cons_of_mem _ hf)
    unfold trimOld
    split
    · dsimp only
      split
      · intro f hf
        rcases mem_cons.mp hf with rfl | hf
        · exact h q (mem_cons_self ..)
        · exact hrest f hf
      · exact ih hrest
    · exact h

/-- The fragments of a queue stay with their datagram. -/
theorem ip_reass_keys (hip : ip.ip.key = key) (h : ∀ f ∈ frags, f.ip.key = key) :
    (∀ frags', ip_reass ip frags = .waits frags' → frags' ≠ [] ∧ ∀ f ∈ frags', f.ip.key = key) ∧
    ∀ header data, ip_reass ip frags = .whole header data → header.key = key := by
  have hcomplete : ∀ frags : List Frag, frags ≠ [] → (∀ f ∈ frags, f.ip.key = key) →
      (∀ frags', complete key frags = .waits frags' → frags' ≠ [] ∧ ∀ f ∈ frags', f.ip.key = key) ∧
      ∀ header data, complete key frags = .whole header data → header.key = key := by
    intro frags hne hkeys
    unfold complete
    split
    · next hfirst _ =>
      split
      · constructor
        · intro frags' heq
          cases heq
          exact ⟨hne, hkeys⟩
        · intro header data heq
          cases heq
      · constructor
        · intro frags' heq
          cases heq
        · intro header data heq
          cases heq
          rw [← hkeys _ (mem_of_head? hfirst)]
          rfl
    · constructor
      · intro frags' heq
        cases heq
        exact ⟨hne, hkeys⟩
      · intro header data heq
        cases heq
  unfold ip_reass
  dsimp only
  split
  · constructor
    · intro frags' heq
      cases heq
    · intro header data heq
      cases heq
  · next ip' htrim =>
    rw [hip]
    refine hcomplete _ (by simp) ?_
    intro f hf
    rcases mem_append.mp hf with hf | hf
    · exact h f ((takeWhile_sublist _).subset hf)
    · rcases mem_cons.mp hf with rfl | hf
      · rw [trimNew_ip htrim, hip]
      · exact trimOld_keys ip' (fun f hf => h f ((dropWhile_sublist _).subset hf)) f hf

/-- A packet leaves the queues of other datagrams alone, and what is handed up is its datagram. -/
theorem Sound.input {ipq : List Queue} (h : Sound ipq) (m : Packet) : Sound (ipv4_input ipq m).1 ∧
      (∀ key, key ≠ m.host.key → waiting key (ipv4_input ipq m).1 = waiting key ipq) ∧
      ∀ up, (ipv4_input ipq m).2 = some up → up.ip.key = m.host.key := by
  have hwaiting : ∀ f ∈ waiting m.host.key ipq, f.ip.key = m.host.key := h.waiting_keys
  have hkeys := @ip_reass_keys m.host.key m.frag _ rfl hwaiting
  have hremoved : ∀ key, key ≠ m.host.key →
      waiting key (Ipv4.remque m.host.key ipq) = waiting key ipq := by
    intro key hne
    rw [h.waiting_remque, if_neg hne]
  unfold ipv4_input
  dsimp only
  split
  · split
    · split
      · refine ⟨h, fun _ _ => rfl, ?_⟩
        intro up heq
        cases heq
      · next frags' heq =>
        obtain ⟨hne, hfrags⟩ := hkeys.1 frags' heq
        refine ⟨h.store hne hfrags, ?_, ?_⟩
        · intro key hkey
          rw [waiting_store, if_neg hkey]
        · intro up heq
          cases heq
      · next header data heq =>
        refine ⟨h.remque _, hremoved, ?_⟩
        intro up hup
        cases hup
        exact hkeys.2 header data heq
    · refine ⟨h.remque _, hremoved, ?_⟩
      intro up hup
      cases hup
      rfl
  · refine ⟨h, fun _ _ => rfl, ?_⟩
    intro up hup
    cases hup
    rfl

end Input

/-! ## The fragments of one datagram -/

section Datagram

variable {d : Datagram} {if_mtu len : Nat} {ps : List Packet} {ipq : List Queue}
  {got ms : List Packet} {first x : Packet}

/-- Every packet goes to the queue of the datagram. -/
theorem Fragments.input (h : Fragments d if_mtu len 0 ps) (hpos : 0 < len)
    (htwo : len < d.data.length) (hx : x ∈ ps) (ipq : List Queue) :
    ipv4_input ipq x =
      match ip_reass x.frag (waiting d.ip.key ipq) with
      | .dropped => (ipq, none)
      | .waits frags => (store d.ip.key frags ipq, none)
      | .whole ip' data => (remque d.ip.key ipq, some ⟨ip', data, x.host.hlen⟩) := by
  obtain ⟨mf, hfrag, -, -⟩ := h.isFragment x hx
  obtain ⟨l, -, hoff, hiff⟩ := h.last_iff (Nat.dvd_zero len) hpos
  have hmf : mf = true ∨ 0 < x.off := by
    cases hm : mf with
    | true => exact Or.inl rfl
    | false =>
      -- only the last fragment is marked so, and it is not the first one
      rw [hm] at hfrag
      rw [(hiff x hx).mp hfrag.mff_eq, hoff]
      have hdiv := Nat.div_pos (show len ≤ d.data.length - 1 by omega) hpos
      exact Or.inr (Nat.mul_pos hdiv hpos)
  obtain ⟨hclear, hfragment⟩ := hfrag.fragmented hmf
  rcases hreass : ip_reass x.frag (waiting d.ip.key ipq) with _ | frags | ⟨ip', data⟩ <;>
    simp only [ipv4_input, if_pos hclear, if_pos hfragment, hfrag.key, hreass]

/-- The queue holds what has been got of the datagram, and that is not all. -/
structure Waits (d : Datagram) (ps : List Packet) (ipq : List Queue) (got : List Packet) : Prop where
  sound : Sound ipq
  queue : ∃ qs, Holds ps (waiting d.ip.key ipq) qs ∧ qs.Nodup ∧ ∀ p, p ∈ qs ↔ p ∈ got
  missing : ¬ ∀ p ∈ ps, p ∈ got

/-- What is handed up when `m` completes the datagram. -/
structure Whole (d : Datagram) (m : Packet) (up : Delivery) : Prop where
  data : up.data = d.data
  hlen : up.hlen = m.ip.hlen
  ip_hl : up.ip.ip_hl = d.ip.ip_hl
  options : up.ip.options = d.ip.options

/-- One more fragment: it completes the datagram, or it is kept. -/
theorem Waits.input (hw : Waits d ps ipq got) (h : Fragments d if_mtu len 0 ps) (hpos : 0 < len)
    (htwo : len < d.data.length) (hlower : Lower ps) (hfirst : ps.head? = some first)
    (hhl : first.ip.ip_hl = d.ip.ip_hl ∧ first.ip.options = d.ip.options) (hx : x ∈ ps) :
    (∀ p ∈ ps, p ∈ got ++ [x]) ∧ (∃ up, (ipv4_input ipq x).2 = some up ∧ Whole d x up) ∧
        Waits d ps (ipv4_input ipq x).1 [] ∨
      (¬ ∀ p ∈ ps, p ∈ got ++ [x]) ∧ (ipv4_input ipq x).2 = none ∧
        Waits d ps (ipv4_input ipq x).1 (got ++ [x]) := by
  obtain ⟨qs, hqs, hnodup, hmem⟩ := hw.queue
  obtain ⟨mf, hfrag, -, -⟩ := h.isFragment x hx
  rw [h.input hpos htwo hx]
  by_cases hagain : x ∈ qs
  · -- a second copy
    have hlen : 0 < x.frag.ip_len := by
      have := length_pos_iff.mpr hfrag.data_ne
      rw [(hlower x hx).2]
      omega
    have hgot : ∀ p, p ∈ got ++ [x] ↔ p ∈ got := by
      intro p
      rw [mem_append, mem_singleton]
      constructor
      · rintro (hp | rfl)
        · exact hp
        · exact (hmem p).mp hagain
      · exact Or.inl
    have hmissing : ¬ ∀ p ∈ ps, p ∈ got ++ [x] := fun hall =>
      hw.missing fun p hp => (hgot p).mp (hall p hp)
    rw [ip_reass_again h.apart hqs hagain hlen]
    refine Or.inr ⟨hmissing, rfl, hw.sound, ⟨qs, hqs, hnodup, ?_⟩, hmissing⟩
    intro p
    rw [hgot, hmem]
  · have hplace := hqs.place hx
    have hnodup' : (place Packet.begins x qs).Nodup :=
      (place_perm x qs).nodup_iff.mpr (nodup_cons.mpr ⟨hagain, hnodup⟩)
    have hmem' : ∀ p, p ∈ place Packet.begins x qs ↔ p ∈ got ++ [x] := by
      intro p
      rw [(place_perm x qs).mem_iff, mem_cons, mem_append, mem_singleton, hmem, or_comm]
    rw [ip_reass_new h.apart hqs hx (Or.inl hagain)]
    have hkey : x.host.key = d.ip.key := hfrag.key
    rcases h.complete_spec hpos hlower x.host.key hplace hnodup' hfirst with
      ⟨hall, next, heq⟩ | ⟨hnot, heq⟩
    · rw [heq]
      refine Or.inl ⟨fun p hp => (hmem' p).mp (hall p hp), ⟨_, rfl, rfl, rfl, hhl.1, hhl.2⟩,
        hw.sound.remque _, ⟨[], ⟨?_, .nil, ?_⟩, .nil, fun p => Iff.rfl⟩, ?_⟩
      · show waiting d.ip.key (remque d.ip.key ipq) = []
        rw [hw.sound.waiting_remque, if_pos rfl]
      · intro q hq
        cases hq
      · intro hall
        exact not_mem_nil (hall first (mem_of_head? hfirst))
    · rw [heq]
      have hmissing : ¬ ∀ p ∈ ps, p ∈ got ++ [x] := fun hall =>
        hnot fun p hp => (hmem' p).mpr (hall p hp)
      refine Or.inr ⟨hmissing, rfl, hw.sound.store ?_ ?_, ⟨_, ?_, hnodup', hmem'⟩, hmissing⟩
      · intro hnil
        have := (@place_perm _ Packet.begins x qs).length_eq
        rw [map_eq_nil_iff] at hnil
        rw [hnil] at this
        cases this
      · intro f hf
        obtain ⟨p, hp, rfl⟩ := mem_map.mp hf
        obtain ⟨_, hpfrag, -, -⟩ := h.isFragment p (hplace.mem p hp)
        exact hpfrag.key
      · show Holds ps (waiting d.ip.key (store d.ip.key _ ipq)) _
        rw [waiting_store, if_pos rfl]
        exact hplace

theorem Waits.other (hw : Waits d ps ipq got) (hx : x.host.key ≠ d.ip.key) :
    Waits d ps (ipv4_input ipq x).1 got ∧
      ∀ up, (ipv4_input ipq x).2 = some up → up.ip.key ≠ d.ip.key := by
  obtain ⟨hsound, hwaiting, hup⟩ := hw.sound.input x
  refine ⟨⟨hsound, ?_, hw.missing⟩, ?_⟩
  · rw [hwaiting _ (Ne.symm hx)]
    exact hw.queue
  · intro up heq
    rw [hup up heq]
    exact hx

/-! ## A run -/

theorem receive_cons (ipq : List Queue) (m : Packet) (ms : List Packet) : receive ipq (m :: ms) =
      ((receive (ipv4_input ipq m).1 ms).1,
        (ipv4_input ipq m).2.toList ++ (receive (ipv4_input ipq m).1 ms).2) := rfl

/-- What is handed up for the datagram over a run, and what is left. -/
theorem Waits.receive (hw : Waits d ps ipq got) (h : Fragments d if_mtu len 0 ps) (hpos : 0 < len)
    (htwo : len < d.data.length) (hlower : Lower ps) (hfirst : ps.head? = some first)
    (hhl : first.ip.ip_hl = d.ip.ip_hl ∧ first.ip.options = d.ip.options)
    (hms : ∀ m ∈ ms, m ∈ ps ∨ m.host.key ≠ d.ip.key) :
    List.Forall₂ (Whole d) (collect ps got (ms.filter fun m => m.host.key = d.ip.key)).2
        ((receive ipq ms).2.filter fun up => up.ip.key = d.ip.key) ∧
      Waits d ps (receive ipq ms).1 (collect ps got (ms.filter fun m => m.host.key = d.ip.key)).1 := by
  induction ms generalizing ipq got with
  | nil => exact ⟨.nil, hw⟩
  | cons m ms ih =>
    have hms' : ∀ m ∈ ms, m ∈ ps ∨ m.host.key ≠ d.ip.key := fun n hn => hms n (mem_cons_of_mem _ hn)
    rw [receive_cons]
    by_cases hkey : m.host.key = d.ip.key
    · have hm : m ∈ ps := (hms m (mem_cons_self ..)).resolve_right (not_not_intro hkey)
      rw [filter_cons_of_pos (by simpa using hkey)]
      rcases hw.input h hpos htwo hlower hfirst hhl hm with
        ⟨hall, ⟨up, hup, hwhole⟩, hw'⟩ | ⟨hnot, hup, hw'⟩
      · have hupkey : up.ip.key = d.ip.key := by
          rw [(hw.sound.input m).2.2 up hup, hkey]
        obtain ⟨hups, hend⟩ := ih hw' hms'
        rw [hup]
        simp only [collect, if_pos hall]
        refine ⟨?_, hend⟩
        rw [Option.toList_some, singleton_append, filter_cons_of_pos (by simpa using hupkey)]
        exact .cons hwhole hups
      · rw [hup]
        simp only [collect, if_neg hnot]
        exact ih hw' hms'
    · obtain ⟨hw', hup⟩ := hw.other hkey
      rw [filter_cons_of_neg (by simpa using hkey)]
      obtain ⟨hups, hend⟩ := ih hw' hms'
      refine ⟨?_, hend⟩
      cases hopt : (ipv4_input ipq m).2 with
      | none => exact hups
      | some up =>
        rw [Option.toList_some, singleton_append, filter_cons_of_neg (by simpa using hup up hopt)]
        exact hups

theorem Fragments.input_never (h : Fragments d if_mtu len 0 ps) (hpos : 0 < len)
    (htwo : len < d.data.length) (hupper : 32768 ≤ (d.data.length - 1) / len * len) (hx : x ∈ ps)
    (hqueue : ∃ qs, Holds ps (waiting d.ip.key ipq) qs) :
    (ipv4_input ipq x).2 = none ∧ ∃ qs, Holds ps (waiting d.ip.key (ipv4_input ipq x).1) qs := by
  obtain ⟨qs, hqs⟩ := hqueue
  rw [h.input hpos htwo hx]
  by_cases hagain : x ∈ qs ∧ 0 < x.frag.ip_len
  · rw [ip_reass_again h.apart hqs hagain.1 hagain.2]
    exact ⟨rfl, qs, hqs⟩
  · have hnew : x ∉ qs ∨ x.frag.ip_len ≤ 0 := by
      by_cases hmem : x ∈ qs
      · exact Or.inr (not_lt.mp fun hlen => hagain ⟨hmem, hlen⟩)
      · exact Or.inl hmem
    have hplace := hqs.place hx
    rw [ip_reass_new h.apart hqs hx hnew, h.never_complete hpos hupper _ hplace]
    refine ⟨rfl, place Packet.begins x qs, ?_⟩
    show Holds ps (waiting d.ip.key (store d.ip.key _ ipq)) _
    rw [waiting_store, if_pos rfl]
    exact hplace

/-- Then nothing is ever handed up. -/
theorem receive_never (h : Fragments d if_mtu len 0 ps) (hpos : 0 < len)
    (htwo : len < d.data.length) (hupper : 32768 ≤ (d.data.length - 1) / len * len)
    (hms : ∀ m ∈ ms, m ∈ ps ∨ m.host.key ≠ d.ip.key) (hsound : Sound ipq)
    (hqueue : ∃ qs, Holds ps (waiting d.ip.key ipq) qs) :
    (receive ipq ms).2.filter (fun up => up.ip.key = d.ip.key) = [] := by
  induction ms generalizing ipq with
  | nil => rfl
  | cons m ms ih =>
    have hms' : ∀ m ∈ ms, m ∈ ps ∨ m.host.key ≠ d.ip.key := fun n hn => hms n (mem_cons_of_mem _ hn)
    obtain ⟨hsound', hother, hup⟩ := hsound.input m
    rw [receive_cons, filter_append]
    by_cases hkey : m.host.key = d.ip.key
    · have hm : m ∈ ps := (hms m (mem_cons_self ..)).resolve_right (not_not_intro hkey)
      obtain ⟨hnone, hqueue'⟩ := h.input_never hpos htwo hupper hm hqueue
      rw [hnone, ih hms' hsound' hqueue']
      rfl
    · have hqueue' : ∃ qs, Holds ps (waiting d.ip.key (ipv4_input ipq m).1) qs := by
        rw [hother _ (Ne.symm hkey)]
        exact hqueue
      rw [ih hms' hsound' hqueue', append_nil, filter_eq_nil_iff]
      intro up hmem
      rw [Option.mem_toList] at hmem
      have := hup up hmem
      simpa [this] using hkey

end Datagram

/-! ## Reassembly -/

/-- The bytes of a packet. -/
def Packet.size (m : Packet) : Nat := m.ip.hlen + m.data.length

/-- The datagram is handed up exactly once, with its data and its header length, and no queue is
left. -/
structure Reassembled (d : Datagram) (ms : List Packet) : Prop where
  once : ∃ up, (receive [] ms).2.filter (fun up => up.ip.key = d.ip.key) = [up] ∧
    up.data = d.data ∧ up.hlen = d.ip.hlen ∧ up.ip.ip_hl = d.ip.ip_hl ∧
    up.ip.options = d.ip.options
  gone : ∀ fp ∈ (receive [] ms).1, fp.key ≠ d.ip.key

/-- **Reassembly undoes fragmentation** where the last fragment begins in the lower half of an
`int16` and the packet that arrives last is a fragment that has not arrived before, with a header as
long as that of the datagram. -/
theorem reassembled_iff {d : Datagram} {if_mtu : Nat} {ps : List Packet}
    (h : ipv4_output d if_mtu = .ok ps) (hbig : if_mtu < d.ip.ip_len) :
    (∀ p ∈ ps, p.size ≤ if_mtu) ∧
      ∀ ms : List Packet, (∀ m ∈ ms, m ∈ ps ∨ m.host.key ≠ d.ip.key) → (∀ p ∈ ps, p ∈ ms) →
        (Reassembled d ms ↔
          (d.data.length - 1) / fragmentSize d if_mtu * fragmentSize d if_mtu < 32768 ∧
            ∃ init l, ms.filter (fun m => m.host.key = d.ip.key) = init ++ [l] ∧ l ∉ init ∧
              l.ip.hlen = d.ip.hlen) := by
  obtain ⟨hfragments, hlen8, hbig', first, rest, rfl, hhl⟩ := ipv4_output_fragments h hbig
  have hpos : 0 < fragmentSize d if_mtu := by omega
  have htwo : fragmentSize d if_mtu < d.data.length := by
    have := d.len_eq
    omega
  constructor
  · intro p hp
    obtain ⟨mf, hfrag, -, -⟩ := hfragments.isFragment p hp
    have hfits := hfrag.fits
    rw [hfrag.ip_len] at hfits
    exact hfits
  · intro ms hms hall
    have hours : ∀ m ∈ ms.filter fun m => m.host.key = d.ip.key, m ∈ first :: rest := by
      intro m hm
      obtain ⟨hm, hkey⟩ := mem_filter.mp hm
      exact (hms m hm).resolve_right (not_not_intro (by simpa using hkey))
    have hallOurs : ∀ p ∈ first :: rest, p ∈ ms.filter fun m => m.host.key = d.ip.key := by
      intro p hp
      obtain ⟨mf, hfrag, -, -⟩ := hfragments.isFragment p hp
      exact mem_filter.mpr ⟨hall p hp, by simpa using hfrag.key⟩
    have hsound : Sound [] := by
      constructor
      · exact .nil
      · intro fp hfp
        cases hfp
      · intro fp hfp
        cases hfp
    have hholds : Holds (first :: rest) (waiting d.ip.key []) [] := by
      refine ⟨rfl, .nil, ?_⟩
      intro q hq
      cases hq
    by_cases hlower : (d.data.length - 1) / fragmentSize d if_mtu * fragmentSize d if_mtu < 32768
    · have hmissing : ¬ ∀ p ∈ first :: rest, p ∈ ([] : List Packet) := fun hall =>
        not_mem_nil (hall first (mem_cons_self ..))
      have hwaits : Waits d (first :: rest) [] [] :=
        ⟨hsound, ⟨[], hholds, .nil, fun _ => Iff.rfl⟩, hmissing⟩
      have hlow : Lower (first :: rest) := fun p hp => hfragments.begins_lower hpos htwo hlower hp
      obtain ⟨hups, hend⟩ := hwaits.receive hfragments hpos htwo hlow rfl hhl hms
      have hgone : (∀ fp ∈ (receive [] ms).1, fp.key ≠ d.ip.key) ↔
          (collect (first :: rest) [] (ms.filter fun m => m.host.key = d.ip.key)).1 = [] := by
        rw [← hend.sound.waiting_eq_nil_iff]
        obtain ⟨qs, hqs, -, hmem⟩ := hend.queue
        rw [hqs.frags_eq, map_eq_nil_iff, eq_nil_iff_forall_not_mem, eq_nil_iff_forall_not_mem]
        exact forall_congr' fun p => not_congr (hmem p)
      constructor
      · rintro ⟨⟨up, hup, hdata, huphlen, -, -⟩, hnone⟩
        rw [hup] at hups
        rcases hlist : (collect (first :: rest) [] (ms.filter fun m => m.host.key = d.ip.key)).2 with
          _ | ⟨l, tail⟩
        · rw [hlist] at hups
          cases hups
        · rw [hlist] at hups
          obtain ⟨hwhole, htail⟩ := List.forall₂_cons.mp hups
          cases htail
          have hcollect : collect (first :: rest) []
              (ms.filter fun m => m.host.key = d.ip.key) = ([], [l]) :=
            Prod.ext (hgone.mp hnone) hlist
          obtain ⟨init, hinit, hnew⟩ :=
            (collect_eq_iff (cons_ne_nil first rest) hours hallOurs).mp hcollect
          exact ⟨hlower, init, l, hinit, hnew, by rw [← hwhole.hlen, huphlen]⟩
      · rintro ⟨-, init, l, hinit, hnew, hlhl⟩
        have hcollect := (collect_eq_iff (cons_ne_nil first rest) hours hallOurs).mpr
          ⟨init, hinit, hnew⟩
        rw [hcollect] at hups hgone
        constructor
        · rcases hlist : (receive [] ms).2.filter fun up => up.ip.key = d.ip.key with _ | ⟨up, tail⟩
          · rw [hlist] at hups
            cases hups
          · rw [hlist] at hups
            obtain ⟨hwhole, htail⟩ := List.forall₂_cons.mp hups
            cases htail
            exact ⟨up, hlist, hwhole.data, by rw [hwhole.hlen, hlhl], hwhole.ip_hl, hwhole.options⟩
        · exact hgone.mpr rfl
    · -- the last fragment never finds its place
      constructor
      · rintro ⟨⟨up, hup, -⟩, -⟩
        rw [receive_never hfragments hpos htwo (by omega) hms hsound ⟨[], hholds⟩] at hup
        cases hup
      · rintro ⟨hlt, -⟩
        exact absurd hlt hlower

/-- **Reassembly undoes fragmentation.** A fragment that comes again once the datagram has been
handed up begins a new queue, and nothing else goes wrong: exactly the runs that end, for this
datagram, with a fragment that was still missing leave no queue. -/
theorem reassembly_undoes_fragmentation {d : Datagram} {if_mtu : Nat} {ps : List Packet}
    (h : ipv4_output d if_mtu = .ok ps) (hbig : if_mtu < d.ip.ip_len) :
    (∀ p ∈ ps, p.size ≤ if_mtu) ∧
      ((d.data.length - 1) / fragmentSize d if_mtu * fragmentSize d if_mtu < 32768 →
        ∀ (ms init : List Packet) (l : Packet), (∀ m ∈ ms, m ∈ ps ∨ m.host.key ≠ d.ip.key) →
          (∀ p ∈ ps, p ∈ ms) → ms.filter (fun m => m.host.key = d.ip.key) = init ++ [l] →
          l.ip.hlen = d.ip.hlen → (Reassembled d ms ↔ l ∉ init)) := by
  obtain ⟨hfits, hreass⟩ := reassembled_iff h hbig
  refine ⟨hfits, ?_⟩
  intro hlower ms init l hms hall hlast hhlen
  rw [hreass ms hms hall]
  constructor
  · rintro ⟨-, init', l', hlast', hnew, -⟩
    obtain ⟨rfl, hl⟩ := append_inj' (hlast.symm.trans hlast') rfl
    cases hl
    exact hnew
  · intro hnew
    exact ⟨hlower, init, l, hlast, hnew, hhlen⟩

/-- A datagram of sixteen bytes. -/
def sixteenBytes : Datagram where
  ip := ⟨5, 36, 7, 0, 17, 1, 2, []⟩
  data := List.replicate 16 1
  hlen_eq := rfl
  options_le := Nat.zero_le 40
  len_eq := rfl
  len_le := by decide
  id_lt := by decide
  off_eq := Or.inl rfl

/-- Its two halves, as they are sent through an interface with an MTU of 28 bytes. -/
def firstHalf : Packet := ⟨⟨5, htons 28, htons 7, htons IP_MF, 17, 1, 2, []⟩, List.replicate 8 1⟩

def secondHalf : Packet := ⟨⟨5, htons 28, htons 7, htons 1, 17, 1, 2, []⟩, List.replicate 8 1⟩

theorem sixteenBytes_output : ipv4_output sixteenBytes 28 = .ok [firstHalf, secondHalf] := rfl

/-- The halves are put together in either order, with a duplicate in between. -/
theorem halves_reassembled : Reassembled sixteenBytes [secondHalf, secondHalf, firstHalf] :=
  (((reassembly_undoes_fragmentation sixteenBytes_output (by decide)).2 (by decide)
    [secondHalf, secondHalf, firstHalf] [secondHalf, secondHalf] firstHalf (by decide) (by decide)
    (by decide) (by decide)).mpr (by decide))

/-- The same bytes behind a route to be recorded, an option for the first fragment only. -/
def recordedRoute : Datagram where
  ip := ⟨6, 40, 7, 0, 17, 1, 2, [7, 3, 4, 0]⟩
  data := List.replicate 16 1
  hlen_eq := rfl
  options_le := by decide
  len_eq := rfl
  len_le := by decide
  id_lt := by decide
  off_eq := Or.inl rfl

/-- A half that comes again when the datagram has been handed up waits for the other one; and the
last fragment, without the options, tells a header length that is not that of the datagram. -/
theorem late_duplicate_waits :
    (¬ ∀ (d : Datagram) (if_mtu : Nat) (ps ms : List Packet), ipv4_output d if_mtu = .ok ps →
      if_mtu < d.ip.ip_len → (∀ m ∈ ms, m ∈ ps ∨ m.host.key ≠ d.ip.key) → (∀ p ∈ ps, p ∈ ms) →
      Reassembled d ms) ∧
    ¬ ∀ (d : Datagram) (if_mtu : Nat) (ps : List Packet), ipv4_output d if_mtu = .ok ps →
      if_mtu < d.ip.ip_len → Reassembled d ps := by
  constructor
  · intro hclaim
    have hreass := hclaim sixteenBytes 28 [firstHalf, secondHalf] [firstHalf, secondHalf, firstHalf]
      sixteenBytes_output (by decide) (by decide) (by decide)
    have hqueue : ((receive [] [firstHalf, secondHalf, firstHalf]).1.map Queue.key) =
        [sixteenBytes.ip.key] := by decide
    obtain ⟨fp, hfp, hkey⟩ := mem_map.mp (hqueue ▸ mem_singleton_self sixteenBytes.ip.key)
    exact hreass.gone fp hfp hkey
  · intro hclaim
    have hreass := hclaim recordedRoute 32 _ rfl (by decide)
    obtain ⟨up, hup, -, hhlen, -⟩ := hreass.once
    have hlens := congrArg (List.map Delivery.hlen) hup
    rw [map_singleton, hhlen] at hlens
    exact absurd hlens (by decide)

end Ipv4
