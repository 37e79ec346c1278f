import OpenBeOS.Lib.Pieces
import OpenBeOS.Net.Ip

/-! # The fragments of a datagram

What `ipv4_output` makes of a datagram that is too big: pieces of its data, one behind the other,
each with a header of its own and small enough for the interface.
-/

namespace Ipv4

open Pieces List

/-- Where the data of a packet belongs. -/
def Packet.off (m : Packet) : Nat := m.host.ip_off % IP_MF * 8

/-- A fragment with the data from `o` on; `mf` says whether there are more. -/
structure IsFragment (d : Datagram) (if_mtu o : Nat) (mf : Bool) (p : Packet) : Prop where
  ip_off : p.host.ip_off = o / 8 + if mf then IP_MF else 0
  dvd : 8 ∣ o
  lt : o < 65536
  ip_len : p.host.ip_len = p.host.hlen + p.data.length
  key : p.host.key = d.ip.key
  data_ne : p.data ≠ []
  fits : p.host.ip_len ≤ if_mtu

/-- The fragments with the data from `o` on; all but the last one have `len` bytes. -/
inductive Fragments (d : Datagram) (if_mtu len : Nat) : Nat → List Packet → Prop
  | last {o : Nat} {p : Packet} : IsFragment d if_mtu o false p → p.data = d.data.drop o →
      p.data.length ≤ len → Fragments d if_mtu len o [p]
  | more {o : Nat} {p : Packet} {ps : List Packet} : IsFragment d if_mtu o true p →
      p.data = (d.data.drop o).take len → p.data.length = len →
      Fragments d if_mtu len (o + len) ps → Fragments d if_mtu len o (p :: ps)

/-! ## The copied options -/

/-- No more options are copied than there are. -/
theorem optcopyLoop_length {rounds : Nat} {cp dp options : List UInt8} {cnt : Nat}
    (h : optcopyLoop rounds cp cnt dp = some options) : options.length ≤ dp.length + cnt := by
  induction rounds generalizing cp cnt dp with
  | zero => cases h
  | succ rounds ih =>
    unfold optcopyLoop at h
    split at h
    · cases h
      omega
    · dsimp only at h
      split at h
      · cases h
        omega
      · split at h
        · have := ih h
          simp at this
          omega
        · have := ih h
          split at this
          · simp at this
            omega
          · omega

theorem ip_optcopy_length {m : Packet} {options : List UInt8} (hwords : 4 ∣ m.ip.hlen - 20)
    (h : ip_optcopy m = some options) : 4 ∣ options.length ∧ options.length ≤ m.ip.hlen - 20 := by
  unfold ip_optcopy at h
  simp only [Option.bind_eq_bind] at h
  obtain ⟨dp, hdp, hoptions⟩ := Option.bind_eq_some_iff.mp h
  cases hoptions
  have hlength := optcopyLoop_length hdp
  simp only [length_nil, Nat.zero_add] at hlength
  rw [length_append, length_replicate]
  omega

/-! ## The fragments -/

theorem hasBit_units {o : Nat} (h : o < 65536) : hasBit (o / 8) IP_MF = false := by
  unfold hasBit IP_MF
  rw [decide_eq_false_iff_not]
  omega

theorem setBit_units {o : Nat} (h : o < 65536) : setBit (o / 8) IP_MF = o / 8 + IP_MF := by
  unfold setBit
  rw [hasBit_units h]
  rfl

section Output

variable {d : Datagram} {if_mtu len : Nat}

/-- A packet of the loop. -/
theorem isFragment_mk {mhip : Header} {o units n : Nat} {mf : Bool} {data : List UInt8}
    (hkey : ({ mhip with ip_id := htons mhip.ip_id } : Header).key = d.ip.key)
    (hunits : units = o / 8 + if mf then IP_MF else 0) (hdvd : 8 ∣ o) (hlt : o < 65536)
    (hn : n = data.length) (hne : data ≠ []) (hfits : n + mhip.hlen ≤ if_mtu)
    (hlen : n + mhip.hlen < 65536) :
    IsFragment d if_mtu o mf
      ⟨{ mhip with ip_off := htons units, ip_len := htons (n + mhip.hlen) }, data⟩ := by
  have hoff : units < 65536 := by
    rw [hunits]
    unfold IP_MF
    split <;> omega
  have hlenEq : htons (htons (n + mhip.hlen)) = n + mhip.hlen := htons_htons hlen
  refine ⟨?_, hdvd, hlt, ?_, hkey, hne, ?_⟩
  · show htons (htons units) = _
    rw [htons_htons hoff, hunits]
  · show htons (htons (n + mhip.hlen)) = mhip.hlen + data.length
    rw [hlenEq, hn]
    omega
  · show htons (htons (n + mhip.hlen)) ≤ if_mtu
    rw [hlenEq]
    exact hfits

/-- The loop over the fragments, with the data from `o` on still to be sent. -/
theorem fragmentLoop_spec {m0 : Packet} {mhip : Header} (hm0 : m0.data = d.data)
    (hlen_eq : m0.ip.hlen = d.ip.hlen) (hip_len : m0.ip.ip_len = d.ip.ip_len)
    (hoff_eq : m0.ip.ip_off = 0)
    (hkey : ({ mhip with ip_id := htons mhip.ip_id } : Header).key = d.ip.key)
    (hmhlen : mhip.hlen ≤ d.ip.hlen) (hmtu : d.ip.hlen + len ≤ if_mtu) (hdvd : 8 ∣ len)
    (hpos : 0 < len) (rounds o : Nat) (ho : 8 ∣ o) (hlt : o < d.data.length)
    (hrounds : d.data.length - o ≤ rounds) :
    Fragments d if_mtu len o (fragmentLoop m0 mhip rounds (d.ip.hlen + o) len) := by
  have hlen := d.len_eq
  have hle := d.len_le
  induction rounds generalizing o with
  | zero => omega
  | succ rounds ih =>
    have hdrop : (d.data.drop o).length = d.data.length - o := length_drop
    have hsub : d.ip.hlen + o - d.ip.hlen = o := by omega
    unfold fragmentLoop
    rw [hip_len, hlen_eq, hoff_eq, hm0, hsub, if_pos (by omega)]
    have hclear : clearBit 0 IP_MF = 0 := rfl
    have hnot : hasBit 0 IP_MF = false := rfl
    simp only [hclear, hnot, Nat.add_zero, if_false, Bool.false_eq_true]
    by_cases hlast : d.ip.hlen + o + len ≥ d.ip.ip_len
    · have hrest : d.ip.ip_len - (d.ip.hlen + o) = d.data.length - o := by omega
      simp only [hlast, decide_true, if_true, hrest]
      have hnil : ∀ rounds, fragmentLoop m0 mhip rounds
          (d.ip.hlen + o + (d.data.length - o)) (d.data.length - o) = [] := by
        intro rounds
        cases rounds with
        | zero => rfl
        | succ rounds =>
          unfold fragmentLoop
          rw [if_neg (by omega)]
      have htake : (d.data.drop o).take (d.data.length - o) = d.data.drop o :=
        take_of_length_le (by omega)
      rw [hnil, htake]
      refine .last (isFragment_mk hkey (by simp) ho (by omega) hdrop.symm ?_ ?_ ?_) rfl ?_
      · exact ne_nil_of_length_pos (by omega)
      · omega
      · omega
      · show (d.data.drop o).length ≤ len
        omega
    · have hlength : ((d.data.drop o).take len).length = len := by
        rw [length_take]
        omega
      simp only [hlast, decide_false, Bool.false_eq_true, if_false]
      refine .more (isFragment_mk hkey ?_ ho (by omega) hlength.symm ?_ ?_ ?_) rfl hlength ?_
      · rw [setBit_units (by omega)]
        rfl
      · exact ne_nil_of_length_pos (by omega)
      · omega
      · omega
      · rw [Nat.add_assoc]
        exact ih (o + len) (Nat.dvd_add ho hdvd) (by omega) (by omega)

/-- The packet of a datagram. -/
def Datagram.sent (d : Datagram) : Packet := ⟨{ d.ip with ip_id := htons d.ip.ip_id }, d.data⟩

variable {ps : List Packet}

/-- The first fragment, and the loop with the header of the others. -/
theorem fragments_eq (h : fragments d.sent len = .ok ps) :
    ∃ mhip : Header, mhip.hlen ≤ d.ip.hlen ∧ mhip.key = d.sent.ip.key ∧ ps = ⟨{ d.sent.ip with
          ip_off := htons (setBit d.ip.ip_off IP_MF), ip_len := htons (len + d.sent.ip.hlen) },
          d.data.take len⟩ ::
        fragmentLoop d.sent mhip d.ip.ip_len (d.ip.hlen + len) len := by
  have hlen := d.hlen_eq
  have hwords : 4 ∣ d.sent.ip.hlen - 20 := by
    show 4 ∣ d.ip.ip_hl * 4 - 20
    omega
  unfold fragments at h
  split at h
  · cases hcopy : ip_optcopy d.sent with
    | none =>
      rw [hcopy] at h
      cases h
    | some options =>
      rw [hcopy] at h
      cases h
      obtain ⟨hdvd, hle⟩ := ip_optcopy_length hwords hcopy
      refine ⟨{ d.sent.ip with options := options, ip_hl := (20 + options.length) / 4 },
        ?_, rfl, ?_⟩
      rotate_left
      · rw [Nat.add_comm len]
        rfl
      show (20 + options.length) / 4 * 4 ≤ d.ip.hlen
      have : d.sent.ip.hlen = d.ip.hlen := rfl
      omega
  · cases h
    refine ⟨d.sent.ip, le_refl _, rfl, ?_⟩
    rw [Nat.add_comm len]
    rfl

/-- The data bytes of the fragments for an interface. -/
def fragmentSize (d : Datagram) (if_mtu : Nat) : Nat := (if_mtu - d.ip.hlen) / 8 * 8

theorem ipv4_output_eq (h : ipv4_output d if_mtu = .ok ps)
    (hbig : if_mtu < d.ip.ip_len) :
    d.ip.ip_off = 0 ∧ 8 ≤ fragmentSize d if_mtu ∧
      fragments d.sent (fragmentSize d if_mtu) = .ok ps := by
  unfold ipv4_output at h
  dsimp only at h
  rw [if_neg (by omega)] at h
  rcases d.off_eq with hoff | hoff
  · have hdf : hasBit d.ip.ip_off IP_DF = false := by rw [hoff]; rfl
    rw [hdf, if_neg (by decide)] at h
    have hsize : (if_mtu - ({ d.ip with ip_id := htons d.ip.ip_id } : Header).hlen) / 8 * 8 =
        fragmentSize d if_mtu := rfl
    rw [hsize] at h
    split at h
    · cases h
    · exact ⟨hoff, by omega, h⟩
  · have hdf : hasBit d.ip.ip_off IP_DF = true := by rw [hoff]; rfl
    rw [hdf, if_pos rfl] at h
    cases h

/-- **What is sent of a datagram that is too big**: its fragments, the first one with the header of
the datagram. -/
theorem ipv4_output_fragments (h : ipv4_output d if_mtu = .ok ps)
    (hbig : if_mtu < d.ip.ip_len) :
    Fragments d if_mtu (fragmentSize d if_mtu) 0 ps ∧ 8 ≤ fragmentSize d if_mtu ∧
      d.ip.hlen + fragmentSize d if_mtu < d.ip.ip_len ∧
      ∃ first rest, ps = first :: rest ∧ first.ip.ip_hl = d.ip.ip_hl ∧
        first.ip.options = d.ip.options := by
  have hdlen := d.len_eq
  have hle := d.len_le
  have hid := d.id_lt
  obtain ⟨hoff, hlen8, hfragments⟩ := ipv4_output_eq h hbig
  obtain ⟨mhip, hmhlen, hmkey, rfl⟩ := fragments_eq hfragments
  have hmtu : d.ip.hlen + fragmentSize d if_mtu ≤ if_mtu := by
    unfold fragmentSize at hlen8 ⊢
    omega
  have hdvd : 8 ∣ fragmentSize d if_mtu := ⟨_, Nat.mul_comm _ _⟩
  have hkey : ∀ mhip : Header, mhip.key = d.sent.ip.key →
      ({ mhip with ip_id := htons mhip.ip_id } : Header).key = d.ip.key := by
    intro mhip hkey
    obtain ⟨hid', hsrc, hdst, hp⟩ := Key.mk.inj hkey
    have hhost : htons mhip.ip_id = d.ip.ip_id := by
      rw [hid']
      exact htons_htons hid
    unfold Header.key
    rw [hhost]
    exact congr (congr (congrArg _ hsrc) hdst) hp
  have hlength : (d.data.take (fragmentSize d if_mtu)).length = fragmentSize d if_mtu := by
    rw [length_take]
    omega
  refine ⟨.more ?_ rfl hlength ?_, hlen8, by omega, _, _, rfl, rfl, rfl⟩
  · have hunits : setBit d.ip.ip_off IP_MF = 0 / 8 + if true then IP_MF else 0 := by
      rw [hoff]
      rfl
    have hsum : fragmentSize d if_mtu + d.sent.ip.hlen ≤ if_mtu := by
      rw [Nat.add_comm]
      exact hmtu
    exact isFragment_mk (hkey d.sent.ip rfl) hunits ⟨0, rfl⟩ (by omega) hlength.symm
      (ne_nil_of_length_pos (by omega)) hsum (by omega)
  · rw [Nat.zero_add]
    exact @fragmentLoop_spec d if_mtu _ d.sent mhip rfl rfl rfl hoff (hkey mhip hmkey) hmhlen hmtu
      hdvd (by omega) d.ip.ip_len (fragmentSize d if_mtu) hdvd (by omega) (by omega)

/-! ## What a fragment says -/

namespace IsFragment

variable {o : Nat} {mf : Bool} {p : Packet}

section

variable (h : IsFragment d if_mtu o mf p)
include h

theorem off_eq : p.off = o := by
  have hdvd := h.dvd
  have hlt := h.lt
  unfold Packet.off
  rw [h.ip_off]
  unfold IP_MF
  cases mf
  · simp only [Bool.false_eq_true, if_false]
    omega
  · simp only [if_true]
    omega

theorem mff_eq : p.frag.ipf_mff = mf := by
  have hlt := h.lt
  show hasBit p.host.ip_off IP_MF = mf
  rw [h.ip_off]
  cases mf
  · exact hasBit_units hlt
  · unfold hasBit IP_MF
    simp only [if_true, decide_eq_true_eq]
    omega

theorem frag_off : p.frag.ip_off = int16 o := by
  have hdvd := h.dvd
  show int16 (p.host.ip_off * 8) = int16 o
  rw [h.ip_off]
  unfold IP_MF int16
  cases mf
  · simp only [Bool.false_eq_true, if_false]
    omega
  · simp only [if_true]
    omega

theorem frag_len : p.frag.ip_len = int16 p.data.length := by
  show int16 (p.host.ip_len - p.host.hlen) = int16 p.data.length
  rw [h.ip_len]
  congr 1
  omega

/-- `ipv4_input()` takes it for a fragment. -/
theorem fragmented (hmf : mf = true ∨ 0 < o) :
    clearBit p.host.ip_off IP_DF ≠ 0 ∧ (p.frag.ipf_mff ∨ p.frag.ip_off ≠ 0) := by
  have hdvd := h.dvd
  have hlt := h.lt
  have hdf : hasBit p.host.ip_off IP_DF = false := by
    rw [h.ip_off]
    unfold hasBit IP_DF IP_MF
    rw [decide_eq_false_iff_not]
    split <;> omega
  constructor
  · unfold clearBit
    rw [hdf, h.ip_off]
    unfold IP_MF
    rcases hmf with rfl | hpos
    · simp
    · simp only [Bool.false_eq_true, if_false]
      omega
  · rw [h.mff_eq, h.frag_off]
    rcases hmf with rfl | hpos
    · exact Or.inl rfl
    · right
      unfold int16
      omega

end

end IsFragment

/-! ## The fragments together -/

namespace Fragments

variable {o : Nat} {ps : List Packet}

section

variable (h : Fragments d if_mtu len o ps)
include h

theorem consecutive :
    Consecutive (fun p : Packet => (p.off : Int)) (fun p => (p.data.length : Int)) o ps := by
  induction h with
  | last hp _ _ => exact ⟨congrArg _ hp.off_eq, trivial⟩
  | more hp _ hlength _ ih =>
    refine ⟨congrArg _ hp.off_eq, ?_⟩
    dsimp only
    rw [hlength, ← Int.natCast_add]
    exact ih

theorem isFragment :
    ∀ p ∈ ps, ∃ mf, IsFragment d if_mtu p.off mf p ∧ p.data.length ≤ len ∧ (mf = true ∨ o ≤ p.off) := by
  induction h with
  | last hp _ hlength =>
    intro q hq
    obtain rfl := mem_singleton.mp hq
    have := hp.off_eq
    exact ⟨false, by rwa [this], hlength, Or.inr (by omega)⟩
  | more hp _ hlength _ ih =>
    intro q hq
    rcases mem_cons.mp hq with rfl | hq
    · have := hp.off_eq
      exact ⟨true, by rwa [this], hlength.le, Or.inl rfl⟩
    · obtain ⟨mf, hq, hle, hmf⟩ := ih q hq
      exact ⟨mf, hq, hle, hmf.imp_right (by omega)⟩

theorem length_pos : ∀ p ∈ ps, 0 < (p.data.length : Int) := by
  intro p hp
  obtain ⟨mf, hp, -, -⟩ := h.isFragment p hp
  have := length_pos_iff.mpr hp.data_ne
  omega

theorem apart_off {p q : Packet} (hp : p ∈ ps) (hq : q ∈ ps)
    (hlt : p.off < q.off) : p.off + p.data.length ≤ q.off := by
  have := h.consecutive.apart h.length_pos hp hq (Int.ofNat_lt.mpr hlt)
  exact Int.ofNat_le.mp this

theorem eq_of_off {p q : Packet} (hp : p ∈ ps) (hq : q ∈ ps)
    (heq : p.off = q.off) : p = q :=
  h.consecutive.eq_of_off h.length_pos hp hq (congrArg Int.ofNat heq)

theorem end_le :
    ∀ p ∈ ps, p.off + p.data.length ≤ d.data.length := by
  have hend : ∀ {o : Nat} {mf : Bool} {p : Packet}, IsFragment d if_mtu o mf p →
      p.data.length ≤ d.data.length - o → p.off + p.data.length ≤ d.data.length := by
    intro o mf p hp hle
    have hpos := length_pos_iff.mpr hp.data_ne
    rw [hp.off_eq]
    omega
  induction h with
  | last hp hdata _ =>
    intro q hq
    obtain rfl := mem_singleton.mp hq
    exact hend hp (by rw [hdata, length_drop])
  | more hp hdata _ _ ih =>
    intro q hq
    rcases mem_cons.mp hq with rfl | hq
    · refine hend hp ?_
      rw [hdata, length_take, length_drop]
      omega
    · exact ih q hq

theorem data_eq : ps.flatMap Packet.data = d.data.drop o := by
  induction h with
  | last _ hdata _ =>
    rw [flatMap_cons, hdata]
    exact append_nil _
  | more _ hdata _ _ ih =>
    rw [flatMap_cons, hdata, ih, ← drop_drop]
    exact take_append_drop _ _

/-- Only the last fragment says that it is the last, and it begins where the data of whole fragments
ends. -/
theorem last_iff (hdvd : len ∣ o) (hpos : 0 < len) :
    ∃ l, ps.getLast? = some l ∧ l.off = (d.data.length - 1) / len * len ∧
      ∀ p ∈ ps, p.frag.ipf_mff = false ↔ p = l := by
  induction h with
  | @last o p hp hdata hlength =>
    refine ⟨p, rfl, ?_, ?_⟩
    · have hne := length_pos_iff.mpr hp.data_ne
      rw [hdata, length_drop] at hlength hne
      obtain ⟨k, rfl⟩ := hdvd
      rw [hp.off_eq]
      have hdiv : (d.data.length - 1) / len = k := by
        rw [Nat.div_eq_iff hpos]
        constructor
        · rw [Nat.mul_comm]
          omega
        · rw [Nat.mul_comm]
          omega
      rw [hdiv, Nat.mul_comm]
    · intro q hq
      obtain rfl := mem_singleton.mp hq
      exact ⟨fun _ => rfl, fun _ => hp.mff_eq⟩
  | @more o p ps hp hdata hlength hrest ih =>
    obtain ⟨l, hl, hoff, hiff⟩ := ih (Nat.dvd_add hdvd (Nat.dvd_refl _))
    refine ⟨l, ?_, hoff, ?_⟩
    · cases ps with
      | nil => cases hl
      | cons q ps => rw [List.getLast?_cons_cons, hl]
    · intro q hq
      rcases mem_cons.mp hq with rfl | hq
      · rw [hp.mff_eq]
        constructor
        · intro h
          cases h
        · rintro rfl
          -- the first fragment is not one of the others
          have hmem := mem_of_getLast? hl
          have hle := hrest.consecutive.le_off hrest.length_pos q hmem
          have := hp.off_eq
          omega
      · exact hiff q hq

end

end Fragments

end Output

end Ipv4
