import OpenBeOS.Net.Ip

/-! # Reassembly of any fragments

The fragments of a datagram come in any order and overlap in any way. `ip_off` and `ip_len` are
`int16`s: while no fragment reaches behind the first 32768 bytes they are the numbers that are meant.
-/

namespace Ipv4

open List

/-- A fragment as it is received: `off` in bytes, and the data. -/
structure Fragment where
  ip : Header
  off : Nat
  mff : Bool
  data : List UInt8

/-- What `ip_reass()` gets. -/
def Fragment.frag (r : Fragment) : Frag where
  ip := r.ip
  ipf_mff := r.mff
  ip_len := int16 r.data.length
  ip_off := int16 r.off
  data := r.data

/-- The queue of one datagram, and the fragments that have come for it. -/
structure Reassembly where
  received : List Fragment
  frags : List Frag

/-- Another fragment: the queue, and the datagram if there is one; then the queue is gone. -/
def Reassembly.arrive (s : Reassembly) (r : Fragment) :
    Reassembly × Option (Header × List UInt8) :=
  match ip_reass r.frag s.frags with
  | .dropped => (⟨r :: s.received, s.frags⟩, none)
  | .waits frags => (⟨r :: s.received, frags⟩, none)
  | .whole ip data => (⟨[], []⟩, some (ip, data))

/-- The queue after fragments. -/
def Reassembly.run (s : Reassembly) (rs : List Fragment) : Reassembly :=
  rs.foldl (fun s r => (s.arrive r).1) s

/-- The offset of a queued fragment in its datagram. -/
def Frag.start (q : Frag) : Nat := (q.ip_off % 65536).toNat

/-- One of the fragments carries this byte at this position. -/
def Carried (rs : List Fragment) (position : Nat) (b : UInt8) : Prop :=
  ∃ r ∈ rs, r.off ≤ position ∧ r.data[position - r.off]? = some b

/-- The queue is sorted and disjoint, with the bytes that were received. -/
structure Reassembly.Sound (s : Reassembly) : Prop where
  ordered : s.frags.Pairwise fun p q => p.start + p.data.length ≤ q.start
  bytes : ∀ q ∈ s.frags, ∀ i b, q.data[i]? = some b → Carried s.received (q.start + i) b

/-- The datagram is covered by the fragments, up to the end of the last one. -/
structure Covered (rs : List Fragment) (ip : Header) (data : List UInt8) : Prop where
  bytes : ∀ i b, data[i]? = some b → Carried rs i b
  last : ∃ r ∈ rs, r.mff = false ∧ r.off + r.data.length = data.length
  len : ip.ip_len = data.length
  len_lt : data.length < 65536

/-- The numbers of the fragment are `int16`s. -/
structure Fragment.Small (r : Fragment) : Prop where
  off_lt : r.off < 32768
  len_lt : r.data.length < 32768
  end_le : r.off + r.data.length ≤ 32768

/-! ## Cut fragments -/

/-- The queued fragment is the end of a received one. -/
structure Frag.Of (q : Frag) (r : Fragment) : Prop where
  small : r.Small
  off_le : r.off ≤ q.ip_off
  off_lt : q.ip_off < 32768
  end_eq : q.ip_off + q.ip_len = r.off + r.data.length
  data_eq : q.data = r.data.drop (q.ip_off - r.off).toNat
  len_nonneg : 0 ≤ q.ip_len
  mff_eq : q.ipf_mff = r.mff

variable {rs : List Fragment} {r : Fragment} {p q x : Frag} {frags : List Frag}

theorem Fragment.Small.of (h : r.Small) : r.frag.Of r := by
  obtain ⟨hoff, hlen, -⟩ := id h
  have hoff' : r.frag.ip_off = r.off := int16_eq (by omega) (by omega)
  have hlen' : r.frag.ip_len = r.data.length := int16_eq (by omega) (by omega)
  refine ⟨h, by omega, by omega, by omega, ?_, by omega, rfl⟩
  rw [hoff', Int.sub_self]
  rfl

theorem Frag.Of.len_eq (h : q.Of r) : q.ip_len = q.data.length := by
  have hend := h.end_eq
  have hle := h.off_le
  have hpos := h.len_nonneg
  rw [h.data_eq, length_drop]
  omega

theorem Frag.Of.start_eq (h : q.Of r) : (q.start : Int) = q.ip_off := by
  have hle := h.off_le
  have hlt := h.off_lt
  unfold Frag.start
  omega

theorem Frag.Of.cut (h : q.Of r) {i : Int} (hpos : 0 < i) (hlt : i < q.ip_len) :
    Frag.Of { q with
      data := q.data.drop i.toNat
      ip_off := int16 (q.ip_off + i)
      ip_len := int16 (q.ip_len - i) } r := by
  obtain ⟨hsmall, hle, hoff, hend, hdata, hnonneg, hmff⟩ := id h
  obtain ⟨hoff', hlen', hend'⟩ := hsmall
  rw [int16_eq (by omega) (by omega), int16_eq (by omega) (by omega)]
  refine ⟨h.small, by dsimp only; omega, by dsimp only; omega, by dsimp only; omega, ?_,
    by dsimp only; omega, hmff⟩
  dsimp only
  rw [hdata, drop_drop]
  congr 1
  omega

/-- A fragment ends where the next one begins, or in front of it. -/
def Frag.Before (p q : Frag) : Prop := p.ip_off + p.ip_len ≤ q.ip_off

/-- The queue is in order, and comes from the fragments. -/
structure Queued (rs : List Fragment) (frags : List Frag) : Prop where
  ordered : frags.Pairwise Frag.Before
  of : ∀ q ∈ frags, ∃ r ∈ rs, q.Of r

theorem Queued.sound (h : Queued rs frags) : (Reassembly.mk rs frags).Sound := by
  constructor
  · refine h.ordered.imp_of_mem fun {p q} hp hq hbefore => ?_
    obtain ⟨r, -, hr⟩ := h.of p hp
    obtain ⟨r', -, hr'⟩ := h.of q hq
    have hstart := hr.start_eq
    have hstart' := hr'.start_eq
    have hlen := hr.len_eq
    unfold Frag.Before at hbefore
    omega
  · intro q hq i b hb
    obtain ⟨r, hmem, hr⟩ := h.of q hq
    have hstart := hr.start_eq
    have hle := hr.off_le
    refine ⟨r, hmem, by omega, ?_⟩
    rw [hr.data_eq, getElem?_drop] at hb
    rw [← hb]
    congr 1
    omega

/-- Where the new fragment overlaps with the one in front of it, it is cut. -/
theorem trimNew_of (hx : x.Of r) {prev : Option Frag} {x' : Frag}
    (htrim : trimNew prev x = some x') :
    x'.Of r ∧ ∀ p ∈ prev, p.Before x' := by
  unfold trimNew at htrim
  cases prev with
  | none =>
    cases htrim
    exact ⟨hx, nofun⟩
  | some p =>
    dsimp only at htrim
    split at htrim
    · rename_i hpos
      split at htrim
      · cases htrim
      · rename_i hlt
        cases htrim
        have hcut := hx.cut hpos (by omega)
        refine ⟨hcut, fun p' hp' => ?_⟩
        cases hp'
        have hend := hcut.end_eq
        have hend' := hx.end_eq
        have hsmall := hx.small.end_le
        have hoff := hx.off_le
        show p.ip_off + p.ip_len ≤ int16 _
        rw [int16_eq (by omega) (by omega)]
        omega
    · cases htrim
      refine ⟨hx, fun p' hp' => ?_⟩
      cases hp'
      unfold Frag.Before
      omega

/-- What is left of the fragments behind the new one. -/
theorem Queued.trimOld (h : Queued rs frags) :
    Queued rs (trimOld x frags) ∧ ∀ q ∈ trimOld x frags, x.Before q := by
  induction frags with
  | nil => exact ⟨h, nofun⟩
  | cons q rest ih =>
    obtain ⟨hq, hordered⟩ := pairwise_cons.mp h.ordered
    obtain ⟨⟨r, hr, hof⟩, hrest⟩ := forall_mem_cons.mp h.of
    have hnonneg := hof.len_nonneg
    unfold Ipv4.trimOld
    split
    · rename_i hover
      dsimp only
      split
      · rename_i hlt
        have hcut := hof.cut (by omega) hlt
        have hend := hcut.end_eq
        rw [← hof.end_eq] at hend
        refine ⟨⟨pairwise_cons.mpr ⟨fun q' hq' => ?_, hordered⟩,
          forall_mem_cons.mpr ⟨⟨r, hr, hcut⟩, hrest⟩⟩, forall_mem_cons.mpr ⟨?_, fun q' hq' => ?_⟩⟩
        · exact Int.le_trans (Int.le_of_eq hend) (hq q' hq')
        · have hlen := hof.small.len_lt
          have hoff := hof.off_le
          have hend' := hof.end_eq
          have hsmall := hof.small.end_le
          show x.ip_off + x.ip_len ≤ int16 _
          rw [int16_eq (by omega) (by omega)]
          omega
        · have hbefore := hq q' hq'
          unfold Frag.Before at hbefore ⊢
          omega
      · exact ih ⟨hordered, hrest⟩
    · rename_i hover
      refine ⟨h, forall_mem_cons.mpr ⟨by unfold Frag.Before; omega, fun q' hq' => ?_⟩⟩
      have hbefore := hq q' hq'
      unfold Frag.Before at hbefore ⊢
      omega

/-- The new fragment is in its place. -/
theorem Queued.insert (h : Queued rs frags) (hr : r ∈ rs) (hx : x.Of r) {f : Frag → Bool}
    {x' : Frag} (htrim : trimNew (frags.takeWhile f).getLast? x = some x') :
    Queued rs (frags.takeWhile f ++ x' :: Ipv4.trimOld x' (frags.dropWhile f)) := by
  obtain ⟨hof, hprev⟩ := trimNew_of hx htrim
  have htake : Queued rs (frags.takeWhile f) :=
    ⟨h.ordered.sublist (takeWhile_sublist f), fun q hq => h.of q ((takeWhile_sublist f).subset hq)⟩
  have hdrop : Queued rs (frags.dropWhile f) :=
    ⟨h.ordered.sublist (dropWhile_sublist f), fun q hq => h.of q ((dropWhile_sublist f).subset hq)⟩
  obtain ⟨hold, hbehind⟩ := hdrop.trimOld (x := x')
  refine ⟨pairwise_append.mpr ⟨htake.ordered, pairwise_cons.mpr ⟨hbehind, hold.ordered⟩, ?_⟩, ?_⟩
  · intro p hp q hq
    -- the fragment in front of the new one is the last to end
    have hfront : p.Before x' := by
      rcases eq_nil_or_concat (frags.takeWhile f) with hnil | ⟨init, last, hconcat⟩
      · rw [hnil] at hp
        cases hp
      · rw [concat_eq_append] at hconcat
        have hlast := hprev last (by rw [hconcat, getLast?_concat]; rfl)
        obtain ⟨s, -, hs⟩ := htake.of last (by rw [hconcat]; exact mem_concat_self)
        have hordered := htake.ordered
        rw [hconcat] at hp hordered
        rcases mem_append.mp hp with hp | hp
        · have hbefore := (pairwise_append.mp hordered).2.2 p hp last (mem_singleton_self last)
          have hnonneg := hs.len_nonneg
          unfold Frag.Before at hbefore hlast ⊢
          omega
        · rwa [mem_singleton.mp hp]
    rcases mem_cons.mp hq with rfl | hq
    · exact hfront
    · have hbefore := hbehind q hq
      have hnonneg := hof.len_nonneg
      unfold Frag.Before at hbefore hfront ⊢
      omega
  · intro q hq
    rcases mem_append.mp hq with hq | hq
    · exact htake.of q hq
    · rcases mem_cons.mp hq with rfl | hq
      · exact ⟨r, hr, hof⟩
      · exact hold.of q hq

/-! ## Datagrams -/

/-- Fragments that follow each other cover the bytes from `n` on. -/
theorem follow_covers (h : ∀ q ∈ frags, ∃ r ∈ rs, q.Of r) {n : Nat} {next : Int}
    (hfollow : follow n frags = some next) :
    next = n + (frags.flatMap Frag.data).length ∧
      (∀ i b, (frags.flatMap Frag.data)[i]? = some b → Carried rs (n + i) b) ∧
      ∀ q ∈ frags.getLast?, q.ip_off + q.ip_len = next := by
  induction frags generalizing n with
  | nil =>
    cases hfollow
    exact ⟨(Int.add_zero _).symm, nofun, nofun⟩
  | cons q rest ih =>
    obtain ⟨⟨r, hr, hof⟩, hrest⟩ := forall_mem_cons.mp h
    unfold follow at hfollow
    split at hfollow
    · cases hfollow
    · rename_i hoff
      have hlen := hof.len_eq
      have hle := hof.off_le
      rw [hlen, ← Int.natCast_add] at hfollow
      obtain ⟨hnext, hbytes, hlast⟩ := ih hrest hfollow
      rw [flatMap_cons, length_append]
      refine ⟨by omega, fun i b hb => ?_, fun q' hq' => ?_⟩
      · rcases Nat.lt_or_ge i q.data.length with hi | hi
        · rw [getElem?_append_left hi, hof.data_eq, getElem?_drop] at hb
          refine ⟨r, hr, by omega, ?_⟩
          rw [← hb]
          congr 1
          omega
        · rw [getElem?_append_right hi] at hb
          have hcarried := hbytes _ b hb
          rwa [Nat.add_assoc, Nat.add_sub_cancel' hi] at hcarried
      · cases rest with
        | nil =>
          rw [getLast?_singleton] at hq'
          cases hq'
          cases hfollow
          omega
        | cons q₂ rest =>
          rw [getLast?_cons_cons] at hq'
          exact hlast q' hq'

/-- What `complete()` makes of the queue. -/
theorem Queued.complete (h : Queued rs frags) (key : Key) :
    Ipv4.complete key frags = .waits frags ∨
      ∃ ip data, Ipv4.complete key frags = .whole ip data ∧ Covered rs ip data := by
  unfold Ipv4.complete
  split
  · rename_i next first last hfollow hfirst hlast
    split
    · exact .inl rfl
    · rename_i hmff
      obtain ⟨hnext, hbytes, hend⟩ := follow_covers (n := 0) h.of hfollow
      obtain ⟨r, hr, hof⟩ := h.of last (mem_of_getLast? hlast)
      have hend' := hof.end_eq
      rw [hend last hlast] at hend'
      have hsmall := hof.small.end_le
      refine .inr ⟨_, _, rfl, ?_, ⟨r, hr, ?_, by omega⟩, by dsimp only; omega, by omega⟩
      · intro i b hb
        have hcarried := hbytes i b hb
        rwa [Nat.zero_add] at hcarried
      · rw [← hof.mff_eq]
        exact Bool.eq_false_iff.mpr hmff
  · exact .inl rfl

theorem arrive_spec {s : Reassembly} (h : Queued s.received s.frags) (hr : r.Small) :
    Queued (s.arrive r).1.received (s.arrive r).1.frags ∧
      ∀ ip data, (s.arrive r).2 = some (ip, data) → Covered (r :: s.received) ip data := by
  have hmore : Queued (r :: s.received) s.frags :=
    ⟨h.ordered, fun q hq => (h.of q hq).imp fun r' hr' => ⟨mem_cons_of_mem _ hr'.1, hr'.2⟩⟩
  unfold Reassembly.arrive ip_reass
  dsimp only
  cases htrim : trimNew _ r.frag with
  | none => exact ⟨hmore, nofun⟩
  | some x' =>
    have hinsert := hmore.insert (mem_cons_self ..) hr.of htrim
    dsimp only
    rcases hinsert.complete r.frag.ip.key with hwaits | ⟨ip, data, hwhole, hcovered⟩
    · rw [hwaits]
      exact ⟨hinsert, nofun⟩
    · rw [hwhole]
      refine ⟨⟨Pairwise.nil, nofun⟩, fun ip' data' heq => ?_⟩
      cases heq
      exact hcovered

theorem run_queued {s : Reassembly} (h : Queued s.received s.frags) {rs : List Fragment}
    (hrs : ∀ r ∈ rs, r.Small) : Queued (s.run rs).received (s.run rs).frags := by
  induction rs generalizing s with
  | nil => exact h
  | cons r rs ih =>
    obtain ⟨hr, hrest⟩ := forall_mem_cons.mp hrs
    exact ih (arrive_spec h hr).1 hrest

/-- **Reassembly is sound**: while no fragment reaches behind the first 32768 bytes, the queue is
sorted and disjoint with the bytes that were received, and a datagram is covered by its fragments. -/
theorem reassembly_sound {rs : List Fragment} (hrs : ∀ r ∈ rs, r.Small) :
    (Reassembly.run ⟨[], []⟩ rs).Sound ∧
      ∀ r : Fragment, r.Small → ∀ ip data,
        ((Reassembly.run ⟨[], []⟩ rs).arrive r).2 = some (ip, data) →
          Covered (r :: (Reassembly.run ⟨[], []⟩ rs).received) ip data := by
  have h : Queued (Reassembly.run ⟨[], []⟩ rs).received (Reassembly.run ⟨[], []⟩ rs).frags :=
    run_queued ⟨Pairwise.nil, fun q hq => absurd hq not_mem_nil⟩ hrs
  exact ⟨h.sound, fun r hr => (arrive_spec h hr).2⟩

/-- A fragment of `n` bytes. -/
def Fragment.zeros (off n : Nat) (mff : Bool) : Fragment := ⟨⟨5, 0, 1, 0, 6, 1, 2, []⟩, off, mff, replicate n 0⟩

theorem reassembly_sound_two : (Reassembly.run ⟨[], []⟩ [.zeros 8 8 false]).Sound ∧
    ∃ ip data, ((Reassembly.run ⟨[], []⟩ [.zeros 8 8 false]).arrive (.zeros 0 12 true)).2 =
      some (ip, data) ∧ Covered [.zeros 0 12 true, .zeros 8 8 false] ip data := by
  have hsmall : ∀ r ∈ [Fragment.zeros 8 8 false], r.Small :=
    forall_mem_singleton.mpr ⟨by decide, by decide, by decide⟩
  have h := reassembly_sound hsmall
  exact ⟨h.1, _, _, rfl, h.2 (.zeros 0 12 true) ⟨by decide, by decide, by decide⟩ _ _ rfl⟩

theorem reassembly_unsorted :
    ¬ (Reassembly.run ⟨[], []⟩ [.zeros 0 8 true, .zeros 32768 8 false]).Sound := by
  intro h
  exact absurd h.ordered (by decide)

end Ipv4
