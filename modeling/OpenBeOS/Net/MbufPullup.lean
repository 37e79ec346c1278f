import OpenBeOS.Net.Mbuf

/-! # Contiguous bytes from `m_pullup`

The first test of `m_pullup` is the wrong way round: a first mbuf that is too short is given back as
it is. The loop behind it is only reached with a first mbuf that has more than is asked for.
-/

namespace Ppp

open List

/-- The loop of `m_pullup`: the bytes in `m`, the mbufs from `n` on, and the `len` and the `space` that
are left. -/
structure Pull where
  data : List Byte
  n : List (List Byte)
  len : Int
  space : Nat

/-- One turn, which frees the mbuf when it is empty. -/
def Pull.turn (p : Pull) (max_protohdr : Nat) (bytes : List Byte) (next : List (List Byte)) : Pull :=
  let count := min (min (max p.len.toNat max_protohdr) p.space) bytes.length
  { data := p.data ++ bytes.take count
    n := if bytes.length - count ≠ 0 then bytes.drop count :: next else next
    len := p.len - count
    space := p.space - count }

/-- `none` when the fuel is spent. -/
def Pull.loop (max_protohdr : Nat) : Nat → Pull → Option Pull
  | 0, _ => none
  | fuel + 1, p =>
    match p.n with
    | [] => some p
    | bytes :: next =>
      let p' := p.turn max_protohdr bytes next
      if p'.len > 0 ∧ p'.n ≠ [] then Pull.loop max_protohdr fuel p' else some p'

namespace Packet

variable {m : Packet} {len max_protohdr : Nat}

/-- The bytes of the mbufs. -/
def segments (m : Packet) : List (List Byte) := m.head.bytes :: m.next.map Mbuf.bytes

/-- What `m_pullup` returns behind the loop, where NULL is `some none`. -/
def pulled (max_protohdr fuel : Nat) (p : Pull) : Option (Option (List (List Byte))) :=
  (Pull.loop max_protohdr fuel p).map fun p => if p.len > 0 then none else some (p.data :: p.n)

/-- `m_pullup`, with the mbufs as their bytes. -/
def pullup (m : Packet) (len max_protohdr : Nat) : Option (Option (List (List Byte))) :=
  if m.m_len ≤ len then some (some m.segments)
  else if m.head.ext_size = none ∧ m.head.m_data + len < M_DATASIZE none m.head.pkthdr ∧
      m.next ≠ [] then
    if m.m_len ≥ len then some (some m.segments)
    else
      pulled max_protohdr (m.next.length + 1)
        ⟨m.head.bytes, m.next.map Mbuf.bytes, len - m.m_len,
          M_DATASIZE none m.head.pkthdr - (m.head.m_data + m.m_len)⟩
  else if len > MHLEN then some none
  else
    pulled max_protohdr (m.segments.length + 1)
      ⟨[], m.segments, len, if m.head.pkthdr then MHLEN else MLEN⟩

/-- NULL exactly when there are fewer bytes, and else the same bytes with `len` of them in front. -/
def PulledUp (m : Packet) (len max_protohdr : Nat) : Prop :=
  ∃ result, m.pullup len max_protohdr = some result ∧ (result = none ↔ len > m.bytes.length) ∧
    ∀ segments ∈ result, segments.flatten = m.bytes ∧
      ∃ first next, segments = first :: next ∧ len ≤ first.length

theorem flatten_segments (m : Packet) : m.segments.flatten = m.bytes := by
  unfold segments bytes
  rw [flatten_cons, flatMap_def]

/-- The first mbuf has more than is asked for: one turn is enough. -/
theorem pulled_first (hlen : len ≤ MHLEN) (hmore : len < m.m_len) (max_protohdr fuel : Nat) :
    ∃ count next, len ≤ count ∧ count ≤ m.m_len ∧ next.flatten = m.bytes.drop count ∧
      pulled max_protohdr (fuel + 1) ⟨[], m.segments, len, if m.head.pkthdr then MHLEN else MLEN⟩ =
        some (some (m.head.bytes.take count :: next)) := by
  have hspace : len ≤ if m.head.pkthdr then MHLEN else MLEN := by
    split
    · exact hlen
    · exact Nat.le_trans hlen (by decide)
  generalize hcount : min (min (max len max_protohdr) (if m.head.pkthdr then MHLEN else MLEN))
    m.m_len = count
  have hge : len ≤ count := by omega
  have hle : count ≤ m.head.bytes.length := hcount ▸ Nat.min_le_right ..
  have hdrop : m.bytes.drop count =
      m.head.bytes.drop count ++ (m.next.map Mbuf.bytes).flatten := by
    unfold bytes
    rw [drop_append_of_le_length hle, flatMap_def]
  refine ⟨count, if m.head.bytes.length - count ≠ 0 then
    m.head.bytes.drop count :: m.next.map Mbuf.bytes else m.next.map Mbuf.bytes,
    hge, hle, ?_, ?_⟩
  · rw [hdrop]
    split
    · rw [flatten_cons]
    · rw [drop_eq_nil_of_le (by omega), nil_append]
  · have hdone : ¬ (len : Int) - count > 0 := by omega
    have hlength : m.head.bytes.length = m.m_len := rfl
    unfold pulled Pull.loop segments Pull.turn
    simp only [Int.toNat_natCast, hlength, hcount, hdone, false_and, if_false, Option.map_some,
      nil_append]

/-- The bytes are contiguous exactly when they were before. -/
theorem pulledUp_iff (hlen : len ≤ MHLEN) : m.PulledUp len max_protohdr ↔ len ≤ m.m_len := by
  have hfirst : m.m_len ≤ m.bytes.length := by
    unfold bytes
    rw [length_append]
    exact Nat.le_add_right ..
  have hsame (hle : len ≤ m.m_len) (h : m.pullup len max_protohdr = some (some m.segments)) :
      m.PulledUp len max_protohdr := by
    refine ⟨_, h, ⟨nofun, fun hgt => absurd hgt (by omega)⟩, fun segments hseg => ?_⟩
    cases hseg
    exact ⟨flatten_segments m, _, _, rfl, hle⟩
  constructor
  · rintro ⟨result, hresult, -, hcontiguous⟩
    by_contra hshort
    unfold pullup at hresult
    rw [if_pos (by omega)] at hresult
    cases hresult
    obtain ⟨-, first, next, heq, hle⟩ := hcontiguous _ rfl
    obtain ⟨rfl, -⟩ := cons.inj heq
    exact hshort hle
  · intro hle
    by_cases heq : m.m_len ≤ len
    · exact hsame hle (if_pos heq)
    · by_cases hroom : m.head.ext_size = none ∧
          m.head.m_data + len < M_DATASIZE none m.head.pkthdr ∧ m.next ≠ []
      · refine hsame hle ?_
        unfold pullup
        rw [if_neg heq, if_pos hroom, if_pos hle]
      · obtain ⟨count, next, hge, hcount, hnext, hpulled⟩ :=
          pulled_first hlen (Nat.lt_of_not_le heq) max_protohdr m.segments.length
        refine ⟨some (m.head.bytes.take count :: next), ?_, ⟨nofun, fun hgt => ?_⟩, fun _ hseg => ?_⟩
        · unfold pullup
          rw [if_neg heq, if_neg hroom, if_neg (by omega), hpulled]
        · omega
        · cases hseg
          refine ⟨?_, _, _, rfl, ?_⟩
          · have htake : m.head.bytes.take count = m.bytes.take count :=
              (take_append_of_le_length hcount).symm
            rw [flatten_cons, hnext, htake, take_append_drop]
          · rw [length_take]
            exact Nat.le_min.mpr ⟨hge, Nat.le_trans hge hcount⟩

/-- A header of six bytes in two mbufs. -/
def splitHeader : Packet :=
  ⟨⟨none, true, 16, [1, 2, 3, 4], by decide⟩, [⟨none, false, 0, [5, 6, 7, 8], by decide⟩]⟩

theorem pulledUp_iff_four : splitHeader.PulledUp 4 40 ↔ 4 ≤ splitHeader.m_len :=
  pulledUp_iff (by decide)

theorem splitHeader_not_pulledUp : ¬ splitHeader.PulledUp 6 40 := by
  rintro ⟨result, hresult, -, hcontiguous⟩
  obtain rfl : some splitHeader.segments = result := Option.some.inj hresult
  obtain ⟨-, first, next, heq, hle⟩ := hcontiguous _ rfl
  obtain ⟨rfl, -⟩ := cons.inj heq
  exact absurd hle (by decide)

end Packet

end Ppp
