import OpenBeOS.Lib.Stuffing
import OpenBeOS.Net.Mbuf

/-! # PPP frames on a serial line

`sppp_write` puts a packet into a frame and `sppp_read` takes the frames out of what it reads, up to
32 bytes at a time. The frame buffers are as long as needed here: how far they are used is compared
with `if_mtu`, the size they have.
-/

namespace Ppp

open List Bool

/-! ## Writing -/

def PPP_ALLSTATIONS : Byte := 0xff
def PPP_UI : Byte := 0x03
def PPP_FLAG : Byte := 0x7e
def PPP_ESCAPE : Byte := 0x7d
def PPP_TRANS : Byte := 0x20

/-- The loop that copies the packet into the buffer. -/
def escape : List Byte → List Byte
  | [] => []
  | b :: cp =>
    if b < 0x20 ∨ b = 0x7e ∨ b = 0x7d then 0x7d :: (b ^^^ PPP_TRANS) :: escape cp
    else b :: escape cp

/-- The first mbuf with the header at its beginning and the checksum over its last two bytes. -/
def checksummed (bytes : List Byte) : List Byte :=
  let cp := PPP_ALLSTATIONS :: PPP_UI :: bytes.drop 2
  let len := bytes.length
  cp.take (len - 2) ++ fcsBytes (pppfcs16 0xffff (cp.take (len - 2)) ^^^ 0xffff)

/-- What is sent for a packet: the first mbuf of the chain that `m_pullup` returns. -/
def sppp_write (max_protohdr : Nat) (m : Packet) : List Byte :=
  let m := m.addFcs.m_prepend
  match m.m_pullup m.len max_protohdr with
  | none => []
  | some m => 0x7e :: escape (checksummed m.head.bytes) ++ [0x7e]

/-! ## Reading -/

/-- The mbufs that `m_devget` copies the bytes into; `m_len` is the room in the next one. -/
def copyMbufs : Nat → Nat → List Byte → List (List Byte)
  | 0, _, _ => []
  | fuel + 1, m_len, buf =>
    if buf = [] then []
    else
      let len :=
        if buf.length ≥ MINCLSIZE then min buf.length MCLBYTES
        else if buf.length < m_len then buf.length
        else m_len
      buf.take len :: copyMbufs fuel MLEN (buf.drop len)

/-- Nothing is returned if there is nothing to copy. -/
def m_devget (buf : List Byte) (totlen : Int) : Option (List (List Byte)) :=
  match copyMbufs totlen.toNat MHLEN (buf.take totlen.toNat) with
  | [] => none
  | top => some top

/-- The buffer is filled up to `tbuff`, and `top` is the most that it has been filled. -/
structure Reader where
  tbuff : List Byte
  esc_req : Bool
  rxq : List (List (List Byte))
  top : Nat

namespace Reader

def start : Reader := ⟨[], false, [], 0⟩

def push (r : Reader) (b : Byte) : Reader :=
  { r with tbuff := r.tbuff ++ [b], top := max r.top (r.tbuff.length + 1) }

/-- The bytes of one read, up to the end of the frame; the result says whether it was found. -/
def scan (r : Reader) : List Byte → Reader × Bool
  | [] => (r, false)
  | b :: rxb =>
    if r.esc_req then scan ({ r with esc_req := false }.push (b ^^^ PPP_TRANS)) rxb
    else if b = PPP_ESCAPE then
      match rxb with
      | [] => ({ r with esc_req := true }, false)
      | b' :: rxb => scan (r.push (b' ^^^ PPP_TRANS)) rxb
    else if b = PPP_FLAG ∧ r.tbuff ≠ [] then (r.push b, true)
    else scan (r.push b) rxb

end Reader

/-- The packet in a complete frame, if its checksum is good. -/
def unframe (tbuff : List Byte) : Option (List (List Byte)) :=
  let pktlen := tbuff.length - 2
  if pppfcs16 PPP_INITFCS ((tbuff.drop 1).take pktlen) = PPP_GOODFCS then
    m_devget (tbuff.drop 3) ((pktlen : Int) - 4)
  else none

namespace Reader

/-- What is done with a complete frame. -/
def done (r : Reader) : Reader :=
  { r with tbuff := [], esc_req := false, rxq := r.rxq ++ (unframe r.tbuff).toList }

/-- One read; what it holds behind a complete frame is not looked at. -/
def read (r : Reader) (rxb : List Byte) : Reader :=
  match r.scan rxb with
  | (r, false) => r
  | (r, true) => r.done

end Reader

def sppp_read (reads : List (List Byte)) : Reader := reads.foldl Reader.read Reader.start

/-! ## The code of the frames -/

open Stuffing

def code : Code Byte where
  flag := PPP_FLAG
  esc := PPP_ESCAPE
  mask b := b ^^^ PPP_TRANS
  special b := b < 0x20 ∨ b = 0x7e ∨ b = 0x7d
  mask_mask b := by rw [BitVec.xor_assoc, BitVec.xor_self, BitVec.xor_zero]
  special_flag := by decide
  special_esc := by decide
  flag_ne_esc := by decide

theorem code_special (b : Byte) : code.special b = true ↔ b < 0x20 ∨ b = 0x7e ∨ b = 0x7d :=
  decide_eq_true_iff

theorem escape_eq (cp : List Byte) : escape cp = stuff code cp := by
  induction cp with
  | nil => rfl
  | cons b cp ih =>
    unfold escape stuff
    by_cases hspecial : b < 0x20 ∨ b = 0x7e ∨ b = 0x7d
    · rw [if_pos hspecial, if_pos ((code_special b).mpr hspecial), ih]
      rfl
    · rw [if_neg hspecial, if_neg fun h => hspecial ((code_special b).mp h), ih]

/-- A reader and the receiver of the code that has read the same. -/
structure Refines (r : Reader) (R : Receiver Byte) : Prop where
  tbuff : r.tbuff = R.line.bytes
  esc_req : r.esc_req = R.line.escaped
  rxq : r.rxq = R.frames.filterMap unframe
  top : r.top ≤ R.top

variable {R : Receiver Byte} {l : Line Byte} {r : Reader}

theorem Refines.push (h : Refines r R) {b b' : Byte}
    (hfeed : R.line.feed code b = ⟨R.line.bytes ++ [b'], false⟩) :
    Refines ({ r with esc_req := false }.push b') (R.feed code b) := by
  have htop := h.top
  have hlength := congrArg List.length h.tbuff
  refine ⟨?_, ?_, h.rxq, ?_⟩
  · show r.tbuff ++ [b'] = (R.line.feed code b).bytes
    rw [hfeed, h.tbuff]
  · show false = (R.line.feed code b).escaped
    rw [hfeed]
  · show max r.top (r.tbuff.length + 1) ≤ max R.top (R.line.feed code b).bytes.length
    rw [hfeed]
    simp only [length_append, length_singleton]
    omega

theorem Refines.complete (h : Refines r R) : Refines r.done R.complete := by
  refine ⟨rfl, rfl, ?_, h.top⟩
  show r.rxq ++ (unframe r.tbuff).toList = (R.frames ++ [R.line.bytes]).filterMap unframe
  rw [filterMap_append, h.rxq, h.tbuff]
  rw [filterMap_cons]
  cases unframe R.line.bytes <;> rfl

theorem feed_escaped (h : l.escaped = true) (b : Byte) :
    l.feed code b = ⟨l.bytes ++ [b ^^^ PPP_TRANS], false⟩ := if_pos h

theorem feed_ESCAPE (h : l.escaped = false) : l.feed code PPP_ESCAPE = ⟨l.bytes, true⟩ := by
  unfold Line.feed
  rw [if_neg (by rw [h]; exact false_ne_true)]
  exact if_pos rfl

theorem feed_other (h : l.escaped = false) {b : Byte} (hb : b ≠ PPP_ESCAPE) :
    l.feed code b = ⟨l.bytes ++ [b], false⟩ := by
  unfold Line.feed
  rw [if_neg (by rw [h]; exact false_ne_true)]
  exact if_neg hb

theorem read_of_not_completes {b : Byte} (h : ¬ R.line.Completes code b)
    (rxb : List Byte) : R.read code (b :: rxb) = (R.feed code b).read code rxb := if_neg h

/-- A read does what the receiver does, though it looks ahead behind an escape. -/
theorem Refines.read (h : Refines r R) (rxb : List Byte) :
    Refines (r.read rxb) (R.read code rxb) := by
  have hstay : ∀ {r : Reader}, r.esc_req = false → { r with esc_req := false } = r := by
    intro r hr
    rw [← hr]
  unfold Reader.read
  fun_induction Reader.scan r rxb generalizing R with
  | case1 r => exact h
  | case2 r b rxb hesc ih =>
    have hescaped : R.line.escaped = true := h.esc_req.symm.trans hesc
    rw [read_of_not_completes fun hdone => false_ne_true (hdone.1.symm.trans hescaped)]
    exact ih (h.push (feed_escaped hescaped b))
  | case3 r hesc =>
    have hplain : R.line.escaped = false := h.esc_req ▸ eq_false_iff.mpr hesc
    have hquiet : ¬ R.line.Completes code PPP_ESCAPE := fun hdone => absurd hdone.2.1 (by decide)
    rw [read_of_not_completes hquiet]
    refine ⟨?_, ?_, h.rxq, Nat.le_trans h.top (Nat.le_max_left _ _)⟩
    · show r.tbuff = (R.line.feed code PPP_ESCAPE).bytes
      rw [feed_ESCAPE hplain]
      exact h.tbuff
    · show true = (R.line.feed code PPP_ESCAPE).escaped
      rw [feed_ESCAPE hplain]
  | case4 r hesc b' rxb ih =>
    have hplain : R.line.escaped = false := h.esc_req ▸ eq_false_iff.mpr hesc
    have hquiet : ¬ R.line.Completes code PPP_ESCAPE := fun hdone => absurd hdone.2.1 (by decide)
    have hline : (R.feed code PPP_ESCAPE).line = ⟨R.line.bytes, true⟩ := feed_ESCAPE hplain
    have hquiet' : ¬ (R.feed code PPP_ESCAPE).line.Completes code b' := by
      rw [hline]
      exact fun hdone => false_ne_true hdone.1.symm
    rw [read_of_not_completes hquiet, read_of_not_completes hquiet']
    have hmid : Refines { r with esc_req := true } (R.feed code PPP_ESCAPE) := by
      refine ⟨?_, ?_, h.rxq, Nat.le_trans h.top (Nat.le_max_left _ _)⟩
      · rw [hline]
        exact h.tbuff
      · rw [hline]
    have hpush := hmid.push (b := b') (feed_escaped (by rw [hline]) b')
    have hsame : ({ { r with esc_req := true } with esc_req := false } : Reader) = r :=
      hstay (eq_false_iff.mpr hesc)
    rw [hsame] at hpush
    exact ih hpush
  | case5 r b rxb hesc hb hflag =>
    have hplain : R.line.escaped = false := h.esc_req ▸ eq_false_iff.mpr hesc
    have hdone : R.line.Completes code b := ⟨hplain, hflag.1, h.tbuff ▸ hflag.2⟩
    have hread : R.read code (b :: rxb) = (R.feed code b).complete := if_pos hdone
    rw [hread]
    have hpush := h.push (feed_other hplain hb)
    rw [hstay (eq_false_iff.mpr hesc)] at hpush
    exact hpush.complete
  | case6 r b rxb hesc hb hflag ih =>
    have hplain : R.line.escaped = false := h.esc_req ▸ eq_false_iff.mpr hesc
    have hquiet : ¬ R.line.Completes code b := fun hdone => hflag ⟨hdone.2.1, h.tbuff ▸ hdone.2.2⟩
    rw [read_of_not_completes hquiet]
    have hpush := h.push (feed_other hplain hb)
    rw [hstay (eq_false_iff.mpr hesc)] at hpush
    exact ih hpush

theorem refines_sppp_read (reads : List (List Byte)) :
    Refines (sppp_read reads) (Receiver.fresh.receive code reads) := by
  have hrun : ∀ (reads : List (List Byte)) {r : Reader} {R : Receiver Byte}, Refines r R →
      Refines (reads.foldl Reader.read r) (R.receive code reads) := by
    intro reads
    induction reads with
    | nil => exact fun h => h
    | cons rxb reads ih => exact fun h => ih (h.read rxb)
  exact hrun reads ⟨rfl, rfl, rfl, Nat.le_refl _⟩

/-! ## The packets -/

theorem copyMbufs_spec (fuel m_len : Nat) (buf : List Byte) (hfuel : buf.length ≤ fuel)
    (hm_len : 0 < m_len) :
    (copyMbufs fuel m_len buf).flatten = buf ∧ (buf ≠ [] → copyMbufs fuel m_len buf ≠ []) := by
  induction fuel generalizing m_len buf with
  | zero =>
    have hnil : buf = [] := length_eq_zero_iff.mp (Nat.le_zero.mp hfuel)
    exact ⟨hnil.symm, fun hbuf => absurd hnil hbuf⟩
  | succ fuel ih =>
    unfold copyMbufs
    split
    · rename_i hnil
      exact ⟨hnil.symm, fun hbuf => absurd hnil hbuf⟩
    · rename_i hbuf
      have hpos : 0 < buf.length := length_pos_iff.mpr hbuf
      refine ⟨?_, fun _ => nofun⟩
      dsimp only
      generalize hlen : (if buf.length ≥ MINCLSIZE then min buf.length MCLBYTES
        else if buf.length < m_len then buf.length else m_len) = len
      have hlenpos : 0 < len := by
        have hMCLBYTES : MCLBYTES = 2048 := rfl
        split at hlen
        · omega
        · split at hlen <;> omega
      have hrest : (buf.drop len).length ≤ fuel := by
        rw [length_drop]
        omega
      rw [flatten_cons, (ih MLEN (buf.drop len) hrest (by decide)).1, take_append_drop]

theorem m_devget_some {buf : List Byte} {totlen : Int} {top : List (List Byte)}
    (h : m_devget buf totlen = some top) :
    top.flatten = buf.take totlen.toNat ∧ top.flatten ≠ [] := by
  obtain ⟨hflatten, -⟩ := copyMbufs_spec totlen.toNat MHLEN (buf.take totlen.toNat)
    (length_take_le _ _) (by decide)
  unfold m_devget at h
  split at h
  · cases h
  · rename_i htop
    rw [Option.some.inj h] at hflatten
    refine ⟨hflatten, fun hempty => htop ?_⟩
    rw [hflatten.symm.trans hempty]
    cases totlen.toNat <;> rfl

theorem unframe_some {tbuff : List Byte} {top : List (List Byte)} (h : unframe tbuff = some top) :
    top.flatten ≠ [] ∧ top.flatten.length + 6 = tbuff.length := by
  unfold unframe at h
  dsimp only at h
  split at h
  · obtain ⟨hflatten, hne⟩ := m_devget_some h
    refine ⟨hne, ?_⟩
    have hpos : 0 < top.flatten.length := length_pos_iff.mpr hne
    rw [hflatten, length_take, length_drop] at hpos ⊢
    omega
  · cases h

/-- Address, control, the data and the checksum. -/
def contentOf (data : List Byte) : List Byte :=
  PPP_ALLSTATIONS :: PPP_UI :: data ++
    fcsBytes (pppfcs16 0xffff (PPP_ALLSTATIONS :: PPP_UI :: data) ^^^ 0xffff)

/-- The frame of a packet's data. -/
def frameOf (data : List Byte) : List Byte := frame code (contentOf data)

theorem contentOf_length (data : List Byte) : (contentOf data).length = data.length + 4 := by
  simp [contentOf, fcsBytes]

theorem unframe_contentOf {data : List Byte} (hdata : data ≠ []) :
    ∃ top, unframe (received code (contentOf data)) = some top ∧ top.flatten = data := by
  have hlength : (received code (contentOf data)).length - 2 = data.length + 4 := by
    simp [received, contentOf_length]
  have hchecked : ((received code (contentOf data)).drop 1).take (data.length + 4) =
      contentOf data := by
    show (contentOf data ++ [code.flag]).take (data.length + 4) = _
    rw [← contentOf_length, take_left]
  have hgood : pppfcs16 PPP_INITFCS (contentOf data) = PPP_GOODFCS := pppfcs16_good _ _
  have htake : ((received code (contentOf data)).drop 3).take data.length = data := by
    show (data ++ fcsBytes _ ++ [code.flag]).take data.length = data
    rw [append_assoc, take_left]
  have htotlen : (((data.length + 4 : Nat) : Int) - 4).toNat = data.length := by omega
  unfold unframe
  dsimp only
  rw [hlength, hchecked, if_pos hgood]
  unfold m_devget
  rw [htotlen, htake]
  obtain ⟨hflatten, hne⟩ := copyMbufs_spec data.length MHLEN data (Nat.le_refl _) (by decide)
  split
  · rename_i hnil
    exact absurd hnil (hne hdata)
  · exact ⟨_, rfl, hflatten⟩

namespace Packet

/-- The packet is one mbuf with the space that the header and the checksum need. -/
def HasRoom (m : Packet) : Prop :=
  m.next = [] ∧ m.head.M_LEADINGSPACE ≥ 2 ∧ m.head.M_TRAILINGSPACE > 2

/-- What is sent of the packet. -/
def content (m : Packet) : List Byte := checksummed m.addFcs.m_prepend.head.bytes

theorem sppp_write_eq (max_protohdr : Nat) (m : Packet) :
    sppp_write max_protohdr m = frame code m.content := by
  have hlen : m.addFcs.m_prepend.m_len ≤ m.addFcs.m_prepend.len := Nat.le_add_right _ _
  unfold sppp_write m_pullup
  dsimp only
  rw [if_pos hlen]
  dsimp only
  rw [escape_eq]
  rfl

theorem checksummed_length {bytes : List Byte} (h : 2 ≤ bytes.length) :
    (checksummed bytes).length = bytes.length := by
  unfold checksummed fcsBytes
  simp only [length_append, length_take, length_cons, length_drop, length_nil]
  omega

theorem head_addFcs_of_next (m : Packet) (h : m.next ≠ []) : m.addFcs.head = m.head := by
  unfold addFcs
  split
  · rename_i hnil
    exact absurd hnil h
  · rfl

theorem head_addFcs_of_single (m : Packet) (h : m.next = []) : m.addFcs.head = m.head.addFcs := by
  unfold addFcs
  rw [h]

theorem addFcs_leading (m : Mbuf) : m.addFcs.M_LEADINGSPACE = m.M_LEADINGSPACE := by
  unfold Mbuf.addFcs
  split <;> rfl

theorem length_le_bytes (m : Packet) : m.head.bytes.length ≤ m.bytes.length := by
  rw [bytes, length_append]
  exact Nat.le_add_right _ _

/-- Four bytes are added to a packet at most, and only if there is room for them. -/
theorem content_length (m : Packet) : m.content.length ≤ m.bytes.length + 4 ∧
      (m.content.length = m.bytes.length + 4 → m.HasRoom) := by
  have hbytes := m.length_le_bytes
  unfold content m_prepend
  split
  · rename_i hleading
    have hprepended : (m.addFcs.head.advance hleading).bytes.length =
        m.addFcs.head.bytes.length + 2 := rfl
    rw [checksummed_length (by rw [hprepended]; exact Nat.le_add_left _ _), hprepended]
    by_cases hnext : m.next = []
    · rw [head_addFcs_of_single m hnext]
      rw [head_addFcs_of_single m hnext, addFcs_leading] at hleading
      unfold Mbuf.addFcs
      split
      · rename_i htrailing
        rw [length_append]
        exact ⟨by simp; omega, fun _ => ⟨hnext, hleading, htrailing⟩⟩
      · exact ⟨by omega, fun heq => by omega⟩
    · rw [head_addFcs_of_next m hnext]
      exact ⟨by omega, fun heq => by omega⟩
  · rw [checksummed_length (Nat.le_refl _)]
    dsimp only
    have htwo : ([0, 0] : List Byte).length = 2 := rfl
    exact ⟨by omega, fun heq => by omega⟩

theorem content_of_room {m : Packet} (h : m.HasRoom) : m.content = contentOf m.bytes := by
  obtain ⟨hnext, hleading, htrailing⟩ := h
  have hhead := head_addFcs_of_single m hnext
  have hadded : m.head.addFcs.bytes = m.head.bytes ++ [0, 0] := by
    unfold Mbuf.addFcs
    rw [dif_pos htrailing]
  have hspace : m.addFcs.head.M_LEADINGSPACE ≥ 2 := by
    rw [hhead, addFcs_leading]
    exact hleading
  have hprepended : m.addFcs.m_prepend.head.bytes = 0 :: 0 :: (m.head.bytes ++ [0, 0]) := by
    unfold m_prepend
    rw [dif_pos hspace]
    show 0 :: 0 :: m.addFcs.head.bytes = _
    rw [hhead, hadded]
  have hbytes : m.bytes = m.head.bytes := by
    rw [bytes, hnext, flatMap_nil, append_nil]
  have htake : (PPP_ALLSTATIONS :: PPP_UI :: (m.head.bytes ++ [0, 0])).take
      (m.head.bytes.length + 2) = PPP_ALLSTATIONS :: PPP_UI :: m.head.bytes := by
    rw [take_succ_cons, take_succ_cons, take_left]
  have hlen : (0 :: 0 :: (m.head.bytes ++ [0, 0]) : List Byte).length - 2 =
      m.head.bytes.length + 2 := by
    simp
  rw [content, hprepended, hbytes, checksummed, contentOf, hlen, drop_succ_cons,
    drop_succ_cons, drop_zero, htake]

end Packet

/-! ## The round trip -/

/-- What is enqueued is what was sent, and neither buffer is used beyond its size. -/
structure RoundTrips (if_mtu max_protohdr : Nat) (packets : List Packet)
    (reads : List (List Byte)) : Prop where
  enqueued : (sppp_read reads).rxq.map List.flatten = packets.map Packet.bytes
  buffer : ∀ m ∈ packets, (sppp_write max_protohdr m).length ≤ if_mtu
  tbuff : (sppp_read reads).top ≤ if_mtu

/-- The packets can be sent, and no read goes on behind the end of a frame. -/
structure Fits (if_mtu : Nat) (packets : List Packet) (reads : List (List Byte)) : Prop where
  room : ∀ m ∈ packets, m.HasRoom
  nonempty : ∀ m ∈ packets, m.bytes ≠ []
  mtu : ∀ m ∈ packets, (frameOf m.bytes).length ≤ if_mtu
  aligned : Aligned reads (packets.map fun m => frameOf m.bytes)

variable {if_mtu max_protohdr : Nat} {packets : List Packet} {reads : List (List Byte)}

theorem map_sppp_write (max_protohdr : Nat) (packets : List Packet) :
    packets.map (sppp_write max_protohdr) = (packets.map Packet.content).map (frame code) := by
  rw [map_map]
  exact map_congr_left fun m _ => m.sppp_write_eq max_protohdr

theorem length_le_stuff (bs : List Byte) : bs.length ≤ (stuff code bs).length := by
  induction bs with
  | nil => exact Nat.le_refl _
  | cons b bs ih =>
    unfold stuff
    split <;> simp only [length_cons] <;> omega

theorem roundTrips_of_fits (hreads : ∀ rxb ∈ reads, rxb ≠ []) (h : Fits if_mtu packets reads) :
    RoundTrips if_mtu max_protohdr packets reads := by
  have hcontent : ∀ m ∈ packets, m.content = contentOf m.bytes :=
    fun m hm => Packet.content_of_room (h.room m hm)
  have hframes : packets.map (fun m => frameOf m.bytes) =
      (packets.map Packet.content).map (frame code) := by
    rw [map_map]
    refine map_congr_left fun m hm => ?_
    show frameOf m.bytes = frame code m.content
    rw [hcontent m hm, frameOf]
  have haligned := h.aligned
  rw [hframes] at haligned
  obtain ⟨hreceived, htop⟩ :=
    Receiver.receive_aligned (r := Receiver.fresh) (packets.map Packet.content) rfl hreads haligned
  have hrefines := refines_sppp_read reads
  refine ⟨?_, fun m hm => ?_, ?_⟩
  · have hpackets : ∀ packets : List Packet, (∀ m ∈ packets, m.HasRoom) →
        (∀ m ∈ packets, m.bytes ≠ []) →
        ((((packets.map Packet.content).map (received code)).filterMap unframe).map
          List.flatten) = packets.map Packet.bytes := by
      intro packets hroom hnonempty
      induction packets with
      | nil => rfl
      | cons m packets ih =>
        obtain ⟨top, hunframe, htop⟩ := unframe_contentOf (hnonempty m mem_cons_self)
        rw [← Packet.content_of_room (hroom m mem_cons_self)] at hunframe
        rw [map_cons, map_cons, filterMap_cons_some hunframe, map_cons, htop,
          ih (fun m hm => hroom m (mem_cons_of_mem _ hm))
            fun m hm => hnonempty m (mem_cons_of_mem _ hm), map_cons]
    rw [hrefines.rxq, hreceived]
    exact hpackets packets h.room h.nonempty
  · have hmtu := h.mtu m hm
    rwa [m.sppp_write_eq, hcontent m hm]
  · refine Nat.le_trans hrefines.top (htop if_mtu (Nat.zero_le _) fun content hmem => ?_)
    obtain ⟨m, hm, rfl⟩ := mem_map.mp hmem
    have hmtu := h.mtu m hm
    have hstuff := length_le_stuff (contentOf m.bytes)
    rw [frameOf, frame, length_append, length_cons, length_singleton] at hmtu
    rw [hcontent m hm]
    omega

theorem enqueued_le (frames : List (List Byte)) :
    (((frames.filterMap unframe).map List.flatten).map fun data => data.length + 6).sum ≤
      (frames.map List.length).sum := by
  induction frames with
  | nil => exact Nat.le_refl _
  | cons bs frames ih =>
    rw [map_cons, sum_cons]
    cases hunframe : unframe bs with
    | none =>
      rw [filterMap_cons_none hunframe]
      omega
    | some top =>
      rw [filterMap_cons_some hunframe, map_cons, map_cons, sum_cons, (unframe_some hunframe).2]
      omega

theorem content_sum (packets : List Packet) :
    ((packets.map Packet.content).map fun content => content.length + 2).sum ≤
        ((packets.map Packet.bytes).map fun data => data.length + 6).sum ∧
      (((packets.map Packet.content).map fun content => content.length + 2).sum =
          ((packets.map Packet.bytes).map fun data => data.length + 6).sum →
        ∀ m ∈ packets, m.HasRoom) := by
  induction packets with
  | nil => exact ⟨Nat.le_refl _, fun _ => nofun⟩
  | cons m packets ih =>
    obtain ⟨hle, hroom⟩ := m.content_length
    simp only [map_cons, sum_cons]
    refine ⟨by omega, fun heq m' hm' => ?_⟩
    rcases mem_cons.mp hm' with rfl | hmem
    · exact hroom (by omega)
    · exact ih.2 (by omega) m' hmem

theorem fits_of_roundTrips (hreads : ∀ rxb ∈ reads, rxb ≠ [])
    (hstream : reads.flatten = (packets.map (sppp_write max_protohdr)).flatten)
    (h : RoundTrips if_mtu max_protohdr packets reads) : Fits if_mtu packets reads := by
  have hrefines := refines_sppp_read reads
  rw [map_sppp_write] at hstream
  obtain ⟨hle, haligned⟩ :=
    Receiver.weight_receive_frames (r := Receiver.fresh) _ rfl hreads hstream
  obtain ⟨hsum, hroom⟩ := content_sum packets
  have henqueued := enqueued_le (Receiver.fresh.receive code reads).frames
  rw [← hrefines.rxq, h.enqueued] at henqueued
  have hweight : ((Receiver.fresh.receive code reads).frames.map List.length).sum ≤
      (Receiver.fresh.receive code reads).weight := Nat.le_add_right _ _
  have hfresh : (Receiver.fresh : Receiver Byte).weight = 0 := rfl
  have hall := hroom (by omega)
  have hcontent : ∀ m ∈ packets, frame code m.content = frameOf m.bytes := fun m hm => by
    rw [Packet.content_of_room (hall m hm), frameOf]
  refine ⟨hall, fun m hm => ?_, fun m hm => ?_, ?_⟩
  · have hmem : m.bytes ∈ (sppp_read reads).rxq.map List.flatten := by
      rw [h.enqueued]
      exact mem_map_of_mem hm
    obtain ⟨top, htop, hbytes⟩ := mem_map.mp hmem
    rw [hrefines.rxq] at htop
    obtain ⟨tbuff, -, hunframe⟩ := mem_filterMap.mp htop
    exact hbytes ▸ (unframe_some hunframe).1
  · have hbuffer := h.buffer m hm
    rwa [m.sppp_write_eq, hcontent m hm] at hbuffer
  · have hcut := haligned (by omega)
    rw [map_map] at hcut
    rwa [map_congr_left fun m hm => (hcontent m hm).symm]

/-- Packets get through exactly if there is room for them and no read goes on behind a frame. -/
theorem ppp_round_trips (if_mtu max_protohdr : Nat) (packets : List Packet)
    (reads : List (List Byte)) (hreads : ∀ rxb ∈ reads, 1 ≤ rxb.length ∧ rxb.length ≤ 32)
    (hstream : reads.flatten = (packets.map (sppp_write max_protohdr)).flatten) :
    RoundTrips if_mtu max_protohdr packets reads ↔ Fits if_mtu packets reads := by
  have hnonempty : ∀ rxb ∈ reads, rxb ≠ [] := fun rxb hmem => length_pos_iff.mp (hreads rxb hmem).1
  exact ⟨fits_of_roundTrips hnonempty hstream, roundTrips_of_fits hnonempty⟩

/-- A packet of one byte, in an mbuf with room on both sides. -/
def onePacket (b : Byte) : Packet where
  head :=
    { ext_size := none
      pkthdr := true
      m_data := 16
      bytes := [b]
      fits := by
        show 16 + 1 ≤ MHLEN
        decide }
  next := []

/-- Two packets, each in a read of its own; the second byte is escaped. -/
theorem ppp_round_trips_two :
    let packets := [onePacket 0x41, onePacket 0x7e]
    RoundTrips 1500 0 packets (packets.map (sppp_write 0)) := by
  intro packets
  refine (ppp_round_trips 1500 0 packets (packets.map (sppp_write 0)) ?_ rfl).mpr ?_
  · decide
  · refine ⟨?_, ?_, ?_, [[frameOf [0x41]], [frameOf [0x7e]]], ?_, ?_⟩
    · intro m hm
      rcases mem_cons.mp hm with rfl | hm
      · exact ⟨rfl, by decide, by decide⟩
      · rcases mem_singleton.mp hm with rfl
        exact ⟨rfl, by decide, by decide⟩
    · decide
    · decide
    · decide
    · decide

/-- Two packets in one read: the second one is lost. -/
theorem ppp_loses_packet : ∃ packets reads, (∀ rxb ∈ reads, 1 ≤ rxb.length ∧ rxb.length ≤ 32) ∧
      reads.flatten = (packets.map (sppp_write 0)).flatten ∧ ¬ RoundTrips 1500 0 packets reads := by
  refine ⟨[onePacket 0x41, onePacket 0x42],
    [sppp_write 0 (onePacket 0x41) ++ sppp_write 0 (onePacket 0x42)], by decide, by decide,
    fun h => ?_⟩
  have hone : (sppp_read [sppp_write 0 (onePacket 0x41) ++ sppp_write 0 (onePacket 0x42)]).rxq.length
      = 1 := by decide
  have htwo := congrArg List.length h.enqueued
  rw [length_map, hone] at htwo
  exact absurd htwo (by decide)

end Ppp
