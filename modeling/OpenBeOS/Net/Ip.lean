import Mathlib

/-! # IP datagrams and their fragments

The part of `ipv4_output` behind the choice of the route, and the part of `ipv4_input` from `ours:`
on, where a packet has passed the checks of its header. An mbuf is the bytes it holds, and there is
always one. The machine is little-endian.

A packet is its header with the options, and the bytes behind them. On the wire `ip_len`, `ip_id`
and `ip_off` are in network byte order.
-/

namespace Ipv4

/-! ## Numbers -/

/-- `htons()` and `ntohs()` swap the two bytes. -/
def htons (n : Nat) : Nat := n % 256 * 256 + n / 256 % 256

/-- A number in an `int16`. -/
def int16 (n : Int) : Int := (n + 32768) % 65536 - 32768

def IP_DF : Nat := 0x4000
def IP_MF : Nat := 0x2000

/-- `n & bit`, for a single bit. -/
def hasBit (n bit : Nat) : Bool := n / bit % 2 = 1

/-- `n | bit`. -/
def setBit (n bit : Nat) : Nat := if hasBit n bit then n else n + bit

/-- `n & ~bit`. -/
def clearBit (n bit : Nat) : Nat := if hasBit n bit then n - bit else n

@[simp] theorem htons_htons {n : Nat} (h : n < 65536) : htons (htons n) = n := by
  have hhigh : n / 256 % 256 = n / 256 := by omega
  have hlow : (n % 256 * 256 + n / 256) % 256 = n / 256 := by omega
  have hdiv : (n % 256 * 256 + n / 256) / 256 % 256 = n % 256 := by omega
  unfold htons
  rw [hhigh, hlow, hdiv]
  omega

theorem int16_eq {n : Int} (hlow : -32768 ≤ n) (hhigh : n < 32768) : int16 n = n := by
  unfold int16
  omega

theorem int16_upper {n : Int} (hlow : 32768 ≤ n) (hhigh : n < 98304) : int16 n = n - 65536 := by
  unfold int16
  omega

/-! ## Packets -/

/-- What tells datagrams apart. -/
structure Key where
  ip_id : Nat
  ip_src : Nat
  ip_dst : Nat
  ip_p : Nat
  deriving DecidableEq

/-- `struct ip`, with the options behind it. -/
structure Header where
  ip_hl : Nat
  ip_len : Nat
  ip_id : Nat
  ip_off : Nat
  ip_p : Nat
  ip_src : Nat
  ip_dst : Nat
  options : List UInt8
  deriving DecidableEq

/-- A packet: the header, and what is behind it. -/
structure Packet where
  ip : Header
  data : List UInt8
  deriving DecidableEq

/-- The header length. -/
def Header.hlen (ip : Header) : Nat := ip.ip_hl * 4

/-- The key of a header in host byte order. -/
def Header.key (ip : Header) : Key := ⟨ip.ip_id, ip.ip_src, ip.ip_dst, ip.ip_p⟩

/-- A datagram for `ipv4_output`, in host byte order; it is not a fragment itself. -/
structure Datagram extends Packet where
  hlen_eq : ip.hlen = 20 + ip.options.length
  options_le : ip.options.length ≤ 40
  len_eq : ip.ip_len = ip.hlen + data.length
  len_le : ip.ip_len ≤ 65535
  id_lt : ip.ip_id < 65536
  off_eq : ip.ip_off = 0 ∨ ip.ip_off = IP_DF

/-! ## Output -/

def IPOPT_EOL : UInt8 := 0
def IPOPT_NOP : UInt8 := 1

/-- `IPOPT_COPIED()`. -/
def IPOPT_COPIED (opt : UInt8) : Bool := opt.toNat / 128 = 1

/-- The loop of `ip_optcopy()`, with `cnt` bytes of options left at `cp` and `dp` written so far. An
option of length 0 is looked at again and again: then nothing is left of `rounds` in the end. -/
def optcopyLoop : Nat → List UInt8 → Nat → List UInt8 → Option (List UInt8)
  | 0, _, _, _ => none
  | rounds + 1, cp, cnt, dp =>
    if cnt = 0 then some dp
    else
      let opt := cp.getD 0 0
      if opt = IPOPT_EOL then some dp
      else if opt = IPOPT_NOP then optcopyLoop rounds (cp.drop 1) (cnt - 1) (dp ++ [IPOPT_NOP])
      else
        let optlen := min (cp.getD 1 0).toNat cnt
        optcopyLoop rounds (cp.drop optlen) (cnt - optlen)
          (if IPOPT_COPIED opt then dp ++ cp.take optlen else dp)

/-- `ip_optcopy()`: the options of a fragment, filled up to four bytes; `none` if it does not end. -/
def ip_optcopy (m : Packet) : Option (List UInt8) := do
  let cnt := m.ip.hlen - 20
  let dp ← optcopyLoop (cnt + 1) (m.ip.options ++ m.data) cnt []
  some (dp ++ List.replicate ((4 - dp.length % 4) % 4) IPOPT_EOL)

/-- How `ipv4_output()` fails. -/
inductive Fault where
  | EMSGSIZE
  /-- It never returns. -/
  | endless
  deriving DecidableEq

/-- The loop over the fragments behind the first one, which have the header `mhip`. Every one takes
at least a byte: `rounds` of the length of the datagram suffice. -/
def fragmentLoop (m0 : Packet) (mhip : Header) : Nat → Nat → Nat → List Packet
  | 0, _, _ => []
  | rounds + 1, off, len =>
    if off < m0.ip.ip_len then
      let last : Bool := off + len ≥ m0.ip.ip_len
      let ip_off := (off - m0.ip.hlen) / 8 + clearBit m0.ip.ip_off IP_MF
      let ip_off := if hasBit m0.ip.ip_off IP_MF then setBit ip_off IP_MF else ip_off
      let ip_off := if last then ip_off else setBit ip_off IP_MF
      let len := if last then m0.ip.ip_len - off else len
      ⟨{ mhip with ip_off := htons ip_off, ip_len := htons (len + mhip.hlen) },
          (m0.data.drop (off - m0.ip.hlen)).take len⟩ ::
        fragmentLoop m0 mhip rounds (off + len) len
    else []

/-- The fragments of a packet for `len` bytes of data each. -/
def fragments (m : Packet) (len : Nat) : Except Fault (List Packet) := do
  -- the loop runs: the packet is too big. Every round makes the same header
  let mhip ← if m.ip.hlen > 20 then
      match ip_optcopy m with
      | none => throw .endless
      | some options => pure { m.ip with options := options, ip_hl := (20 + options.length) / 4 }
    else pure m.ip
  let first : Packet := ⟨{ m.ip with
    ip_len := htons (m.ip.hlen + len), ip_off := htons (setBit m.ip.ip_off IP_MF) },
    m.data.take len⟩
  return first :: fragmentLoop m mhip m.ip.ip_len (m.ip.hlen + len) len

/-- `ipv4_output()`: the packets that are sent through an interface. -/
def ipv4_output (m : Datagram) (if_mtu : Nat) : Except Fault (List Packet) :=
  let m : Packet := ⟨{ m.ip with ip_id := htons m.ip.ip_id }, m.data⟩
  -- if we're small enough, just send the thing!
  if m.ip.ip_len ≤ if_mtu then
    .ok [⟨{ m.ip with ip_len := htons m.ip.ip_len, ip_off := htons m.ip.ip_off }, m.data⟩]
  else if hasBit m.ip.ip_off IP_DF then .error .EMSGSIZE
  else
    let len := (if_mtu - m.ip.hlen) / 8 * 8
    -- we need at least 8 bytes per fragment
    if len < 8 then .error .EMSGSIZE
    else fragments m len

/-! ## Input -/

/-- `struct ipasfrag`: the header in host byte order, and the fields that are changed in place. -/
structure Frag where
  ip : Header
  ipf_mff : Bool
  ip_len : Int
  ip_off : Int
  data : List UInt8
  deriving DecidableEq

/-- `struct ipq`: what has arrived of a datagram, in the order of the offsets. -/
structure Queue where
  key : Key
  frags : List Frag

/-- What is handed to the protocol, with the header length as an argument. -/
structure Delivery where
  ip : Header
  data : List UInt8
  hlen : Nat

/-- What a fragment comes to. -/
inductive Reass where
  | dropped
  | waits (frags : List Frag)
  | whole (ip : Header) (data : List UInt8)

/-- Overlapped data is discarded from the new fragment; `none` if nothing is left. -/
def trimNew (prev : Option Frag) (ip : Frag) : Option Frag :=
  match prev with
  | none => some ip
  | some q =>
    let i := q.ip_off + q.ip_len - ip.ip_off
    if i > 0 then
      if i ≥ ip.ip_len then none
      else some { ip with
        data := ip.data.drop i.toNat
        ip_off := int16 (ip.ip_off + i)
        ip_len := int16 (ip.ip_len - i) }
    else some ip

/-- Overlapped data is discarded from the fragments behind the new one. -/
def trimOld (ip : Frag) : List Frag → List Frag
  | [] => []
  | q :: rest =>
    if ip.ip_off + ip.ip_len > q.ip_off then
      let i := ip.ip_off + ip.ip_len - q.ip_off
      if i < q.ip_len then
        { q with
          data := q.data.drop i.toNat
          ip_off := int16 (q.ip_off + i)
          ip_len := int16 (q.ip_len - i) } :: rest
      else trimOld ip rest
    else q :: rest

/-- The fragments follow each other from `next` on; where they end. -/
def follow : Int → List Frag → Option Int
  | next, [] => some next
  | next, q :: rest => if q.ip_off ≠ next then none else follow (next + q.ip_len) rest

/-- The part of `ip_reass()` behind `insert:`. -/
def complete (key : Key) (frags : List Frag) : Reass :=
  match follow 0 frags, frags.head?, frags.getLast? with
  | some next, some first, some last =>
    if last.ipf_mff then .waits frags
    else
      .whole { first.ip with
        ip_len := (next % 65536).toNat, ip_src := key.ip_src, ip_dst := key.ip_dst }
        (frags.flatMap Frag.data)
  | _, _, _ => .waits frags

/-- `ip_reass()`, with what the queue of the datagram holds, if there is one. -/
def ip_reass (ip : Frag) (frags : List Frag) : Reass :=
  let before := frags.takeWhile fun q => decide (q.ip_off ≤ ip.ip_off)
  let behind := frags.dropWhile fun q => decide (q.ip_off ≤ ip.ip_off)
  match trimNew before.getLast? ip with
  | none => .dropped
  | some ip' => complete ip.ip.key (before ++ ip' :: trimOld ip' behind)

/-- The queues without the one for `key`. -/
def remque (key : Key) (ipq : List Queue) : List Queue := ipq.eraseP fun fp => fp.key = key

/-- The queues with other fragments for `key`; a new queue is the first. -/
def store (key : Key) (frags : List Frag) : List Queue → List Queue
  | ipq =>
    if ipq.any (fun fp => fp.key = key) then
      ipq.map fun fp => if fp.key = key then { fp with frags := frags } else fp
    else ⟨key, frags⟩ :: ipq

/-- The fragments that wait for the others of their datagram. -/
def waiting (key : Key) (ipq : List Queue) : List Frag :=
  match ipq.find? fun fp => fp.key = key with
  | none => []
  | some fp => fp.frags

/-- The header in host byte order. -/
def Packet.host (m : Packet) : Header :=
  { m.ip with
    ip_len := htons m.ip.ip_len, ip_id := htons m.ip.ip_id, ip_off := htons m.ip.ip_off }

/-- The packet as a fragment. -/
def Packet.frag (m : Packet) : Frag where
  ip := m.host
  ipf_mff := hasBit m.host.ip_off IP_MF
  ip_len := int16 (m.host.ip_len - m.host.hlen)
  ip_off := int16 (m.host.ip_off * 8)
  data := m.data

/-- `ipv4_input()` from `ours:` on: the queues, and what is handed up. -/
def ipv4_input (ipq : List Queue) (m : Packet) : List Queue × Option Delivery :=
  let ip := m.host
  let key := ip.key
  if clearBit ip.ip_off IP_DF ≠ 0 then
    let frag := m.frag
    if frag.ipf_mff ∨ frag.ip_off ≠ 0 then
      match ip_reass frag (waiting key ipq) with
      | .dropped => (ipq, none)
      | .waits frags => (store key frags ipq, none)
      | .whole ip' data => (remque key ipq, some ⟨ip', data, ip.hlen⟩)
    else (remque key ipq, some ⟨{ ip with ip_len := ip.ip_len - ip.hlen }, m.data, ip.hlen⟩)
  else (ipq, some ⟨{ ip with ip_len := ip.ip_len - ip.hlen }, m.data, ip.hlen⟩)

/-- The packets of a run, one after the other. -/
def receive (ipq : List Queue) : List Packet → List Queue × List Delivery
  | [] => (ipq, [])
  | m :: ms =>
    let (ipq', up) := ipv4_input ipq m
    let (ipq'', ups) := receive ipq' ms
    (ipq'', up.toList ++ ups)

end Ipv4
