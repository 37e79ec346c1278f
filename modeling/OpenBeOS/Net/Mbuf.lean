import OpenBeOS.Net.PppFcs

/-! # Mbufs

A packet is a chain of mbufs, and an mbuf knows the space around its data. Memory for an mbuf is there
when it is asked for.
-/

namespace Ppp

def MLEN : Nat := 232
def MHLEN : Nat := 220
def MINCLSIZE : Nat := MHLEN + 1
def MCLBYTES : Nat := 2048

/-- The size of the storage: a cluster of `ext_size` bytes, or what is left of the mbuf itself. -/
def M_DATASIZE (ext_size : Option Nat) (pkthdr : Bool) : Nat :=
  match ext_size with
  | some size => size
  | none => if pkthdr then MHLEN else MLEN

/-- `m_data` is counted from the beginning of the storage, and the data does not leave it. -/
structure Mbuf where
  ext_size : Option Nat
  pkthdr : Bool
  m_data : Nat
  bytes : List Byte
  fits : m_data + bytes.length ≤ M_DATASIZE ext_size pkthdr

/-- A chain of mbufs. -/
structure Packet where
  head : Mbuf
  next : List Mbuf

namespace Mbuf

def M_LEADINGSPACE (m : Mbuf) : Nat := m.m_data

def M_TRAILINGSPACE (m : Mbuf) : Nat := M_DATASIZE m.ext_size m.pkthdr - (m.m_data + m.bytes.length)

/-- Two more bytes at the end. What the storage holds there is overwritten. -/
def addFcs (m : Mbuf) : Mbuf :=
  if h : m.M_TRAILINGSPACE > 2 then
    { m with
      bytes := m.bytes ++ [0, 0]
      fits := by
        have hfits := m.fits
        unfold M_TRAILINGSPACE at h
        rw [List.length_append, List.length_cons, List.length_singleton]
        omega }
  else m

/-- Two more bytes at the beginning. -/
def advance (m : Mbuf) (h : m.M_LEADINGSPACE ≥ 2) : Mbuf :=
  { m with
    m_data := m.m_data - 2
    bytes := 0 :: 0 :: m.bytes
    fits := by
      have hfits := m.fits
      unfold M_LEADINGSPACE at h
      rw [List.length_cons, List.length_cons]
      omega }

/-- The packet header is moved to another mbuf: the storage now begins where it was. -/
def moveHdr (m : Mbuf) : Mbuf :=
  { m with
    pkthdr := false
    m_data := if m.pkthdr ∧ m.ext_size = none then m.m_data + (MLEN - MHLEN) else m.m_data
    fits := by
      have hfits := m.fits
      revert hfits
      unfold M_DATASIZE
      rcases m.ext_size with _ | size <;> cases m.pkthdr <;> grind [MLEN, MHLEN] }

end Mbuf

namespace Packet

section

variable (m : Packet)

def bytes : List Byte := m.head.bytes ++ m.next.flatMap Mbuf.bytes

def m_len : Nat := m.head.bytes.length

/-- Room for the checksum in the last mbuf of the chain. -/
def addFcs : Packet :=
  match m.next with
  | [] => { m with head := m.head.addFcs }
  | m0 :: ms => { m with next := (m0 :: ms).dropLast ++ [((m0 :: ms).getLast nofun).addFcs] }

/-- `m_prepend` for the two bytes of the header; a new mbuf has its data at the end. -/
def m_prepend : Packet :=
  if h : m.head.M_LEADINGSPACE ≥ 2 then { m with head := m.head.advance h }
  else
    { head :=
        { ext_size := none
          pkthdr := m.head.pkthdr
          m_data := MHLEN - 2
          bytes := [0, 0]
          fits := by
            unfold M_DATASIZE
            cases m.head.pkthdr <;> decide }
      next := m.head.moveHdr :: m.next }

/-- The chain's length. -/
def len : Nat := m.m_len + (m.next.map fun m0 => m0.bytes.length).sum

/-- As much of the first mbuf as is asked for is put into a new one. -/
def splitHead (len max_protohdr : Nat) : Option Packet :=
  if len > MHLEN then none
  else
    let space := if m.head.pkthdr then MHLEN else MLEN
    let count := min (min (max len max_protohdr) space) m.m_len
    some
      { head :=
          { ext_size := none
            pkthdr := m.head.pkthdr
            m_data := 0
            bytes := m.head.bytes.take count
            fits := by
              rw [Nat.zero_add, List.length_take]
              refine Nat.le_trans (Nat.min_le_left _ _) ?_
              exact Nat.le_trans (Nat.min_le_left _ _) (Nat.min_le_right _ _) }
        next :=
          if count = m.m_len then m.next
          else
            { m.head.moveHdr with
              m_data := m.head.moveHdr.m_data + count
              bytes := m.head.bytes.drop count
              fits := by
                have hfits := m.head.moveHdr.fits
                have hlength : m.head.moveHdr.bytes.length = m.m_len := rfl
                have hcount : count ≤ m.m_len := Nat.min_le_right _ _
                have hmlen : m.head.bytes.length = m.m_len := rfl
                rw [List.length_drop]
                omega } :: m.next }

/-- The test of `m_pullup` is the wrong way round: only a first mbuf that is longer than asked for is
worked on. -/
def m_pullup (len max_protohdr : Nat) : Option Packet :=
  if m.m_len ≤ len then some m
  else if m.head.ext_size = none ∧ m.next ≠ [] ∧
      m.head.m_data + len < M_DATASIZE none m.head.pkthdr then some m
  else m.splitHead len max_protohdr

end

end Packet

end Ppp
