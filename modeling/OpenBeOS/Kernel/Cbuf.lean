import OpenBeOS.Lib.Overlay

/-! # Chains of cbufs

The functions of `cbuf.c` on the bytes in a chain. A chain is the list of its cbufs, and the null
pointer is the empty one. All cbufs lie in one region of 4 MB, so that the lengths of chains do not
get near to `2^32`.
-/

namespace Kernel

open Overlay

def CBUF_LEN : Nat := 2048

/-- `sizeof(buf->dat)`. -/
def DAT_LEN : Nat := CBUF_LEN - 20

inductive CbufError where
  | ERR_INVALID_ARGS
  | ERR_GENERAL
deriving DecidableEq, Repr

/-- `data` is the offset of the first byte in `dat`. -/
structure cbuf where
  len : Nat
  total_len : Nat
  data : Nat
  chain_head : Bool
  chain_tail : Bool
  dat : List UInt8
  size : dat.length = DAT_LEN
  fits : data + len ≤ DAT_LEN

namespace cbuf

/-- The bytes that a cbuf stands for. -/
def bytes (buf : cbuf) : List UInt8 := (buf.dat.drop buf.data).take buf.len

def initialize_cbuf (buf : cbuf) : cbuf :=
  { buf with
    len := DAT_LEN
    data := 0
    chain_head := false
    chain_tail := false
    total_len := 0
    fits := Nat.le_of_eq (Nat.zero_add DAT_LEN) }

/-- `memcpy` to the bytes from `buf_offset` on. -/
def memcpy (buf : cbuf) (buf_offset : Nat) (src : List UInt8) : cbuf :=
  { buf with
    dat := overlay buf.dat (buf.data + buf_offset) src
    size := (length_overlay ..).trans buf.size }

/-- `len -= n`. -/
def shorten (buf : cbuf) (n : Nat) : cbuf :=
  { buf with
    len := buf.len - n
    fits := Nat.le_trans (Nat.add_le_add_left (Nat.sub_le ..) _) buf.fits }

/-- Both `len` and `data` are moved by the smaller of `n` and the length. -/
def advance (buf : cbuf) (n : Nat) : cbuf :=
  { buf with
    len := buf.len - min n buf.len
    data := buf.data + min n buf.len
    fits := by
      have := buf.fits
      omega }

end cbuf

/-! ## Getting a chain -/

/-- A pointer to a chain, or a panic. -/
inductive Chained where
  | panicked
  | null
  | chain (bufs : List cbuf)

/-- The cbufs in front of the list are taken, each to the front of the chain. -/
def takeCbufs (len : Nat) : (free : List cbuf) → (chain : List cbuf) → (chain_len : Nat) →
    Option (List cbuf × Nat)
  | [], chain, chain_len => if chain_len < len then none else some (chain, chain_len)
  | temp :: free, chain, chain_len =>
    if chain_len < len then takeCbufs len free (temp :: chain) (chain_len + temp.len)
    else some (chain, chain_len)

/-- `free` are the cbufs of the free list, with those that `allocate_cbuf_mem` adds behind them as long
as there is memory. -/
def cbuf_get_chain (free : List cbuf) (len : Nat) : Chained :=
  if len = 0 then .panicked
  else
    match takeCbufs len free [] 0 with
    | none => .null
    | some (chain, chain_len) =>
      let chain := chain.modifyHead fun buf => { buf with total_len := len, chain_head := true }
      .chain (chain.modifyLast fun buf =>
      { buf.shorten (chain_len - len) with chain_tail := true })

/-! ## Copying -/

/-- What the head says, if the pointer is that of a head. -/
def isHead (chain : List cbuf) : Bool := (chain.head?.map cbuf.chain_head).getD false

def total_len (chain : List cbuf) : Nat := (chain.head?.map cbuf.total_len).getD 0

/-- The cbufs in front of the one with the offset, this one with those behind it, and the offset in
it. -/
def findStart : List cbuf → (offset : Nat) → Option (List cbuf × List cbuf × Nat)
  | bufs, 0 => some ([], bufs, 0)
  | [], _ + 1 => none
  | buf :: bufs, offset + 1 =>
    if offset + 1 < buf.len then some ([], buf :: bufs, offset + 1)
    else
      (findStart bufs (offset + 1 - buf.len)).map fun (before, rest, buf_offset) =>
        (buf :: before, rest, buf_offset)

def copyTo : List cbuf → (buf_offset : Nat) → (src : List UInt8) → Except CbufError Unit × List cbuf
  | bufs, _, [] => (.ok (), bufs)
  | [], _, _ :: _ => (.error .ERR_GENERAL, [])
  | buf :: bufs, buf_offset, src =>
    let to_copy := min src.length (buf.len - buf_offset)
    let (res, bufs) := copyTo bufs 0 (src.drop to_copy)
    (res, buf.memcpy buf_offset (src.take to_copy) :: bufs)

def cbuf_memcpy_to_chain (chain : List cbuf) (offset : Nat) (src : List UInt8) :
    Except CbufError Unit × List cbuf :=
  if ¬ isHead chain then (.error .ERR_INVALID_ARGS, chain)
  else if (src.length + offset) % 2 ^ 32 > total_len chain then (.error .ERR_INVALID_ARGS, chain)
  else
    match findStart chain offset with
    | none => (.error .ERR_GENERAL, chain)
    | some (before, rest, buf_offset) =>
      let (res, rest) := copyTo rest buf_offset src
      (res, before ++ rest)

def copyFrom : List cbuf → (buf_offset len : Nat) → Except CbufError (List UInt8)
  | _, _, 0 => .ok []
  | [], _, _ + 1 => .error .ERR_GENERAL
  | buf :: bufs, buf_offset, len + 1 =>
    let to_copy := min (len + 1) (buf.len - buf_offset)
    (copyFrom bufs 0 (len + 1 - to_copy)).map fun dest =>
    (buf.bytes.drop buf_offset).take to_copy ++ dest

/-- The bytes that are written to `dest`. -/
def cbuf_memcpy_from_chain (chain : List cbuf) (offset len : Nat) : Except CbufError (List UInt8) :=
  if ¬ isHead chain then .error .ERR_INVALID_ARGS
  else if (len + offset) % 2 ^ 32 > total_len chain then .error .ERR_INVALID_ARGS
  else
    match findStart chain offset with
    | none => .error .ERR_GENERAL
    | some (_, rest, buf_offset) => copyFrom rest buf_offset len

/-- The loop of `cbuf_duplicate_chain`. Each round but the last one leaves a cbuf of one of the two
chains behind. -/
def copyChain : (fuel : Nat) → (bufs : List cbuf) → (buf_offset : Nat) → (dest : List cbuf) →
    (dest_buf_offset len : Nat) → Option (List cbuf)
  | 0, _, _, dest, _, len => if len = 0 then some dest else none
  | fuel + 1, bufs, buf_offset, dest, dest_buf_offset, len =>
    if len = 0 then some dest
    else
      match bufs, dest with
      | [], _ => none
      | _ :: _, [] => none
      | buf :: bufs, destbuf :: dest =>
        let to_copy := min (min (destbuf.len - dest_buf_offset) (buf.len - buf_offset)) len
        let destbuf := destbuf.memcpy dest_buf_offset ((buf.bytes.drop buf_offset).take to_copy)
        let (bufs, buf_offset) :=
          if to_copy + buf_offset = buf.len then (bufs, 0) else (buf :: bufs, buf_offset + to_copy)
        if to_copy + dest_buf_offset = destbuf.len then
          (copyChain fuel bufs buf_offset dest 0 (len - to_copy)).map (destbuf :: ·)
        else
          copyChain fuel bufs buf_offset (destbuf :: dest) (dest_buf_offset + to_copy)
            (len - to_copy)

def cbuf_duplicate_chain (free : List cbuf) (chain : List cbuf) (offset len : Nat) : Chained :=
  if chain = [] then .null
  else if ¬ isHead chain then .null
  else if offset ≥ total_len chain then .null
  else
    let len := min len (total_len chain - offset)
    match cbuf_get_chain free len with
    | .panicked => .panicked
    | .null => .null
    | .chain newbuf =>
      match findStart chain offset with
      | none => .null
      | some (_, rest, buf_offset) =>
        match copyChain (rest.length + newbuf.length) rest buf_offset newbuf 0 len with
        | none => .null
        | some newbuf => .chain newbuf

/-! ## Merging and truncating -/

/-- Two chains without a common cbuf. -/
def cbuf_merge_chains (chain1 chain2 : List cbuf) : List cbuf :=
  if chain1 = [] ∧ chain2 = [] then []
  else if chain1 = [] then chain2
  else if chain2 = [] then chain1
  else if ¬ isHead chain1 then []
  else if ¬ isHead chain2 then []
  else
    let last := chain1.modifyLast fun buf => { buf with chain_tail := false }
    (last.modifyHead fun buf => { buf with total_len := buf.total_len + total_len chain2 }) ++
      chain2.modifyHead fun buf => { buf with chain_head := false }

/-- The cbufs of a chain when bytes are cut off in front, and the number of bytes cut off. -/
def truncateLoop : List cbuf → (trunc_bytes : Nat) → List cbuf × Nat
  | [], _ => ([], 0)
  | buf :: bufs, 0 => (buf :: bufs, 0)
  | buf :: bufs, trunc_bytes + 1 =>
    let to_trunc := min (trunc_bytes + 1) buf.len
    let (bufs, n) := truncateLoop bufs (trunc_bytes + 1 - to_trunc)
    (buf.advance (trunc_bytes + 1) :: bufs, to_trunc + n)

def cbuf_truncate_head (chain : List cbuf) (trunc_bytes : Nat) :
    Except CbufError Unit × List cbuf :=
  if chain = [] then (.error .ERR_INVALID_ARGS, chain)
  else if ¬ isHead chain then (.error .ERR_INVALID_ARGS, chain)
  else
    let (chain, n) := truncateLoop chain trunc_bytes
    (.ok (), chain.modifyHead fun buf => { buf with total_len := buf.total_len - n })

def cbuf_truncate_tail (chain : List cbuf) (trunc_bytes : Nat) :
    Except CbufError Unit × List cbuf :=
  if chain = [] then (.error .ERR_INVALID_ARGS, chain)
  else if ¬ isHead chain then (.error .ERR_INVALID_ARGS, chain)
  else
    match findStart chain (total_len chain - trunc_bytes) with
    | none => (.error .ERR_GENERAL, chain)
    | some (_, [], _) => (.error .ERR_GENERAL, chain)
    | some (before, buf :: bufs, buf_offset) =>
      let cut := (buf.len - buf_offset) + (bufs.map cbuf.len).sum
      (.ok (), (before ++ buf.shorten (buf.len - buf_offset) ::
          bufs.map fun buf => buf.shorten buf.len).modifyHead
        fun buf => { buf with total_len := buf.total_len - cut })

end Kernel
