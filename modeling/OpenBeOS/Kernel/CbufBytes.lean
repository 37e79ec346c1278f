import OpenBeOS.Kernel.Cbuf

/-! # A chain of cbufs is a string of bytes

The functions on chains are functions on the bytes that the chain stands for, however these are
spread over its cbufs.
-/

namespace Kernel

open Overlay List

/-! ## The bytes of a chain -/

def bytes (bufs : List cbuf) : List UInt8 := bufs.flatMap cbuf.bytes

def sumLen (bufs : List cbuf) : Nat := (bufs.map cbuf.len).sum

@[simp] theorem bytes_nil : bytes [] = [] := rfl

@[simp] theorem bytes_cons (buf : cbuf) (bufs : List cbuf) :
    bytes (buf :: bufs) = buf.bytes ++ bytes bufs := rfl

@[simp] theorem bytes_append (bufs bufs' : List cbuf) :
    bytes (bufs ++ bufs') = bytes bufs ++ bytes bufs' := flatMap_append ..

@[simp] theorem sumLen_nil : sumLen [] = 0 := rfl

@[simp] theorem sumLen_cons (buf : cbuf) (bufs : List cbuf) :
    sumLen (buf :: bufs) = buf.len + sumLen bufs := rfl

@[simp] theorem sumLen_append (bufs bufs' : List cbuf) :
    sumLen (bufs ++ bufs') = sumLen bufs + sumLen bufs' := by
  simp only [sumLen, map_append, sum_append]

@[simp] theorem cbuf.length_bytes (buf : cbuf) : buf.bytes.length = buf.len := by
  have hfits := buf.fits
  have hsize := buf.size
  simp only [cbuf.bytes, length_take, length_drop]
  omega

theorem length_bytes (bufs : List cbuf) : (bytes bufs).length = sumLen bufs := by
  induction bufs with
  | nil => rfl
  | cons buf bufs ih => rw [bytes_cons, length_append, ih, cbuf.length_bytes, sumLen_cons]

/-- All but the contents of a cbuf. -/
def cbuf.shape (buf : cbuf) : Nat × Nat × Nat × Bool × Bool :=
  (buf.len, buf.total_len, buf.data, buf.chain_head, buf.chain_tail)

theorem sumLen_of_shape {bufs bufs' : List cbuf} (h : bufs'.map cbuf.shape = bufs.map cbuf.shape) :
    sumLen bufs' = sumLen bufs := by
  have hlen : ∀ bufs : List cbuf, bufs.map cbuf.len = (bufs.map cbuf.shape).map Prod.fst := by
    intro bufs
    rw [map_map]
    rfl
  rw [sumLen, sumLen, hlen, hlen, h]

/-! ## One cbuf -/

theorem cbuf.memcpy_bytes (buf : cbuf) (buf_offset : Nat) (src : List UInt8) :
    (buf.memcpy buf_offset src).bytes = overlay buf.bytes buf_offset src :=
  window_overlay buf.dat buf_offset src (buf.size ▸ buf.fits)

@[simp] theorem cbuf.advance_bytes (buf : cbuf) (n : Nat) :
    (buf.advance n).bytes = buf.bytes.drop n := by
  show (buf.dat.drop (buf.data + min n buf.len)).take (buf.len - min n buf.len) = _
  rw [cbuf.bytes, ← drop_drop, ← drop_take]
  by_cases h : n ≤ buf.len
  · rw [Nat.min_eq_left h]
  · have hlen : ((buf.dat.drop buf.data).take buf.len).length ≤ buf.len := length_take_le ..
    rw [drop_eq_nil_of_le (by omega), drop_eq_nil_of_le (by omega)]

@[simp] theorem cbuf.shorten_bytes (buf : cbuf) (n : Nat) :
    (buf.shorten n).bytes = buf.bytes.take (buf.len - n) := by
  show (buf.dat.drop buf.data).take (buf.len - n) = ((buf.dat.drop buf.data).take buf.len).take _
  rw [take_take, Nat.min_eq_left (Nat.sub_le ..)]

/-! ## Finding the start -/

/-- The offset is in the rest of the chain, with so many bytes of its first cbuf in front of it. -/
structure Starts (bufs : List cbuf) (offset : Nat) (before rest : List cbuf) (buf_offset : Nat) :
    Prop where
  split : bufs = before ++ rest
  sum : sumLen before + buf_offset = offset
  inside : buf_offset = 0 ∨ ∃ buf bufs', rest = buf :: bufs' ∧ buf_offset < buf.len

theorem findStart_spec : ∀ {bufs : List cbuf} {offset : Nat}, offset ≤ sumLen bufs →
    ∃ before rest buf_offset, findStart bufs offset = some (before, rest, buf_offset) ∧
      Starts bufs offset before rest buf_offset
  | bufs, 0, _ => by
    refine ⟨[], bufs, 0, ?_, rfl, rfl, .inl rfl⟩
    cases bufs with
    | nil | cons buf bufs => rfl
  | [], _ + 1, h => absurd h (Nat.not_succ_le_zero _)
  | buf :: bufs, offset + 1, h => by
    rw [findStart]
    split
    · rename_i hlt
      exact ⟨[], buf :: bufs, offset + 1, rfl, rfl, Nat.zero_add _, .inr ⟨buf, bufs, rfl, hlt⟩⟩
    · rename_i hge
      rw [sumLen_cons] at h
      have hrest : offset + 1 - buf.len ≤ sumLen bufs := by omega
      obtain ⟨before, rest, buf_offset, hfind, hstarts⟩ := findStart_spec hrest
      refine ⟨buf :: before, rest, buf_offset, by rw [hfind]; rfl, ?_, ?_, hstarts.inside⟩
      · rw [hstarts.split]
        rfl
      · have hsum := hstarts.sum
        rw [sumLen_cons]
        omega

theorem Starts.le {bufs before rest : List cbuf} {offset buf_offset : Nat}
    (h : Starts bufs offset before rest buf_offset) :
    ∀ buf bufs', rest = buf :: bufs' → buf_offset ≤ buf.len := by
  intro buf bufs' hrest
  rcases h.inside with h₀ | ⟨buf', bufs'', hrest', hlt⟩
  · omega
  · cases hrest.symm.trans hrest'
    exact Nat.le_of_lt hlt

/-! ## Copying -/

theorem copyTo_spec : ∀ {bufs : List cbuf} {buf_offset : Nat} {src : List UInt8},
    buf_offset + src.length ≤ sumLen bufs →
    (∀ buf bufs', bufs = buf :: bufs' → buf_offset ≤ buf.len) →
    ∃ bufs', copyTo bufs buf_offset src = (.ok (), bufs') ∧
      bytes bufs' = overlay (bytes bufs) buf_offset src ∧
      bufs'.map cbuf.shape = bufs.map cbuf.shape
  | bufs, buf_offset, [], _, _ => by
    refine ⟨bufs, ?_, (overlay_nil ..).symm, rfl⟩
    cases bufs with
    | nil | cons buf bufs => rfl
  | [], _, _ :: _, h, _ => absurd h (by simp)
  | buf :: bufs, buf_offset, byte :: src, h, hle => by
    have hle := hle buf bufs rfl
    generalize hsrc : byte :: src = src' at *
    have hdrop : 0 + (src'.drop (min src'.length (buf.len - buf_offset))).length ≤ sumLen bufs := by
      rw [sumLen_cons] at h
      rw [length_drop]
      omega
    obtain ⟨bufs', hcopy, hbytes, hshape⟩ := copyTo_spec hdrop fun buf' _ _ => Nat.zero_le buf'.len
    refine ⟨buf.memcpy buf_offset (src'.take (min src'.length (buf.len - buf_offset))) :: bufs',
      ?_, ?_, ?_⟩
    · subst hsrc
      rw [copyTo, hcopy]
      exact cons_ne_nil byte src
    · have hoff : buf_offset ≤ buf.bytes.length := buf.length_bytes.symm ▸ hle
      rw [bytes_cons, hbytes, buf.memcpy_bytes, bytes_cons, overlay_append _ _ hoff,
        cbuf.length_bytes]
      by_cases hlong : src'.length ≤ buf.len - buf_offset
      · rw [Nat.min_eq_left hlong, take_length, take_of_length_le hlong,
          drop_length, drop_eq_nil_of_le hlong]
      · rw [Nat.min_eq_right (by omega)]
    · rw [map_cons, map_cons, hshape]
      rfl

theorem copyFrom_spec : ∀ {bufs : List cbuf} {buf_offset len : Nat},
    buf_offset + len ≤ sumLen bufs →
    (∀ buf bufs', bufs = buf :: bufs' → buf_offset ≤ buf.len) →
    copyFrom bufs buf_offset len = .ok (((bytes bufs).drop buf_offset).take len)
  | bufs, buf_offset, 0, _, _ => by
    rw [take_zero]
    cases bufs with
    | nil | cons buf bufs => rfl
  | [], _, _ + 1, h, _ => absurd h (by simp)
  | buf :: bufs, buf_offset, len + 1, h, hle => by
    have hle := hle buf bufs rfl
    have hrest : 0 + (len + 1 - min (len + 1) (buf.len - buf_offset)) ≤ sumLen bufs := by
      rw [sumLen_cons] at h
      omega
    rw [copyFrom, copyFrom_spec hrest fun buf' _ _ => Nat.zero_le buf'.len, bytes_cons,
      drop_append_of_le_length (by rwa [cbuf.length_bytes]), take_append,
      length_drop, cbuf.length_bytes, drop_zero]
    refine congrArg Except.ok (congrArg₂ (· ++ ·) ?_ (congrArg (List.take · (bytes bufs)) ?_))
    · by_cases hlong : len + 1 ≤ buf.len - buf_offset
      · rw [Nat.min_eq_left hlong]
      · have hlen : (buf.bytes.drop buf_offset).length = buf.len - buf_offset := by
          rw [length_drop, cbuf.length_bytes]
        rw [Nat.min_eq_right (by omega), take_of_length_le (by omega), take_of_length_le (by omega)]
    · omega

theorem copyChain_spec : ∀ {fuel : Nat} {bufs dest : List cbuf} {buf_offset dest_buf_offset len : Nat},
    len = 0 ∨ bufs.length + dest.length ≤ fuel →
    buf_offset + len ≤ sumLen bufs → dest_buf_offset + len ≤ sumLen dest →
    (∀ buf bufs', bufs = buf :: bufs' → buf_offset ≤ buf.len) →
    (∀ buf bufs', dest = buf :: bufs' → dest_buf_offset ≤ buf.len) →
    ∃ dest', copyChain fuel bufs buf_offset dest dest_buf_offset len = some dest' ∧
      bytes dest' = overlay (bytes dest) dest_buf_offset (((bytes bufs).drop buf_offset).take len) ∧
      dest'.map cbuf.shape = dest.map cbuf.shape
  | fuel, bufs, dest, buf_offset, dest_buf_offset, 0, _, _, _, _, _ => by
    refine ⟨dest, ?_, by rw [take_zero, overlay_nil], rfl⟩
    cases fuel with
    | zero | succ fuel => rfl
  | 0, bufs, dest, buf_offset, dest_buf_offset, len + 1, hfuel, hbufs, _, _, _ => by
    have hnil : bufs = [] := length_eq_zero_iff.mp (by omega)
    rw [hnil, sumLen_nil] at hbufs
    omega
  | fuel + 1, [], dest, buf_offset, dest_buf_offset, len + 1, _, hbufs, _, _, _ => by
    rw [sumLen_nil] at hbufs
    omega
  | fuel + 1, buf :: bufs, [], buf_offset, dest_buf_offset, len + 1, _, _, hdest, _, _ => by
    rw [sumLen_nil] at hdest
    omega
  | fuel + 1, buf :: bufs, destbuf :: dest, buf_offset, dest_buf_offset, len + 1, hfuel, hbufs, hdest,
      hle, hle' => by
    have hle := hle buf bufs rfl
    have hle' := hle' destbuf dest rfl
    rw [sumLen_cons] at hbufs hdest
    simp only [length_cons] at hfuel
    generalize hn : min (min (destbuf.len - dest_buf_offset) (buf.len - buf_offset)) (len + 1) = n
    have hsrc : ((buf.bytes.drop buf_offset).take n).length = n := by
      rw [length_take, length_drop, cbuf.length_bytes]
      omega
    obtain ⟨destbuf', hdestbuf⟩ : ∃ destbuf', destbuf' =
        destbuf.memcpy dest_buf_offset ((buf.bytes.drop buf_offset).take n) := ⟨_, rfl⟩
    have hdestlen : destbuf'.len = destbuf.len := by rw [hdestbuf]; rfl
    have hdestshape : destbuf'.shape = destbuf.shape := by rw [hdestbuf]; rfl
    have hdestbytes : destbuf'.bytes =
        overlay destbuf.bytes dest_buf_offset ((buf.bytes.drop buf_offset).take n) := by
      rw [hdestbuf]
      exact destbuf.memcpy_bytes ..
    -- what is left of the source
    obtain ⟨bufs', buf_offset', hnext⟩ : ∃ bufs' buf_offset', (bufs', buf_offset') =
        if n + buf_offset = buf.len then (bufs, 0) else (buf :: bufs, buf_offset + n) := ⟨_, _, rfl⟩
    have hleft : (bytes (buf :: bufs)).drop buf_offset = (buf.bytes.drop buf_offset).take n ++
        (bytes bufs').drop buf_offset' := by
      have hdrop : (bytes (buf :: bufs)).drop buf_offset =
          buf.bytes.drop buf_offset ++ bytes bufs := by
        rw [bytes_cons, drop_append_of_le_length (by rwa [cbuf.length_bytes])]
      rw [hdrop]
      split at hnext
      · rename_i hall
        cases hnext
        rw [drop_zero, take_of_length_le]
        rw [length_drop, cbuf.length_bytes]
        omega
      · cases hnext
        rw [bytes_cons, drop_append_of_le_length (by rw [cbuf.length_bytes]; omega),
          ← drop_drop, ← append_assoc, take_append_drop]
    have hroom : buf_offset' + (len + 1 - n) ≤ sumLen bufs' := by
      split at hnext
      · cases hnext
        omega
      · cases hnext
        rw [sumLen_cons]
        omega
    have hfirst : ∀ buf' bufs'', bufs' = buf' :: bufs'' → buf_offset' ≤ buf'.len := by
      intro buf' bufs'' heq
      split at hnext
      · cases hnext
        exact Nat.zero_le _
      · cases hnext
        cases heq
        omega
    have htake : ((bytes (buf :: bufs)).drop buf_offset).take (len + 1) =
        (buf.bytes.drop buf_offset).take n ++ ((bytes bufs').drop buf_offset').take (len + 1 - n) := by
      rw [hleft, take_append, hsrc, take_of_length_le (by omega)]
    rw [copyChain, if_neg (Nat.succ_ne_zero len)]
    simp only [hn, ← hdestbuf, ← hnext, hdestlen]
    split
    · rename_i hall
      have hfuel' : len + 1 - n = 0 ∨ bufs'.length + dest.length ≤ fuel := by
        refine .inr ?_
        split at hnext
        · cases hnext
          omega
        · cases hnext
          rw [length_cons]
          omega
      obtain ⟨dest', hcopy, hbytes, hshape⟩ := copyChain_spec hfuel' hroom
        (show 0 + (len + 1 - n) ≤ sumLen dest by omega) hfirst fun buf' _ _ => Nat.zero_le buf'.len
      refine ⟨destbuf' :: dest', by rw [hcopy]; rfl, ?_, ?_⟩
      · have hoff : dest_buf_offset ≤ destbuf.bytes.length := destbuf.length_bytes.symm ▸ hle'
        have hn' : destbuf.bytes.length - dest_buf_offset =
            ((buf.bytes.drop buf_offset).take n).length := by
          rw [hsrc, cbuf.length_bytes]
          omega
        rw [bytes_cons, hbytes, hdestbytes, htake, bytes_cons, overlay_append _ _ hoff, hn',
          take_left, drop_left]
      · rw [map_cons, map_cons, hshape, hdestshape]
    · rename_i hpart
      have hfuel' : len + 1 - n = 0 ∨ bufs'.length + (destbuf' :: dest).length ≤ fuel := by
        split at hnext
        · cases hnext
          rw [length_cons]
          omega
        · rename_i hsome
          omega
      obtain ⟨dest', hcopy, hbytes, hshape⟩ := @copyChain_spec fuel bufs' (destbuf' :: dest)
        buf_offset' (dest_buf_offset + n) _ hfuel' hroom
        (by rw [sumLen_cons, hdestlen]; omega) hfirst (fun buf' _ heq => by
          cases heq
          rw [hdestlen]
          omega)
      refine ⟨dest', hcopy, ?_, ?_⟩
      · have hone : destbuf'.bytes ++ bytes dest = overlay (bytes (destbuf :: dest)) dest_buf_offset
            ((buf.bytes.drop buf_offset).take n) := by
          rw [bytes_cons, overlay_append_left _ _ (by rw [hsrc, cbuf.length_bytes]; omega),
            hdestbytes]
        have htwo := overlay_overlay (bytes (destbuf :: dest)) dest_buf_offset
          ((buf.bytes.drop buf_offset).take n) (((bytes bufs').drop buf_offset').take (len + 1 - n))
        rw [hsrc] at htwo
        rw [hbytes, bytes_cons, hone, htwo, htake]
      · rw [hshape, map_cons, map_cons, hdestshape]

/-! ## Chains as a whole -/

/-- The chain has a head, which knows how many bytes there are. -/
structure Whole (chain : List cbuf) : Prop where
  head : isHead chain = true
  total : total_len chain = sumLen chain

/-- A free cbuf. -/
def cbuf.Fresh (buf : cbuf) : Prop := buf.initialize_cbuf = buf

theorem cbuf.Fresh.len_eq {buf : cbuf} (h : buf.Fresh) : buf.len = DAT_LEN :=
  (congrArg cbuf.len h).symm

theorem takeCbufs_spec {len : Nat} : ∀ {free chain chain' : List cbuf} {chain_len n : Nat},
    (∀ buf ∈ free, buf.Fresh) → (∀ buf ∈ chain, buf.Fresh) → chain_len = sumLen chain →
    chain_len < len + DAT_LEN → takeCbufs len free chain chain_len = some (chain', n) →
    n = sumLen chain' ∧ len ≤ n ∧ n < len + DAT_LEN ∧ ∀ buf ∈ chain', buf.Fresh
  | [], chain, chain', chain_len, n, _, hchain, hsum, hlt, h => by
    rw [takeCbufs] at h
    split at h
    · cases h
    · cases h
      exact ⟨hsum, by omega, hlt, hchain⟩
  | temp :: free, chain, chain', chain_len, n, hfree, hchain, hsum, hlt, h => by
    have htemp := hfree temp mem_cons_self
    rw [takeCbufs] at h
    split at h
    · refine takeCbufs_spec (fun buf hbuf => hfree buf (mem_cons_of_mem _ hbuf)) ?_ ?_ ?_ h
      · intro buf hbuf
        rcases mem_cons.mp hbuf with rfl | hbuf
        · exact htemp
        · exact hchain buf hbuf
      · rw [sumLen_cons, hsum, Nat.add_comm]
      · rw [htemp.len_eq]
        omega
    · cases h
      exact ⟨hsum, by omega, hlt, hchain⟩

theorem takeCbufs_isSome {len : Nat} : ∀ {free chain : List cbuf} {chain_len : Nat},
    (∀ buf ∈ free, buf.Fresh) → len ≤ chain_len + free.length * DAT_LEN →
    ∃ r, takeCbufs len free chain chain_len = some r
  | [], chain, chain_len, _, hlen => by
    rw [length_nil, Nat.zero_mul] at hlen
    rw [takeCbufs, if_neg (by omega)]
    exact ⟨_, rfl⟩
  | temp :: free, chain, chain_len, hfree, hlen => by
    rw [takeCbufs]
    split
    · refine takeCbufs_isSome (fun buf hbuf => hfree buf (mem_cons_of_mem _ hbuf)) ?_
      rw [(hfree temp mem_cons_self).len_eq]
      rw [length_cons, Nat.succ_mul] at hlen
      omega
    · exact ⟨_, rfl⟩

theorem total_len_cons (buf : cbuf) (bufs : List cbuf) : total_len (buf :: bufs) = buf.total_len := rfl

/-- A chain that `cbuf_get_chain` returns has the length asked for. -/
theorem get_chain_whole {free bufs : List cbuf} {len : Nat} (hfree : ∀ buf ∈ free, buf.Fresh)
    (h : cbuf_get_chain free len = .chain bufs) : Whole bufs ∧ sumLen bufs = len := by
  unfold cbuf_get_chain at h
  split at h
  · cases h
  · rename_i hpos
    split at h
    · cases h
    · rename_i chain n htake
      obtain ⟨hsum, hle, hlt, hfresh⟩ := @takeCbufs_spec len free [] chain 0 n hfree
        (fun _ hnot => absurd hnot not_mem_nil) rfl (by omega) htake
      obtain rfl := Chained.chain.inj h
      rcases eq_nil_or_concat' chain with rfl | ⟨init, last, rfl⟩
      · rw [sumLen_nil] at hsum
        omega
      · have hlast := (hfresh last (by simp)).len_eq
        rw [sumLen_append, sumLen_cons, sumLen_nil, Nat.add_zero] at hsum
        cases init with
        | nil =>
          refine ⟨⟨rfl, ?_⟩, ?_⟩
          · show len = last.len - (n - len) + 0
            rw [sumLen_nil] at hsum
            omega
          · show last.len - (n - len) + 0 = len
            rw [sumLen_nil] at hsum
            omega
        | cons buf init =>
          rw [cons_append, modifyHead_cons, ← cons_append, modifyLast_concat]
          rw [sumLen_cons] at hsum
          have hlen : sumLen (({ buf with total_len := len, chain_head := true } :: init) ++
              [{ last.shorten (n - len) with chain_tail := true }]) = len := by
            rw [sumLen_append]
            show buf.len + sumLen init + (last.len - (n - len) + 0) = len
            omega
          exact ⟨⟨rfl, hlen.symm⟩, hlen⟩

theorem get_chain_of_room {free : List cbuf} {len : Nat} (hfree : ∀ buf ∈ free, buf.Fresh)
    (hpos : 0 < len) (hroom : len ≤ free.length * DAT_LEN) :
    ∃ bufs, cbuf_get_chain free len = .chain bufs := by
  obtain ⟨⟨chain, n⟩, htake⟩ := @takeCbufs_isSome len free [] 0 hfree (by omega)
  unfold cbuf_get_chain
  rw [if_neg (by omega), htake]
  exact ⟨_, rfl⟩

/-! ## The functions on whole chains -/

theorem Whole.of_shape {chain chain' : List cbuf} (h : Whole chain)
    (hshape : chain'.map cbuf.shape = chain.map cbuf.shape) : Whole chain' := by
  have hhead : ∀ chain : List cbuf, chain.head?.map cbuf.shape = (chain.map cbuf.shape).head? :=
    fun chain => List.head?_map.symm
  have hheads : chain'.head?.map cbuf.shape = chain.head?.map cbuf.shape := by
    rw [hhead, hhead, hshape]
  have hflag : isHead chain' = isHead chain := by
    have hproj : ∀ chain : List cbuf, isHead chain =
        (((chain.head?.map cbuf.shape).map fun shape => shape.2.2.2.1).getD false) := by
      intro chain
      rw [Option.map_map]
      rfl
    rw [hproj, hproj, hheads]
  have htotal : total_len chain' = total_len chain := by
    have hproj : ∀ chain : List cbuf, total_len chain =
        (((chain.head?.map cbuf.shape).map fun shape => shape.2.1).getD 0) := by
      intro chain
      rw [Option.map_map]
      rfl
    rw [hproj, hproj, hheads]
  exact ⟨hflag.trans h.head, by rw [htotal, h.total, sumLen_of_shape hshape]⟩

theorem copyTo_shape : ∀ (bufs : List cbuf) (buf_offset : Nat) (src : List UInt8),
    (copyTo bufs buf_offset src).2.map cbuf.shape = bufs.map cbuf.shape
  | [], _, [] => rfl
  | _ :: _, _, [] => rfl
  | [], _, _ :: _ => rfl
  | buf :: bufs, buf_offset, byte :: src => by
    rw [copyTo, map_cons, map_cons]
    · exact congrArg _ (copyTo_shape bufs 0 _)
    · exact cons_ne_nil byte src

theorem findStart_split : ∀ {bufs before rest : List cbuf} {offset buf_offset : Nat},
    findStart bufs offset = some (before, rest, buf_offset) → bufs = before ++ rest
  | bufs, before, rest, 0, buf_offset, h => by
    have h : some ([], bufs, 0) = some (before, rest, buf_offset) := by
      cases bufs with
      | nil | cons buf bufs => exact h
    obtain ⟨rfl, heq⟩ := Prod.mk.inj (Option.some.inj h)
    exact (Prod.mk.inj heq).1
  | [], _, _, _ + 1, _, h => nomatch h
  | buf :: bufs, before, rest, offset + 1, buf_offset, h => by
    rw [findStart] at h
    split at h
    · obtain ⟨rfl, heq⟩ := Prod.mk.inj (Option.some.inj h)
      exact (Prod.mk.inj heq).1
    · obtain ⟨⟨before', rest', buf_offset'⟩, hfind, heq⟩ := Option.map_eq_some_iff.mp h
      obtain ⟨rfl, hrest⟩ := Prod.mk.inj heq
      cases hrest
      rw [findStart_split hfind]
      rfl

theorem memcpy_to_chain_shape (chain : List cbuf) (offset : Nat) (src : List UInt8) :
    (cbuf_memcpy_to_chain chain offset src).2.map cbuf.shape = chain.map cbuf.shape := by
  unfold cbuf_memcpy_to_chain
  split
  · rfl
  · split
    · rfl
    · split
      · rfl
      · rename_i before rest buf_offset hfind
        rw [map_append, copyTo_shape, ← map_append, ← findStart_split hfind]

variable {chain : List cbuf} {offset len : Nat}

theorem Whole.ne_nil (h : Whole chain) : chain ≠ [] := by
  rintro rfl
  cases h.head

theorem Whole.starts (h : Whole chain) {offset : Nat}
    (hle : offset ≤ total_len chain) :
    ∃ before rest buf_offset, findStart chain offset = some (before, rest, buf_offset) ∧
      Starts chain offset before rest buf_offset ∧
      sumLen rest + offset = total_len chain + buf_offset ∧
      (bytes chain).drop offset = (bytes rest).drop buf_offset := by
  rw [h.total] at hle
  obtain ⟨before, rest, buf_offset, hfind, hstarts⟩ := findStart_spec hle
  have hsum := hstarts.sum
  refine ⟨before, rest, buf_offset, hfind, hstarts, ?_, ?_⟩
  · rw [h.total, hstarts.split, sumLen_append]
    omega
  · rw [hstarts.split, bytes_append, ← hsum, ← length_bytes before, drop_length_add_append]

theorem Whole.memcpy_to_chain (h : Whole chain) {offset : Nat}
    {src : List UInt8} (hroom : offset + src.length ≤ total_len chain) :
    ∃ chain', cbuf_memcpy_to_chain chain offset src = (.ok (), chain') ∧
      bytes chain' = overlay (bytes chain) offset src := by
  have hcheck : ¬ (src.length + offset) % 2 ^ 32 > total_len chain := by
    have := Nat.mod_le (src.length + offset) (2 ^ 32)
    omega
  obtain ⟨before, rest, buf_offset, hfind, hstarts, hsum, -⟩ :=
    h.starts (show offset ≤ total_len chain by omega)
  obtain ⟨rest', hcopy, hbytes, -⟩ := @copyTo_spec rest buf_offset src (by omega) hstarts.le
  refine ⟨before ++ rest', ?_, ?_⟩
  · unfold cbuf_memcpy_to_chain
    rw [if_neg (not_not.mpr h.head), if_neg hcheck, hfind]
    simp only [hcopy]
  · rw [bytes_append, hbytes, hstarts.split, bytes_append, ← hstarts.sum, ← length_bytes before,
      overlay_append_right]

theorem Whole.memcpy_from_chain (h : Whole chain)
    (hroom : offset + len ≤ total_len chain) :
    cbuf_memcpy_from_chain chain offset len = .ok (((bytes chain).drop offset).take len) := by
  have hcheck : ¬ (len + offset) % 2 ^ 32 > total_len chain := by
    have := Nat.mod_le (len + offset) (2 ^ 32)
    omega
  obtain ⟨before, rest, buf_offset, hfind, hstarts, hsum, hdrop⟩ :=
    h.starts (show offset ≤ total_len chain by omega)
  unfold cbuf_memcpy_from_chain
  rw [if_neg (not_not.mpr h.head), if_neg hcheck, hfind]
  show copyFrom rest buf_offset len = _
  rw [@copyFrom_spec rest buf_offset len (by omega) hstarts.le, hdrop]

/-- A new chain of the right length is filled with the bytes from the offset on. -/
theorem Whole.duplicate_fills {chain free newbuf : List cbuf} (h : Whole chain)
    (hoffset : offset < total_len chain)
    (hget : cbuf_get_chain free (min len (total_len chain - offset)) = .chain newbuf)
    (hnew : sumLen newbuf = min len (total_len chain - offset)) :
    ∃ dest, cbuf_duplicate_chain free chain offset len = .chain dest ∧
      bytes dest = ((bytes chain).drop offset).take len ∧
      dest.map cbuf.shape = newbuf.map cbuf.shape := by
  obtain ⟨before, rest, buf_offset, hfind, hstarts, hsum, hdrop⟩ := h.starts (Nat.le_of_lt hoffset)
  generalize hmin : min len (total_len chain - offset) = n at *
  obtain ⟨dest, hcopy, hbytes, hshape⟩ := @copyChain_spec (rest.length + newbuf.length) rest newbuf
    buf_offset 0 n (.inr (Nat.le_refl _)) (by omega) (by omega) hstarts.le fun buf _ _ =>
    Nat.zero_le buf.len
  refine ⟨dest, ?_, ?_, hshape⟩
  · unfold cbuf_duplicate_chain
    rw [if_neg h.ne_nil, if_neg (not_not.mpr h.head), if_neg (Nat.not_le.mpr hoffset)]
    simp only [hmin, hget, hfind, hcopy]
  · have hlength : ((bytes rest).drop buf_offset).length = total_len chain - offset := by
      rw [length_drop, length_bytes]
      omega
    rw [hbytes, hdrop, overlay_all]
    · by_cases hall : len ≤ total_len chain - offset
      · rw [← hmin, Nat.min_eq_left hall]
      · rw [take_of_length_le (by omega), take_of_length_le (by omega)]
    · rw [length_take, hlength, length_bytes]
      omega

theorem Whole.duplicate_chain {chain free : List cbuf} (h : Whole chain)
    (hfree : ∀ buf ∈ free, buf.Fresh) (hoffset : offset < total_len chain)
    (hlen : 0 < len) (hroom : min len (total_len chain - offset) ≤ free.length * DAT_LEN) :
    ∃ dest, cbuf_duplicate_chain free chain offset len = .chain dest ∧
      bytes dest = ((bytes chain).drop offset).take len := by
  obtain ⟨newbuf, hget⟩ := get_chain_of_room hfree
    (show 0 < min len (total_len chain - offset) by omega) hroom
  obtain ⟨dest, hdup, hbytes, -⟩ := h.duplicate_fills hoffset hget (get_chain_whole hfree hget).2
  exact ⟨dest, hdup, hbytes⟩

theorem Whole.duplicate_whole {chain free dest : List cbuf} (h : Whole chain)
    (hfree : ∀ buf ∈ free, buf.Fresh)
    (hdup : cbuf_duplicate_chain free chain offset len = .chain dest) : Whole dest := by
  by_cases hoffset : offset < total_len chain
  · cases hget : cbuf_get_chain free (min len (total_len chain - offset)) with
    | chain newbuf =>
      obtain ⟨hwhole, hnew⟩ := get_chain_whole hfree hget
      obtain ⟨dest', hdup', -, hshape⟩ := h.duplicate_fills hoffset hget hnew
      obtain rfl := Chained.chain.inj (hdup'.symm.trans hdup)
      exact hwhole.of_shape hshape
    | _ =>
      unfold cbuf_duplicate_chain at hdup
      rw [if_neg h.ne_nil, if_neg (not_not.mpr h.head), if_neg (Nat.not_le.mpr hoffset)] at hdup
      simp only [hget] at hdup
      cases hdup
  · unfold cbuf_duplicate_chain at hdup
    rw [if_neg h.ne_nil, if_neg (not_not.mpr h.head), if_pos (Nat.le_of_not_lt hoffset)] at hdup
    cases hdup

theorem Whole.merge_chains {chain1 chain2 : List cbuf} (h1 : Whole chain1) (h2 : Whole chain2) :
    Whole (cbuf_merge_chains chain1 chain2) ∧
      bytes (cbuf_merge_chains chain1 chain2) = bytes chain1 ++ bytes chain2 := by
  unfold cbuf_merge_chains
  rw [if_neg fun h => h1.ne_nil h.1, if_neg h1.ne_nil, if_neg h2.ne_nil, if_neg (not_not.mpr h1.head),
    if_neg (not_not.mpr h2.head)]
  obtain ⟨init, last, rfl⟩ := eq_nil_or_concat' chain1 |>.resolve_left h1.ne_nil
  obtain ⟨buf2, rest2, rfl⟩ := exists_cons_of_ne_nil h2.ne_nil
  have htotal2 : buf2.total_len = buf2.len + sumLen rest2 := h2.total
  rw [modifyLast_concat, modifyHead_cons]
  cases init with
  | nil =>
    have hhead : last.chain_head = true := h1.head
    have htotal : last.total_len = last.len + 0 := h1.total
    refine ⟨⟨hhead, ?_⟩, ?_⟩
    · show last.total_len + buf2.total_len = last.len + (buf2.len + sumLen rest2)
      omega
    · show last.bytes ++ (buf2.bytes ++ bytes rest2) = _
      rw [nil_append, bytes_cons, bytes_cons, bytes_nil, append_nil]
  | cons buf init =>
    have hhead : buf.chain_head = true := h1.head
    have htotal : buf.total_len = buf.len + sumLen (init ++ [last]) := h1.total
    refine ⟨⟨hhead, ?_⟩, ?_⟩
    · rw [sumLen_append] at htotal ⊢
      rw [cons_append, modifyHead_cons, sumLen_cons, sumLen_append]
      show buf.total_len + buf2.total_len =
        buf.len + (sumLen init + (last.len + 0)) + (buf2.len + sumLen rest2)
      rw [sumLen_cons, sumLen_nil] at htotal
      omega
    · rw [bytes_append, cons_append, modifyHead_cons, bytes_cons, bytes_append,
        cons_append, bytes_cons buf, bytes_append init]
      rfl

theorem truncateLoop_spec : ∀ (bufs : List cbuf) (trunc_bytes : Nat),
    bytes (truncateLoop bufs trunc_bytes).1 = (bytes bufs).drop trunc_bytes ∧
      (truncateLoop bufs trunc_bytes).2 = min trunc_bytes (sumLen bufs) ∧
      isHead (truncateLoop bufs trunc_bytes).1 = isHead bufs ∧
      total_len (truncateLoop bufs trunc_bytes).1 = total_len bufs
  | [], trunc_bytes => ⟨drop_nil.symm, (Nat.min_zero _).symm, rfl, rfl⟩
  | buf :: bufs, 0 => ⟨rfl, (Nat.zero_min _).symm, rfl, rfl⟩
  | buf :: bufs, trunc_bytes + 1 => by
    obtain ⟨hbytes, hcut, -, -⟩ :=
      truncateLoop_spec bufs (trunc_bytes + 1 - min (trunc_bytes + 1) buf.len)
    rw [truncateLoop]
    refine ⟨?_, ?_, rfl, rfl⟩
    · rw [bytes_cons, hbytes, cbuf.advance_bytes, bytes_cons, drop_append, cbuf.length_bytes]
      congr 2
      omega
    · show min (trunc_bytes + 1) buf.len + _ = _
      rw [hcut, sumLen_cons]
      omega

theorem Whole.truncate_head (h : Whole chain) (trunc_bytes : Nat) :
    (cbuf_truncate_head chain trunc_bytes).1 = .ok () ∧
      Whole (cbuf_truncate_head chain trunc_bytes).2 ∧
      bytes (cbuf_truncate_head chain trunc_bytes).2 = (bytes chain).drop trunc_bytes := by
  obtain ⟨hbytes, hcut, hhead, htotal⟩ := truncateLoop_spec chain trunc_bytes
  unfold cbuf_truncate_head
  rw [if_neg h.ne_nil, if_neg (not_not.mpr h.head)]
  generalize truncateLoop chain trunc_bytes = r at *
  obtain ⟨bufs, n⟩ := r
  dsimp only at *
  have hlength := congrArg List.length hbytes
  rw [length_bytes, length_drop, length_bytes] at hlength
  cases bufs with
  | nil => exact absurd (hhead.symm.trans rfl) (by rw [h.head]; nofun)
  | cons buf bufs =>
    refine ⟨rfl, ⟨hhead.trans h.head, ?_⟩, ?_⟩
    · rw [modifyHead_cons]
      show buf.total_len - n = buf.len + sumLen bufs
      rw [total_len_cons, h.total] at htotal
      rw [sumLen_cons] at hlength
      omega
    · rw [modifyHead_cons]
      exact hbytes

/-! ## Every chain -/

/-- The chains that the functions make. -/
inductive Built : List cbuf → Prop
  | get {free chain : List cbuf} {len : Nat} (hfree : ∀ buf ∈ free, buf.Fresh)
      (h : cbuf_get_chain free len = .chain chain) : Built chain
  | memcpy_to {chain : List cbuf} (offset : Nat) (src : List UInt8) (h : Built chain) :
      Built (cbuf_memcpy_to_chain chain offset src).2
  | merge {chain1 chain2 : List cbuf} (h1 : Built chain1) (h2 : Built chain2) :
      Built (cbuf_merge_chains chain1 chain2)
  | duplicate {free chain chain' : List cbuf} {offset len : Nat} (hfree : ∀ buf ∈ free, buf.Fresh)
      (h : Built chain) (hdup : cbuf_duplicate_chain free chain offset len = .chain chain') :
      Built chain'
  | truncate_head {chain : List cbuf} (trunc_bytes : Nat) (h : Built chain) :
      Built (cbuf_truncate_head chain trunc_bytes).2

theorem Built.whole (h : Built chain) : Whole chain := by
  induction h with
  | get hfree h => exact (get_chain_whole hfree h).1
  | memcpy_to offset src _ ih => exact ih.of_shape (memcpy_to_chain_shape ..)
  | merge _ _ ih1 ih2 => exact (ih1.merge_chains ih2).1
  | duplicate hfree _ hdup ih => exact ih.duplicate_whole hfree hdup
  | truncate_head trunc_bytes _ ih => exact (ih.truncate_head trunc_bytes).2.1

/-- What a function on chains does with the bytes of the chain. -/
structure IsString (chain : List cbuf) : Prop where
  total : total_len chain = sumLen chain
  memcpy_to : ∀ offset src, offset + src.length ≤ total_len chain →
    ∃ chain', cbuf_memcpy_to_chain chain offset src = (.ok (), chain') ∧
      bytes chain' = overlay (bytes chain) offset src
  memcpy_from : ∀ offset len, offset + len ≤ total_len chain →
    cbuf_memcpy_from_chain chain offset len = .ok (((bytes chain).drop offset).take len)
  merge : ∀ chain2, Built chain2 →
    bytes (cbuf_merge_chains chain chain2) = bytes chain ++ bytes chain2
  duplicate : ∀ free : List cbuf, (∀ buf ∈ free, buf.Fresh) → ∀ offset len,
    if offset ≥ total_len chain then cbuf_duplicate_chain free chain offset len = .null
    else if len = 0 then cbuf_duplicate_chain free chain offset len = .panicked
    else min len (total_len chain - offset) ≤ free.length * DAT_LEN →
      ∃ chain', cbuf_duplicate_chain free chain offset len = .chain chain' ∧
        bytes chain' = ((bytes chain).drop offset).take len
  truncate_head : ∀ trunc_bytes, (cbuf_truncate_head chain trunc_bytes).1 = .ok () ∧
    bytes (cbuf_truncate_head chain trunc_bytes).2 = (bytes chain).drop trunc_bytes

theorem Whole.duplicate_refused (h : Whole chain) (free : List cbuf) :
    (offset ≥ total_len chain → cbuf_duplicate_chain free chain offset len = .null) ∧
      (offset < total_len chain → len = 0 →
        cbuf_duplicate_chain free chain offset len = .panicked) := by
  unfold cbuf_duplicate_chain
  rw [if_neg h.ne_nil, if_neg (not_not.mpr h.head)]
  constructor
  · intro hoffset
    rw [if_pos hoffset]
  · rintro hoffset rfl
    rw [if_neg (Nat.not_le.mpr hoffset), Nat.zero_min]
    rfl

/-- Every chain is a string of bytes, but for duplicates of nothing. -/
theorem chain_is_string {chain : List cbuf} (h : Built chain) : IsString chain := by
  have hwhole := h.whole
  refine ⟨hwhole.total, fun _ _ => hwhole.memcpy_to_chain, fun _ _ => hwhole.memcpy_from_chain,
    fun chain2 h2 => (hwhole.merge_chains h2.whole).2, ?_, fun trunc_bytes => ?_⟩
  · intro free hfree offset len
    split
    · rename_i hoffset
      exact (hwhole.duplicate_refused free).1 hoffset
    · rename_i hoffset
      split
      · rename_i hlen
        exact (hwhole.duplicate_refused free).2 (Nat.lt_of_not_le hoffset) hlen
      · rename_i hlen
        exact hwhole.duplicate_chain hfree (Nat.lt_of_not_le hoffset) (Nat.pos_of_ne_zero hlen)
  · obtain ⟨hok, -, hbytes⟩ := hwhole.truncate_head trunc_bytes
    exact ⟨hok, hbytes⟩

theorem zeroed_fits : 0 + DAT_LEN ≤ DAT_LEN := Nat.le_of_eq (Nat.zero_add DAT_LEN)

/-- A free cbuf that holds zeros. -/
def zeroed : cbuf where
  len := DAT_LEN
  total_len := 0
  data := 0
  chain_head := false
  chain_tail := false
  dat := List.replicate DAT_LEN 0
  size := length_replicate
  fits := zeroed_fits

theorem zeroed_fresh : ∀ buf ∈ [zeroed], buf.Fresh := by
  intro buf hbuf
  obtain rfl := mem_singleton.mp hbuf
  rfl

theorem chain_is_string_three :
    ∃ chain, cbuf_get_chain [zeroed] 3 = .chain chain ∧ IsString chain :=
  ⟨_, rfl, chain_is_string (.get zeroed_fresh (show cbuf_get_chain [zeroed] 3 = _ from rfl))⟩

/-- There is no chain that is a duplicate of the bytes behind the end, and none of no bytes. -/
theorem duplicate_of_nothing : ∃ chain, Built chain ∧ total_len chain = 3 ∧
      cbuf_duplicate_chain [zeroed] chain 3 1 = .null ∧
      cbuf_duplicate_chain [zeroed] chain 0 0 = .panicked :=
  ⟨_, .get zeroed_fresh (show cbuf_get_chain [zeroed] 3 = _ from rfl), rfl, rfl, rfl⟩

end Kernel
