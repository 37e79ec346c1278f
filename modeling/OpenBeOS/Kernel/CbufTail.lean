import OpenBeOS.Kernel.CbufBytes

/-! # Cutting bytes off the end of a chain

`cbuf_truncate_tail` looks for the cbuf with the first byte that is cut off. There is none if nothing
is, unless the chain ends with an empty cbuf.
-/

namespace Kernel

/-- The search passes a cbuf up to its last byte only if it has one. -/
theorem findStart_last : ∀ {bufs before rest : List cbuf} {offset : Nat},
    findStart bufs offset = some (before, rest, 0) → ∀ last ∈ before.getLast?, 0 < last.len
  | bufs, before, rest, 0, h, last, hlast => by
    have hbefore : findStart bufs 0 = some ([], bufs, 0) := by
      cases bufs with
      | nil | cons buf bufs => rfl
    cases hbefore.symm.trans h
    cases hlast
  | [], _, _, _ + 1, h, _, _ => nomatch h
  | buf :: bufs, before, rest, offset + 1, h, last, hlast => by
    rw [findStart] at h
    split at h
    · obtain ⟨-, heq⟩ := Prod.mk.inj (Option.some.inj h)
      exact absurd (Prod.mk.inj heq).2 (Nat.succ_ne_zero offset)
    · rename_i hge
      obtain ⟨⟨before', rest', buf_offset⟩, hfind, heq⟩ := Option.map_eq_some_iff.mp h
      obtain ⟨rfl, hrest⟩ := Prod.mk.inj heq
      cases hrest
      cases before' with
      | cons buf' before' =>
        rw [List.getLast?_cons_cons] at hlast
        exact findStart_last hfind last hlast
      | nil =>
        have hone : buf = last := Option.some.inj (show some buf = some last from hlast)
        subst hone
        -- nothing is left to find behind this cbuf
        cases hoff : offset + 1 - buf.len with
        | zero => omega
        | succ n =>
          rw [hoff] at hfind
          cases bufs with
          | nil => cases hfind
          | cons buf' bufs =>
            rw [findStart] at hfind
            split at hfind
            · obtain ⟨-, heq⟩ := Prod.mk.inj (Option.some.inj hfind)
              exact absurd (Prod.mk.inj heq).2 (Nat.succ_ne_zero n)
            · obtain ⟨r, -, heq⟩ := Option.map_eq_some_iff.mp hfind
              exact absurd (Prod.mk.inj heq).1 (by simp)

theorem sumLen_map_shorten (bufs : List cbuf) :
    sumLen (bufs.map fun buf => buf.shorten buf.len) = 0 ∧
      bytes (bufs.map fun buf => buf.shorten buf.len) = [] := by
  induction bufs with
  | nil => exact ⟨rfl, rfl⟩
  | cons buf bufs ih =>
    rw [List.map_cons, sumLen_cons, bytes_cons, ih.1, ih.2, cbuf.shorten_bytes, Nat.sub_self]
    exact ⟨Nat.sub_self buf.len, rfl⟩

/-- What the call does when it finds a cbuf. -/
theorem Whole.truncate_tail_found {chain : List cbuf} (h : Whole chain) {trunc_bytes : Nat}
    {before bufs : List cbuf} {buf : cbuf} {buf_offset : Nat}
    (hfind : findStart chain (total_len chain - trunc_bytes) = some (before, buf :: bufs, buf_offset))
    (hstarts : Starts chain (total_len chain - trunc_bytes) before (buf :: bufs) buf_offset) :
    (cbuf_truncate_tail chain trunc_bytes).1 = .ok () ∧
      bytes (cbuf_truncate_tail chain trunc_bytes).2 =
        (bytes chain).take (total_len chain - trunc_bytes) ∧
      Whole (cbuf_truncate_tail chain trunc_bytes).2 := by
  have hoff := hstarts.le buf bufs rfl
  have hsum := hstarts.sum
  have htotal : total_len chain = sumLen before + (buf.len + sumLen bufs) := by
    rw [h.total, hstarts.split, sumLen_append, sumLen_cons]
  obtain ⟨hlens, hrest⟩ := sumLen_map_shorten bufs
  have hone : buf.len - (buf.len - buf_offset) = buf_offset := by omega
  have hcut : (bytes chain).take (total_len chain - trunc_bytes) =
      bytes before ++ buf.bytes.take buf_offset := by
    rw [← hsum, hstarts.split, bytes_append, ← length_bytes before, List.take_length_add_append,
      bytes_cons, List.take_append_of_le_length (by rwa [cbuf.length_bytes])]
  unfold cbuf_truncate_tail
  rw [if_neg h.ne_nil, if_neg (not_not.mpr h.head), hfind, hcut]
  dsimp only
  refine ⟨rfl, ?_⟩
  cases before with
  | nil =>
    have hhead : buf.chain_head = true := by
      have hhead := h.head
      rwa [hstarts.split] at hhead
    have htotal' : total_len chain = buf.total_len := by rw [hstarts.split]; rfl
    rw [sumLen_nil] at htotal hsum
    refine ⟨?_, hhead, ?_⟩
    · show (buf.shorten (buf.len - buf_offset)).bytes ++ bytes (bufs.map _) = _
      rw [hrest, List.append_nil, cbuf.shorten_bytes, hone]
      rfl
    · show buf.total_len - (buf.len - buf_offset + (bufs.map cbuf.len).sum) =
        buf.len - (buf.len - buf_offset) + sumLen (bufs.map _)
      rw [hlens, hone]
      have hsumLen : (bufs.map cbuf.len).sum = sumLen bufs := rfl
      omega
  | cons buf' before =>
    have hhead : buf'.chain_head = true := by
      have hhead := h.head
      rwa [hstarts.split] at hhead
    have htotal' : total_len chain = buf'.total_len := by rw [hstarts.split]; rfl
    rw [sumLen_cons] at htotal hsum
    refine ⟨?_, hhead, ?_⟩
    · show buf'.bytes ++ bytes (before ++ buf.shorten (buf.len - buf_offset) :: bufs.map _) = _
      rw [bytes_append, bytes_cons, hrest, List.append_nil, cbuf.shorten_bytes, hone, bytes_cons,
        List.append_assoc]
    · show buf'.total_len - (buf.len - buf_offset + (bufs.map cbuf.len).sum) =
        buf'.len + sumLen (before ++ buf.shorten (buf.len - buf_offset) :: bufs.map _)
      rw [sumLen_append, sumLen_cons, hlens]
      show _ = buf'.len + (sumLen before + (buf.len - (buf.len - buf_offset) + 0))
      have hsumLen : (bufs.map cbuf.len).sum = sumLen bufs := rfl
      omega

/-- Bytes are cut off the end, unless none are and the chain ends with a cbuf that has some. -/
theorem truncate_tail_iff {chain : List cbuf} (h : Whole chain) {trunc_bytes : Nat}
    (hle : trunc_bytes ≤ total_len chain) :
    ((cbuf_truncate_tail chain trunc_bytes).1 = .ok () ∧
      bytes (cbuf_truncate_tail chain trunc_bytes).2 =
        (bytes chain).take (total_len chain - trunc_bytes) ∧
      total_len (cbuf_truncate_tail chain trunc_bytes).2 =
        sumLen (cbuf_truncate_tail chain trunc_bytes).2) ↔
      0 < trunc_bytes ∨ ∃ last, chain.getLast? = some last ∧ last.len = 0 := by
  obtain ⟨before, rest, buf_offset, hfind, hstarts, hrest, -⟩ := h.starts (Nat.sub_le _ trunc_bytes)
  have hsum := hstarts.sum
  constructor
  · rintro ⟨hok, -, -⟩
    by_contra hnot
    obtain ⟨hzero, hlast⟩ := not_or.mp hnot
    cases rest with
    | nil =>
      unfold cbuf_truncate_tail at hok
      rw [if_neg h.ne_nil, if_neg (not_not.mpr h.head), hfind] at hok
      cases hok
    | cons buf bufs =>
      -- the cbufs behind the cut are all empty
      have hempty : sumLen (buf :: bufs) = 0 := by
        rw [sumLen_cons] at hrest ⊢
        rcases hstarts.inside with hoff | ⟨buf', bufs', heq, hlt⟩
        · omega
        · cases heq
          omega
      obtain ⟨last, hgetLast⟩ : ∃ last, (buf :: bufs).getLast? = some last :=
        ⟨_, List.getLast?_eq_some_getLast (List.cons_ne_nil buf bufs)⟩
      refine hlast ⟨last, ?_, ?_⟩
      · rw [hstarts.split, List.getLast?_append, hgetLast]
        rfl
      · have hmem : last ∈ buf :: bufs := List.mem_of_getLast? hgetLast
        exact List.sum_eq_zero_iff_forall_eq_nat.mp hempty _ (List.mem_map_of_mem hmem)
  · intro hcond
    cases rest with
    | nil =>
      exfalso
      have hoff : buf_offset = 0 := by
        rcases hstarts.inside with hoff | ⟨buf', bufs', heq, -⟩
        · exact hoff
        · cases heq
      rw [sumLen_nil] at hrest
      rcases hcond with hpos | ⟨last, hlast, hlen⟩
      · omega
      · subst hoff
        have hall : chain = before := by rw [hstarts.split, List.append_nil]
        have := findStart_last hfind last (hall ▸ hlast)
        omega
    | cons buf bufs =>
      obtain ⟨hok, hbytes, hwhole⟩ := h.truncate_tail_found hfind hstarts
      exact ⟨hok, hbytes, hwhole.total⟩

/-- One of three bytes is cut off. -/
theorem truncate_tail_one : ∃ chain, cbuf_get_chain [zeroed] 3 = .chain chain ∧
      (cbuf_truncate_tail chain 1).1 = .ok () ∧
      bytes (cbuf_truncate_tail chain 1).2 = (bytes chain).take 2 ∧
      total_len (cbuf_truncate_tail chain 1).2 = sumLen (cbuf_truncate_tail chain 1).2 :=
  ⟨_, rfl, (truncate_tail_iff ⟨rfl, rfl⟩ (show 1 ≤ 3 by decide)).mpr (.inl Nat.one_pos)⟩

/-- Cutting nothing off is an error. -/
theorem truncate_tail_nothing : ∃ chain, cbuf_get_chain [zeroed] 3 = .chain chain ∧ Whole chain ∧
      (cbuf_truncate_tail chain 0).1 = .error .ERR_GENERAL :=
  ⟨_, rfl, ⟨rfl, rfl⟩, rfl⟩

end Kernel
