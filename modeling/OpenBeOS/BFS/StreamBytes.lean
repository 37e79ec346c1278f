import OpenBeOS.BFS.ReadWrite

/-! # The bytes of a stream

`fileBytes` are the bytes of a stream in the blocks of its runs. Where `FindBlockRun()` maps the
positions to these blocks, `ReadAt()` copies from these bytes, and `WriteAt()` copies to them.
-/

namespace BFS

open Bytes
open Nat (add_assoc add_zero div_add_mod mod_lt mul_comm zero_add)

variable {σ : Type}

/-! ## Blocks and their numbers -/

/-- The number of a block of a group. -/
def BlockVolume.blockNumber (volume : BlockVolume σ) (b : Int × Nat) : Int :=
  b.1 * 2 ^ volume.AllocationGroupShift + b.2

/-- The block is on the volume. -/
def BlockVolume.Exists (volume : BlockVolume σ) (b : Int × Nat) : Prop :=
  0 ≤ b.1 ∧ b.2 < 2 ^ volume.AllocationGroupShift

variable {volume : BlockVolume σ}

theorem blockNumber_inj {b b' : Int × Nat} (h : volume.Exists b)
    (h' : volume.Exists b') (heq : volume.blockNumber b = volume.blockNumber b') : b = b' := by
  have hpos : (0 : Int) < 2 ^ volume.AllocationGroupShift := Int.pow_pos (by decide)
  -- the group and the block are quotient and remainder of the number
  have hunique : ∀ b : Int × Nat, volume.Exists b →
      volume.blockNumber b / 2 ^ volume.AllocationGroupShift = b.1 ∧
        volume.blockNumber b % 2 ^ volume.AllocationGroupShift = b.2 := by
    intro b hb
    refine (Int.ediv_emod_unique hpos).2 ⟨?_, Int.natCast_nonneg _, by exact_mod_cast hb.2⟩
    rw [BlockVolume.blockNumber, Int.mul_comm]
    exact Int.add_comm _ _
  obtain ⟨hgroup, hblock⟩ := hunique b h
  obtain ⟨hgroup', hblock'⟩ := hunique b' h'
  rw [heq] at hgroup hblock
  exact Prod.ext (hgroup.symm.trans hgroup') (by exact_mod_cast hblock.symm.trans hblock')

/-- The bytes of a stream with these blocks. -/
def fileBytes (volume : BlockVolume σ) (blocks : List (Int × Nat)) (disk : Blocks) : Buffer :=
  fun p =>
    match blocks[p / volume.BlockSize]? with
    | some b => disk (volume.blockNumber b) (p % volume.BlockSize)
    | none => 0

theorem fileBytes_of_getElem? {blocks : List (Int × Nat)} {p : Nat}
    {b : Int × Nat} (h : blocks[p / volume.BlockSize]? = some b) (disk : Blocks) :
    fileBytes volume blocks disk p = disk (volume.blockNumber b) (p % volume.BlockSize) := by
  rw [fileBytes, h]

/-- The run holds the blocks of the file from that of `pos` on. -/
structure Here (volume : BlockVolume σ) (blocks : List (Int × Nat)) (pos : Nat)
    (run : block_run) : Prop where
  length_pos : 0 < run.length
  fits : run.start + run.length ≤ 65536
  group : 0 ≤ run.allocation_group
  on_volume : run.start + run.length ≤ 2 ^ volume.AllocationGroupShift
  blocks : ∀ j < run.length, blocks[pos / volume.BlockSize + j]? =
    some (run.allocation_group, run.start + j)

/-- `FindBlockRun()` maps the positions of the file to these blocks. -/
structure Maps (volume : BlockVolume σ) (data : file_stream) (blocks : List (Int × Nat)) :
    Prop where
  finds : ∀ pos < blocks.length * volume.BlockSize, ∃ run offset,
    FindBlockRun volume data pos = .ok (run, offset) ∧ offset ≤ pos ∧
      Here volume blocks pos (run.skip ((pos - offset) / volume.BlockSize))
  on_volume : ∀ b ∈ blocks, volume.Exists b
  nodup : blocks.Nodup

theorem ToBlock_eq_blockNumber {run : block_run}
    (hgroup : 0 ≤ run.allocation_group) (hstart : run.start < 2 ^ volume.AllocationGroupShift) :
    volume.ToBlock run = volume.blockNumber (run.allocation_group, run.start) := by
  obtain ⟨group, start, length⟩ := run
  obtain ⟨n, rfl⟩ := Int.eq_ofNat_of_zero_le hgroup
  rw [ToBlock_eq volume length hstart, BlockVolume.blockNumber]
  push_cast
  rfl

section

variable {volume : BlockVolume σ} {blocks : List (Int × Nat)} {pos : Nat} {run : block_run}

theorem Here.blockNumber (h : Here volume blocks pos run) {j : Nat} (hj : j < run.length) :
    volume.blockNumber (run.allocation_group, run.start + j) = volume.ToBlock run + j := by
  have hlength := h.on_volume
  rw [ToBlock_eq_blockNumber h.group (by omega)]
  simp only [BlockVolume.blockNumber]
  push_cast
  ring

/-- The byte of the file that is `i` bytes behind `pos`, in the blocks of the run. -/
theorem Here.fileBytes (h : Here volume blocks pos run) {i : Nat}
    (hi : pos % volume.BlockSize + i < run.length * volume.BlockSize) (disk : Blocks) :
    BFS.fileBytes volume blocks disk (pos + i) =
      disk (volume.ToBlock run + ((pos % volume.BlockSize + i) / volume.BlockSize : Nat))
        ((pos % volume.BlockSize + i) % volume.BlockSize) := by
  have hb := volume.BlockSize_pos
  have hsplit := div_add_mod pos volume.BlockSize
  have hj : (pos % volume.BlockSize + i) / volume.BlockSize < run.length := by
    rw [Nat.div_lt_iff_lt_mul hb]
    exact hi
  have hpos : pos + i = volume.BlockSize * (pos / volume.BlockSize) +
      (pos % volume.BlockSize + i) := by
    omega
  have hdiv : (pos + i) / volume.BlockSize =
      pos / volume.BlockSize + (pos % volume.BlockSize + i) / volume.BlockSize := by
    rw [hpos, Nat.mul_add_div hb]
  have hget := h.blocks _ hj
  rw [← hdiv] at hget
  rw [fileBytes_of_getElem? hget, h.blockNumber hj]
  congr 1
  rw [hpos, Nat.mul_add_mod]

/-! ## One transfer -/

variable {numBlocks : Nat}

section

variable (h : Here volume blocks pos run)
include h

theorem Here.cached_read (haligned : pos % volume.BlockSize = 0) (hle : numBlocks ≤ run.length) (disk : Blocks) (buffer : Buffer) (d : Nat) :
    BFS.cached_read volume.BlockSize disk (volume.ToBlock run) buffer d numBlocks =
      memcpy buffer d (BFS.fileBytes volume blocks disk) pos (numBlocks * volume.BlockSize) := by
  have hmul := Nat.mul_le_mul_right volume.BlockSize hle
  funext i
  by_cases hin : d ≤ i ∧ i < d + numBlocks * volume.BlockSize
  · rw [memcpy_inside hin.1 hin.2, h.fileBytes (by omega), haligned, zero_add]
    exact if_pos hin
  · rw [memcpy_outside (by omega)]
    exact if_neg hin

theorem Here.read_partial {n : Nat}
    (hle : pos % volume.BlockSize + n ≤ volume.BlockSize) (disk : Blocks) (buffer : Buffer)
    (d : Nat) :
    memcpy buffer d (disk (volume.ToBlock run)) (pos % volume.BlockSize) n =
      memcpy buffer d (BFS.fileBytes volume blocks disk) pos n := by
  have hone := Nat.mul_le_mul_right volume.BlockSize h.length_pos
  funext i
  by_cases hin : d ≤ i ∧ i < d + n
  · have hlt : pos % volume.BlockSize + (i - d) < volume.BlockSize := by omega
    rw [memcpy_inside hin.1 hin.2, memcpy_inside hin.1 hin.2, h.fileBytes (by omega),
      Nat.div_eq_of_lt hlt, Nat.mod_eq_of_lt hlt, Nat.cast_zero, Int.add_zero]
  · rw [memcpy_outside (by omega), memcpy_outside (by omega)]

/-- What writing blocks of the run does to the file: the blocks of the file are different blocks of
the volume, so no other byte changes. -/
theorem Here.fileBytes_WriteBlocks
    (hexists : ∀ b ∈ blocks, volume.Exists b) (honce : blocks.Nodup)
    (hle : numBlocks ≤ run.length) (disk : Blocks) (buffer : Buffer) (s p : Nat) :
    BFS.fileBytes volume blocks
        (WriteBlocks volume.BlockSize disk (volume.ToBlock run) buffer s numBlocks) p =
      if pos / volume.BlockSize ≤ p / volume.BlockSize ∧
          p / volume.BlockSize < pos / volume.BlockSize + numBlocks then
        buffer (s + (p / volume.BlockSize - pos / volume.BlockSize) * volume.BlockSize +
          p % volume.BlockSize)
      else BFS.fileBytes volume blocks disk p := by
  have hb := volume.BlockSize_pos
  have hmod := mod_lt p hb
  cases hget : blocks[p / volume.BlockSize]? with
  | none =>
    have hout : ¬(pos / volume.BlockSize ≤ p / volume.BlockSize ∧
        p / volume.BlockSize < pos / volume.BlockSize + numBlocks) := by
      rintro ⟨hlow, hhigh⟩
      have hsome := h.blocks (p / volume.BlockSize - pos / volume.BlockSize) (by omega)
      rw [Nat.add_sub_cancel' hlow, hget] at hsome
      cases hsome
    rw [if_neg hout, BFS.fileBytes, BFS.fileBytes, hget]
  | some b =>
    rw [fileBytes_of_getElem? hget, fileBytes_of_getElem? hget, WriteBlocks]
    by_cases hin : pos / volume.BlockSize ≤ p / volume.BlockSize ∧
        p / volume.BlockSize < pos / volume.BlockSize + numBlocks
    · -- the block is one of the run
      obtain ⟨j, hj⟩ := Nat.exists_eq_add_of_le hin.1
      have hsome := h.blocks j (by omega)
      rw [← hj, hget, Option.some.injEq] at hsome
      have hnumber := h.blockNumber (j := j) (by omega)
      rw [← hsome] at hnumber
      rw [if_pos hin, hnumber, if_pos (by omega), memcpy_inside (by omega) (by omega), hj]
      congr 1
      rw [Nat.add_sub_cancel_left, add_sub_cancel_left, Int.toNat_natCast, Nat.sub_zero]
    · rw [if_neg hin, if_neg]
      rintro ⟨hlow, hhigh⟩
      obtain ⟨j, hj⟩ := Int.eq_ofNat_of_zero_le (Int.sub_nonneg.2 hlow)
      have hlt : j < numBlocks := by omega
      have hsome := h.blocks j (by omega)
      have hnumber := h.blockNumber (j := j) (by omega)
      have hsame : b = (run.allocation_group, run.start + j) :=
        blockNumber_inj (hexists b (List.mem_of_getElem? hget))
          (hexists _ (List.mem_of_getElem? hsome)) (by omega)
      rw [← hsame, ← hget] at hsome
      obtain ⟨hplace, -⟩ := List.getElem?_eq_some_iff.1 hget
      have heq := (List.getElem?_inj hplace honce).1 hsome.symm
      omega

/-- Writing whole blocks of the run. -/
theorem Here.write_blocks
    (hexists : ∀ b ∈ blocks, volume.Exists b) (honce : blocks.Nodup)
    (haligned : pos % volume.BlockSize = 0) (hle : numBlocks ≤ run.length)
    (disk : Blocks) (buffer : Buffer) (s : Nat) :
    BFS.fileBytes volume blocks
        (WriteBlocks volume.BlockSize disk (volume.ToBlock run) buffer s numBlocks) =
      memcpy (BFS.fileBytes volume blocks disk) pos buffer s (numBlocks * volume.BlockSize) := by
  have hb := volume.BlockSize_pos
  have hpos := div_add_mod pos volume.BlockSize
  rw [haligned, add_zero, mul_comm] at hpos
  funext p
  have hp := div_add_mod p volume.BlockSize
  have hlow : pos / volume.BlockSize ≤ p / volume.BlockSize ↔ pos ≤ p := by
    rw [Nat.le_div_iff_mul_le hb, hpos]
  have hhigh : p / volume.BlockSize < pos / volume.BlockSize + numBlocks ↔
      p < pos + numBlocks * volume.BlockSize := by
    rw [Nat.div_lt_iff_lt_mul hb, Nat.add_mul, hpos]
  rw [h.fileBytes_WriteBlocks hexists honce hle]
  by_cases hin : pos ≤ p ∧ p < pos + numBlocks * volume.BlockSize
  · have hle' := Nat.mul_le_mul_right volume.BlockSize (hlow.2 hin.1)
    rw [mul_comm] at hp
    rw [hpos] at hle'
    rw [if_pos ⟨hlow.2 hin.1, hhigh.2 hin.2⟩, memcpy_inside hin.1 hin.2, Nat.sub_mul, hpos,
      add_assoc, ← Nat.sub_add_comm hle', hp]
  · rw [if_neg fun hblock => hin ⟨hlow.1 hblock.1, hhigh.1 hblock.2⟩, memcpy_outside (by omega)]

/-- Writing a part of the first block. -/
theorem Here.write_partial
    (hexists : ∀ b ∈ blocks, volume.Exists b) (honce : blocks.Nodup) {n : Nat}
    (hle : pos % volume.BlockSize + n ≤ volume.BlockSize) (disk : Blocks) (buffer : Buffer)
    (s : Nat) :
    BFS.fileBytes volume blocks (WriteBlocks volume.BlockSize disk (volume.ToBlock run)
        (memcpy (disk (volume.ToBlock run)) (pos % volume.BlockSize) buffer s n) 0 1) =
      memcpy (BFS.fileBytes volume blocks disk) pos buffer s n := by
  have hpos := div_add_mod pos volume.BlockSize
  funext p
  have hp := div_add_mod p volume.BlockSize
  have hmod := mod_lt p volume.BlockSize_pos
  rw [h.fileBytes_WriteBlocks hexists honce h.length_pos]
  by_cases hsame : p / volume.BlockSize = pos / volume.BlockSize
  · have hfile : BFS.fileBytes volume blocks disk p =
        disk (volume.ToBlock run) (p % volume.BlockSize) := by
      have hget := h.blocks 0 h.length_pos
      rw [add_zero, ← hsame] at hget
      rw [fileBytes_of_getElem? hget, h.blockNumber h.length_pos, Nat.cast_zero, Int.add_zero]
    rw [hsame] at hp ⊢
    rw [if_pos ⟨Nat.le_refl _, Nat.lt_succ_self _⟩, Nat.sub_self, Nat.zero_mul, zero_add]
    by_cases hin : pos ≤ p ∧ p < pos + n
    · rw [memcpy_inside (by omega) (by omega), memcpy_inside hin.1 hin.2]
      congr 1
      omega
    · rw [memcpy_outside (by omega), memcpy_outside (by omega), hfile]
  · rw [if_neg (by omega), memcpy_outside]
    -- the bytes that are written are all in one block
    by_contra hin
    refine hsame (Nat.div_eq_of_lt_le ?_ ?_)
    · rw [mul_comm]
      omega
    · rw [Nat.succ_mul, mul_comm]
      omega

end

end

/-! ## A request -/

/-- What a transfer must do for requests at `pos`: `Done n x` says that `n` bytes have been
transferred, and each step transfers the bytes that come next. -/
structure Transfer.Correct {γ : Type} (transfer : Transfer γ) (volume : BlockVolume σ)
    (blocks : List (Int × Nat)) (pos : Nat) (Done : Nat → γ → Prop) : Prop where
  part : ∀ (n k : Nat) (run : block_run) (x : γ), Here volume blocks (pos + n) run →
    (pos + n) % volume.BlockSize + k ≤ volume.BlockSize → Done n x →
      Done (n + k) (transfer.part (volume.ToBlock run) ((pos + n) % volume.BlockSize) n k x)
  blocks : ∀ (n numBlocks : Nat) (run : block_run) (x : γ), Here volume blocks (pos + n) run →
    (pos + n) % volume.BlockSize = 0 → numBlocks ≤ run.length → Done n x →
      Done (n + numBlocks * volume.BlockSize) (transfer.blocks (volume.ToBlock run) n numBlocks x)

theorem Int.shiftRight_BlockShift (volume : BlockVolume σ) (n : Int) :
    n >>> volume.BlockShift = n / volume.BlockSize := by
  rw [Int.shiftRight_eq_div_pow, Allocator.BlockSize]

theorem wrapUint16_of_lt {n : Nat} (h : n < 65536) : wrapUint16 n = n := by
  rw [wrapUint16]
  omega

section

variable {γ : Type} {transfer : Transfer γ} {volume : BlockVolume σ} {data : file_stream}
  {blocks : List (Int × Nat)} {pos : Nat} {Done : Nat → γ → Prop}

theorem Here.rest {run : block_run} (h : Here volume blocks pos run) {n : Nat}
    (hn : n < run.length) :
    Here volume blocks (pos + n * volume.BlockSize)
      ({ run with start := toUint16 (run.start + n), length := 1 }.skip 0) := by
  have hfits := h.fits
  have hle := h.on_volume
  have hstart : toUint16 (run.start + n) = run.start + n := toUint16_of_lt (by omega)
  have hrun : ({ run with start := toUint16 (run.start + n), length := 1 } : block_run).skip 0 =
      { run with start := run.start + n, length := 1 } := by
    simp only [block_run.skip, hstart, Int.add_zero, Int.sub_zero]
    rw [wrapUint16_of_lt (by omega), wrapUint16_of_lt (by decide)]
  rw [hrun]
  refine ⟨Nat.one_pos, by simp only; omega, h.group, by simp only; omega, fun j hj => ?_⟩
  obtain rfl : j = 0 := by simpa using hj
  rw [Nat.add_mul_div_right _ _ volume.BlockSize_pos, add_zero, h.blocks n hn]
  rfl

theorem transferLoop_spec (h : Maps volume data blocks)
    (hcorrect : transfer.Correct volume blocks pos Done) (fuel : Nat) :
    ∀ (run : block_run) (offset : Int) (length : Nat) (isPartial : Bool) (done : Nat) (x : γ),
      (pos + done) % volume.BlockSize = 0 →
      (0 < length → Here volume blocks (pos + done)
        (run.skip (((pos + done : Nat) - offset) / volume.BlockSize))) →
      pos + done + length ≤ blocks.length * volume.BlockSize → length < fuel →
      (isPartial = true → length < volume.BlockSize) → Done done x →
      ∃ x', transferLoop volume data transfer fuel run offset (pos + done) length isPartial done x =
          some (.ok (done + length, x')) ∧ Done (done + length) x' := by
  have hb := volume.BlockSize_pos
  induction fuel with
  | zero =>
    intro run offset length isPartial done x _ _ _ hfuel
    omega
  | succ fuel ih =>
    intro run offset length isPartial done x haligned hhere hroom hfuel hpartial hdone
    rw [transferLoop]
    by_cases hlength : length = 0
    · rw [if_pos hlength, hlength]
      exact ⟨x, rfl, hdone⟩
    rw [if_neg hlength]
    simp only [Int.shiftRight_BlockShift, shiftLeft_BlockShift, Nat.shiftRight_eq_div_pow]
    have hrun := hhere (by omega)
    generalize run.skip (((pos + done : Nat) - offset) / volume.BlockSize) = run at hrun ⊢
    have hone := Nat.mul_le_mul_right volume.BlockSize hrun.length_pos
    by_cases hend : run.length * volume.BlockSize > length ∧ length < volume.BlockSize
    · -- the last block
      rw [if_pos hend]
      have hpart := hcorrect.part done length run x hrun (by omega) hdone
      rw [haligned] at hpart
      exact ⟨_, rfl, hpart⟩
    rw [if_neg hend]
    by_cases hmore : run.length * volume.BlockSize > length
    · -- some blocks of the run, and a part of the next one
      have hblocks : 2 ^ volume.BlockShift = volume.BlockSize := rfl
      simp only [hmore, decide_true, Bool.or_true, if_true, hblocks]
      have hn : length / volume.BlockSize < run.length := by
        rw [Nat.div_lt_iff_lt_mul hb]
        exact hmore
      have hsplit := Nat.div_mul_le_self length volume.BlockSize
      have hlt := Nat.lt_div_mul_add (a := length) hb
      have hsome : 0 < length / volume.BlockSize := Nat.div_pos (by omega) hb
      have hcount : toUint16 (length / volume.BlockSize) = length / volume.BlockSize :=
        toUint16_of_lt (by have := hrun.fits; omega)
      rw [hcount]
      have hmoved := hcorrect.blocks done (length / volume.BlockSize) run x hrun haligned
        (Nat.le_of_lt hn) hdone
      have hrest := hrun.rest hn
      have hpos : 0 < length / volume.BlockSize * volume.BlockSize := Nat.mul_pos hsome hb
      generalize length / volume.BlockSize = n at *
      by_cases hzero : length - n * volume.BlockSize = 0
      · rw [if_pos hzero]
        obtain rfl : length = n * volume.BlockSize := by omega
        exact ⟨_, rfl, hmoved⟩
      · rw [if_neg hzero]
        have hnext := ih { run with start := toUint16 (run.start + n), length := 1 }
          (pos + done + n * volume.BlockSize : Nat) (length - n * volume.BlockSize) true
          (done + n * volume.BlockSize) _ (by
            rw [← add_assoc, Nat.add_mul_mod_self_right, haligned])
          (fun _ => by
            rw [← add_assoc, Int.sub_self, Int.zero_ediv]
            exact hrest)
          (by omega) (by omega) (fun _ => by omega) hmoved
        rw [← add_assoc] at hnext
        have hsum : done + n * volume.BlockSize + (length - n * volume.BlockSize) =
            done + length := by
          omega
        rw [hsum] at hnext
        exact hnext
    · -- the whole run
      have hfull : isPartial = false := by
        by_contra hp
        have := hpartial (by simpa using hp)
        omega
      subst hfull
      simp only [hmore, decide_false, Bool.or_false, if_false, Bool.false_eq_true]
      have hmoved := hcorrect.blocks done run.length run x hrun haligned (Nat.le_refl _) hdone
      by_cases hzero : length - run.length * volume.BlockSize = 0
      · rw [if_pos hzero]
        obtain rfl : length = run.length * volume.BlockSize := by omega
        exact ⟨_, rfl, hmoved⟩
      · rw [if_neg hzero]
        obtain ⟨run', offset', hfound, hle, hhere'⟩ :=
          h.finds (pos + done + run.length * volume.BlockSize) (by omega)
        simp only [hfound]
        have hnext := ih run' offset' (length - run.length * volume.BlockSize) false
          (done + run.length * volume.BlockSize) _ (by
            rw [← add_assoc, Nat.add_mul_mod_self_right, haligned])
          (fun _ => by rw [← add_assoc]; exact hhere')
          (by omega) (by omega) nofun hmoved
        rw [← add_assoc] at hnext
        have hsum : done + run.length * volume.BlockSize +
            (length - run.length * volume.BlockSize) = done + length := by
          omega
        rw [hsum] at hnext
        exact hnext

/-- **A request** whose bytes are in the blocks of the file is transferred as a whole. -/
theorem transferAt_spec (h : Maps volume data blocks)
    (hcorrect : transfer.Correct volume blocks pos Done) {length : Nat} {x : γ}
    (hpos : pos < blocks.length * volume.BlockSize)
    (hroom : pos + length ≤ blocks.length * volume.BlockSize) (hdone : Done 0 x) :
    ∃ x', transferAt volume data transfer pos length x = some (.ok (length, x')) ∧
      Done length x' := by
  have hb := volume.BlockSize_pos
  obtain ⟨run, offset, hfound, hle, hhere⟩ := h.finds pos hpos
  rw [transferAt, hfound]
  simp only
  by_cases haligned : pos % volume.BlockSize ≠ 0
  · rw [if_pos haligned]
    have hdiv : ((pos : Int) - offset).tdiv volume.BlockSize = (pos - offset) / volume.BlockSize :=
      Int.tdiv_eq_ediv_of_nonneg (by omega)
    have hmod := mod_lt pos hb
    rw [hdiv]
    have hhead := hcorrect.part 0 (min length (volume.BlockSize - pos % volume.BlockSize))
      (run.skip ((pos - offset) / volume.BlockSize)) x (by rw [add_zero]; exact hhere)
      (by rw [add_zero]; omega) hdone
    rw [add_zero, zero_add] at hhead
    by_cases hzero : length - min length (volume.BlockSize - pos % volume.BlockSize) = 0
    · rw [if_pos hzero]
      have hall : min length (volume.BlockSize - pos % volume.BlockSize) = length := by omega
      rw [hall] at hhead ⊢
      exact ⟨_, rfl, hhead⟩
    · rw [if_neg hzero]
      have hmin : min length (volume.BlockSize - pos % volume.BlockSize) =
          volume.BlockSize - pos % volume.BlockSize := by
        omega
      rw [hmin] at hhead hzero ⊢
      -- the next position is at the border of a block
      have hborder : (pos + (volume.BlockSize - pos % volume.BlockSize)) % volume.BlockSize = 0 := by
        have hsplit := div_add_mod pos volume.BlockSize
        have hnext : pos + (volume.BlockSize - pos % volume.BlockSize) =
            volume.BlockSize * (pos / volume.BlockSize + 1) := by
          rw [Nat.mul_succ]
          omega
        rw [hnext, Nat.mul_mod_right]
      obtain ⟨run', offset', hfound', hle', hhere'⟩ :=
        h.finds (pos + (volume.BlockSize - pos % volume.BlockSize)) (by omega)
      simp only [hfound']
      have hnext := transferLoop_spec h hcorrect (length + 1) run' offset'
        (length - (volume.BlockSize - pos % volume.BlockSize)) false
        (volume.BlockSize - pos % volume.BlockSize) _ hborder (fun _ => hhere') (by omega)
        (by omega) nofun hhead
      rw [Nat.add_sub_cancel' (by omega)] at hnext
      exact hnext
  · rw [if_neg haligned]
    have hnext := transferLoop_spec h hcorrect (length + 1) run offset length false 0 x
      (by rw [add_zero]; omega) (fun _ => by rw [add_zero]; exact hhere) (by omega)
      (by omega) nofun hdone
    rw [add_zero, zero_add] at hnext
    exact hnext

end

section

variable {volume : BlockVolume σ} {data : file_stream} {blocks : List (Int × Nat)}

theorem reader_correct (disk : Blocks) (pos : Nat) (buffer : Buffer) :
    (reader volume disk).Correct volume blocks pos fun n x =>
      x = memcpy buffer 0 (fileBytes volume blocks disk) pos n where
  part n k run x hhere hle hdone := by
    show memcpy x n (disk (volume.ToBlock run)) ((pos + n) % volume.BlockSize) k = _
    have happend := memcpy_append buffer (fileBytes volume blocks disk) 0 pos n k
    rw [zero_add] at happend
    rw [hhere.read_partial hle, hdone, happend]
  blocks n numBlocks run x hhere haligned hle hdone := by
    show cached_read volume.BlockSize disk (volume.ToBlock run) x n numBlocks = _
    have happend := memcpy_append buffer (fileBytes volume blocks disk) 0 pos n
      (numBlocks * volume.BlockSize)
    rw [zero_add] at happend
    rw [hhere.cached_read haligned hle, hdone, happend]

/-- **`ReadAt()`** reads the bytes of the file up to its size. -/
theorem ReadAt_spec (h : Maps volume data blocks)
    (hsize : data.size ≤ blocks.length * volume.BlockSize) (disk : Blocks) (p n : Nat)
    (buffer : Buffer) :
    ReadAt volume disk data p buffer n = some (.ok (min n (data.size - p),
      memcpy buffer 0 (fileBytes volume blocks disk) p (min n (data.size - p)))) := by
  rw [ReadAt]
  by_cases hend : (p : Int) ≥ 0 ∧ (p : Int) ≥ data.size
  · rw [if_pos hend, show min n (data.size - p) = 0 by omega, memcpy_zero]
  · rw [if_neg hend]
    have hlength : (if p + n > data.size then data.size - p else n) = min n (data.size - p) := by
      split <;> omega
    simp only [Int.toNat_natCast, hlength]
    obtain ⟨x, hx, rfl⟩ := @transferAt_spec _ _ _ _ _ _ _ _ h (reader_correct disk p buffer)
      (min n (data.size - p)) buffer (by omega) (by omega)
      (memcpy_zero _ _ _ _).symm
    exact hx

theorem writer_correct (h : Maps volume data blocks) (buffer : Buffer) (pos : Nat)
    (disk : Blocks) :
    (writer volume buffer).Correct volume blocks pos fun n x =>
      fileBytes volume blocks x = memcpy (fileBytes volume blocks disk) pos buffer 0 n where
  part n k run x hhere hle hdone := by
    show fileBytes volume blocks (WriteBlocks volume.BlockSize x (volume.ToBlock run)
      (memcpy (x (volume.ToBlock run)) ((pos + n) % volume.BlockSize) buffer n k) 0 1) = _
    have happend := memcpy_append (fileBytes volume blocks disk) buffer pos 0 n k
    rw [zero_add] at happend
    rw [hhere.write_partial h.on_volume h.nodup hle, hdone, happend]
  blocks n numBlocks run x hhere haligned hle hdone := by
    show fileBytes volume blocks
      (WriteBlocks volume.BlockSize x (volume.ToBlock run) buffer n numBlocks) = _
    have happend := memcpy_append (fileBytes volume blocks disk) buffer pos 0 n
      (numBlocks * volume.BlockSize)
    rw [zero_add] at happend
    rw [hhere.write_blocks h.on_volume h.nodup haligned hle, hdone, happend]

end

end BFS
