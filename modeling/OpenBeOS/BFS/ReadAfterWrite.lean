import OpenBeOS.BFS.StreamBytes

/-! # Reads see writes

A well-formed stream maps its positions to its blocks, also where `FindBlockRun()` returns an offset
that is 4 GB too low. Growing a stream keeps its blocks in front of the new ones. So `ReadAt()` reads
what `WriteAt()` wrote, and the bytes of before elsewhere.
-/

namespace BFS

open Bytes

variable {σ : Type}

/-! ## The blocks of a well-formed stream -/

section

variable {volume : BlockVolume σ}

theorem valid_of_IsValidBlockRun {run : block_run}
    (h : volume.IsValidBlockRun run = .B_OK) :
    0 ≤ run.allocation_group ∧ run.start + run.length ≤ 2 ^ volume.AllocationGroupShift ∧
      0 < run.length := by
  rw [BlockVolume.IsValidBlockRun] at h
  split at h
  · cases h
  · omega

theorem skip_add_mul {volume : BlockVolume σ} (hshift : volume.BlockShift ≤ 13) (run : block_run)
    (n : Nat) (k : Int) :
    run.skip ((n + 2 ^ 32 * k) / volume.BlockSize) = run.skip (n / volume.BlockSize : Nat) := by
  have hsplit : (2 : Int) ^ 32 = volume.BlockSize * (65536 * 2 ^ (16 - volume.BlockShift)) := by
    have hpow : 2 ^ 32 = volume.BlockSize * (65536 * 2 ^ (16 - volume.BlockShift)) := by
      rw [Allocator.BlockSize, show 65536 = 2 ^ 16 from rfl, ← Nat.pow_add, ← Nat.pow_add]
      congr 1
      omega
    exact_mod_cast hpow
  have hb : (volume.BlockSize : Int) ≠ 0 := by
    exact_mod_cast volume.BlockSize_pos.ne'
  rw [hsplit, Int.mul_assoc, Int.add_mul_ediv_left _ _ hb, ← Int.natCast_ediv]
  generalize (2 : Int) ^ (16 - volume.BlockShift) = m
  have hmod : ∀ a : Int, (a + 65536 * m * k) % 65536 = a % 65536 := by
    intro a
    rw [Int.mul_assoc, Int.add_mul_emod_self_left]
  have hmod' : ∀ a : Int, (a - 65536 * m * k) % 65536 = a % 65536 := by
    intro a
    rw [Int.mul_assoc, Int.sub_mul_emod_self_left]
  simp only [block_run.skip, wrapUint16, ← Int.add_assoc, ← Int.sub_sub, hmod, hmod']

/-- The run at a position holds the blocks of the file from there on. -/
theorem RunAt.here {runs : List block_run} {pos : Nat} {run : block_run} {offset : Nat}
    (hshift : volume.BlockShift ≤ 13) (h : RunAt volume.BlockSize runs pos run offset)
    (hfits : run.start + run.length ≤ 65536) (hlength : run.length < 65536)
    (hvalid : volume.IsValidBlockRun run = .B_OK) (k : Int) :
    Here volume (blockList runs) pos
      (run.skip ((pos - (offset + 2 ^ 32 * k)) / volume.BlockSize)) := by
  have hb := volume.BlockSize_pos
  obtain ⟨hgroup, hon, -⟩ := valid_of_IsValidBlockRun hvalid
  obtain ⟨before, after, rfl, rfl, hle, hlt⟩ := h
  obtain ⟨rest, rfl⟩ := Nat.exists_eq_add_of_le hle
  have hrest : rest / volume.BlockSize < run.length := by
    rw [Nat.div_lt_iff_lt_mul hb]
    omega
  have hoffset : ((blocksOf before * volume.BlockSize + rest : Nat) : Int) -
      ((blocksOf before * volume.BlockSize : Nat) + 2 ^ 32 * k) = rest + 2 ^ 32 * -k := by
    push_cast
    ring
  have hskip : run.skip (rest / volume.BlockSize : Nat) = { run with
        start := run.start + rest / volume.BlockSize
        length := run.length - rest / volume.BlockSize } := by
    simp only [block_run.skip]
    rw [← Int.natCast_add, ← Int.ofNat_sub (Nat.le_of_lt hrest), wrapUint16_of_lt (by omega),
      wrapUint16_of_lt (Nat.lt_of_le_of_lt (Nat.sub_le _ _) hlength)]
  rw [hoffset, skip_add_mul hshift, hskip]
  refine ⟨by simp only; omega, by simp only; omega, hgroup, by simp only; omega, fun j hj => ?_⟩
  simp only at hj ⊢
  have hdiv : (blocksOf before * volume.BlockSize + rest) / volume.BlockSize =
      blocksOf before + rest / volume.BlockSize := by
    rw [Nat.mul_comm, Nat.mul_add_div hb]
  have hbefore : (blockList before).length ≤ blocksOf before + (rest / volume.BlockSize + j) := by
    rw [length_blockList]
    exact Nat.le_add_right _ _
  rw [hdiv, Nat.add_assoc, blockList_append, blockList_cons, List.getElem?_append_right hbefore,
    length_blockList, Nat.add_sub_cancel_left,
    List.getElem?_append_left (by rw [length_runBlocks]; omega), getElem?_runBlocks (by omega),
    Nat.add_assoc]

theorem exists_of_valid {runs : List block_run}
    (h : ∀ run ∈ runs, volume.IsValidBlockRun run = .B_OK) :
    ∀ b ∈ blockList runs, volume.Exists b := by
  intro b hb
  obtain ⟨run, hrun, hb⟩ := List.mem_flatMap.1 hb
  obtain ⟨hgroup, hon, -⟩ := valid_of_IsValidBlockRun (h run hrun)
  simp only [runBlocks, List.mem_map, List.mem_range] at hb
  obtain ⟨j, hj, rfl⟩ := hb
  exact ⟨hgroup, by simp only; omega⟩

/-- An intact stream and its blocks: a well-formed stream whose blocks are in use, or one with a
well-formed double indirect range, which is only used if there is no room in the indirect one. -/
inductive file_stream.Intact (volume : BlockVolume σ) (used : σ → Int → Nat → Prop) (s : σ)
    (data : file_stream) : List (Int × Nat) → Prop
  | simple {ds is : List block_run} {others : Int → Nat → Prop}
      (no_double : data.max_double_indirect_range = 0)
      (valid : data.todata_stream.Valid volume.toAllocator ds is)
      (size : data.size ≤ capacity volume.toAllocator ds is)
      (owns : Owns used others s (ownedRuns data.todata_stream)) :
      data.Intact volume used s (blockList (ds ++ is))
  | double {ds is runs : List block_run} (wellFormed : data.WellFormed volume ds is runs)
      (fits : ∀ run ∈ runs, run.start + run.length ≤ 65536)
      (size : data.size ≤ data.max_double_indirect_range)
      (room : data.max_indirect_range < data.size ∨ arrayWithRoom data.arrays = none) :
      data.Intact volume used s (blockList (ds ++ is ++ runs))

variable {used : σ → Int → Nat → Prop} {data : file_stream} {s : σ} {blocks : List (Int × Nat)}

theorem file_stream.WellFormed.length_blocks {ds is runs : List block_run}
    (h : data.WellFormed volume ds is runs) :
    (blockList (ds ++ is ++ runs)).length * volume.BlockSize = data.max_double_indirect_range := by
  rw [length_blockList, blocksOf_append, blocksOf_append, h.double.range,
    h.valid.range_eq h.indirect_ne, capacity]
  ring

/-- The positions of a well-formed double indirect range: a wrong offset is wrong by a multiple of
4 GB. -/
theorem file_stream.WellFormed.maps (hlow : 10 ≤ volume.BlockShift)
    (hhigh : volume.BlockShift ≤ 13) {ds is runs : List block_run}
    (h : data.WellFormed volume ds is runs)
    (hfits : ∀ run ∈ runs, run.start + run.length ≤ 65536) :
    Maps volume data (blockList (ds ++ is ++ runs)) := by
  refine ⟨fun pos hpos => ?_, exists_of_valid h.on_volume, h.once⟩
  rw [h.length_blocks] at hpos
  by_cases hbefore : pos < data.max_indirect_range
  · obtain ⟨run, offset, hfound, hat⟩ := @findInRange_before _ _ _ _ _ h.valid pos (by omega)
      fun _ => hbefore
    have hok := h.valid.ok hat.mem
    have hat' := hat.append_right runs
    have hvalid := h.on_volume run hat'.mem
    refine ⟨run, offset, FindBlockRun_eq hfound hvalid, ?_, ?_⟩
    · obtain ⟨-, -, -, -, hle, -⟩ := hat
      exact_mod_cast hle
    · have hhere := hat'.here hhigh hok.fits hok.lt hvalid 0
      rw [Int.mul_zero, Int.add_zero] at hhere
      exact hhere
  · obtain ⟨run, offset, hat, hfour, hfound⟩ := FindBlockRun_double hlow hhigh h (by omega) hpos
    refine ⟨run, _, hfound, ?_, ?_⟩
    · obtain ⟨-, -, -, -, hle, -⟩ := hat
      have hwrap : wrapInt32 (entryOffset volume data pos) ≤ entryOffset volume data pos := by
        rw [wrapInt32]
        omega
      omega
    · obtain ⟨k, hk⟩ : ∃ k : Int, wrapInt32 (entryOffset volume data pos) -
          entryOffset volume data pos = 2 ^ 32 * k := by
        refine ⟨-((entryOffset volume data pos + 2 ^ 31) / 2 ^ 32), ?_⟩
        rw [wrapInt32]
        omega
      rw [hk]
      have hsize : run.start + run.length ≤ 65536 :=
        (List.mem_append.1 hat.mem).elim (fun hrun => (h.valid.ok hrun).fits) (hfits run)
      exact hat.here hhigh hsize (by omega) (h.on_volume run hat.mem) k

theorem data_stream.Valid.capacity_le {data : data_stream} {ds is : List block_run}
    (h : data.Valid volume.toAllocator ds is) :
    capacity volume.toAllocator ds is ≤ max data.max_direct_range data.max_indirect_range := by
  by_cases his : is = []
  · rw [capacity, his, blocksOf_nil, Nat.add_zero, ← h.direct_range]
    exact Nat.le_max_left _ _
  · rw [← h.range_eq his]
    exact Nat.le_max_right _ _

theorem file_stream.Intact.maps (hcorrect : volume.Correct used)
    (h : data.Intact volume used s blocks) :
    Maps volume data blocks ∧ data.size ≤ blocks.length * volume.BlockSize := by
  cases h with
  | @simple ds is others no_double valid size owns =>
    have hlength : (blockList (ds ++ is)).length * volume.BlockSize =
        capacity volume.toAllocator ds is := by
      rw [length_blockList, blocksOf_append, capacity]
    have hused : ∀ run ∈ ownedRuns data.todata_stream, ∀ group i, run.Contains group i →
        used s group i :=
      fun run hrun group i hin =>
        (owns.blocks group i).2.1.2 (Or.inr (cover_pos.2 ⟨run, hrun, hin⟩))
    refine ⟨⟨fun pos hpos => ?_, exists_of_valid fun run hrun => ?_,
      valid.nodup fun group i => (owns.blocks group i).1⟩, ?_⟩
    · rw [hlength] at hpos
      obtain ⟨run, offset, hfound, hat, hrun⟩ := valid.found hcorrect hused
        (Nat.lt_of_lt_of_le hpos valid.capacity_le) fun hdouble => by omega
      have hok := valid.ok hat.mem
      have hhere := hat.here hcorrect.shift_le hok.fits hok.lt hrun 0
      rw [Int.mul_zero, Int.add_zero] at hhere
      obtain ⟨-, -, -, -, hle, -⟩ := hat
      exact ⟨run, offset, hfound, by exact_mod_cast hle, hhere⟩
    · exact hcorrect.valid_run (valid.ok hrun) (hused run (valid.mem_owned hrun))
    · rw [hlength]
      exact size
  | @double ds is runs wellFormed fits size room =>
    refine ⟨wellFormed.maps hcorrect.shift_ge hcorrect.shift_le fits, ?_⟩
    rw [wellFormed.length_blocks]
    exact size

/-! ## Growing -/

theorem file_stream.GrowStream_eq (hdouble : data.max_double_indirect_range = 0) (size : Nat) :
    data.GrowStream volume size s =
      ((BFS.GrowStream volume.toAllocator data.todata_stream size s).1, { data with
          todata_stream := (BFS.GrowStream volume.toAllocator data.todata_stream size s).2.1 },
        (BFS.GrowStream volume.toAllocator data.todata_stream size s).2.2) := by
  unfold file_stream.GrowStream BFS.GrowStream
  by_cases hlarge : size < data.max_direct_range ∨ size < data.max_indirect_range
  · rw [if_pos (by omega), if_pos hlarge]
  · have hblocks : volume.missingBlocks data.todata_stream size =
        (missingBytes data.todata_stream size + volume.BlockSize - 1) / volume.BlockSize := rfl
    rw [if_neg (by omega), if_neg hlarge, if_neg (show ¬data.size < _ by omega)]
    simp only [hblocks]
    generalize (missingBytes data.todata_stream size + volume.BlockSize - 1) / volume.BlockSize = n
    by_cases hfull : (n : Int) > volume.FreeBlocks s
    · simp only [hfull, if_true]
    · simp only [hfull, if_false]

/-- Growing a stream with a double indirect range succeeds only within this range. -/
theorem file_stream.GrowStream_double {ds is runs : List block_run}
    (h : data.WellFormed volume ds is runs) (hsize : data.size ≤ data.max_double_indirect_range)
    (hroom : data.max_indirect_range < data.size ∨ arrayWithRoom data.arrays = none)
    {size : Nat} {data' : file_stream} {s' : σ}
    (hok : data.GrowStream volume size s = (.B_OK, data', s')) :
    data' = { data with size := size } ∧ size ≤ data.max_double_indirect_range := by
  have hb := volume.BlockSize_pos
  have hdirect := h.valid.range_eq h.indirect_ne
  have hindirect := (h.valid.has_indirect h.indirect_ne).2.2.1
  have hrange := h.double.range
  unfold file_stream.GrowStream at hok
  by_cases hlarge : size < data.max_direct_range ∨ size < data.max_indirect_range ∨
      size < data.max_double_indirect_range
  · rw [if_pos hlarge, Prod.mk.injEq, Prod.mk.injEq] at hok
    exact ⟨hok.2.1.symm, by omega⟩
  rw [if_neg hlarge] at hok
  have hbytes : (if data.size < data.max_double_indirect_range then
      size - data.max_double_indirect_range else missingBytes data.todata_stream size) =
        size - data.max_double_indirect_range := by
    split
    · rfl
    · rw [missingBytes, if_neg (by omega), if_neg (by omega)]
      omega
  simp only [hbytes] at hok
  generalize hblocks : (size - data.max_double_indirect_range + volume.BlockSize - 1) /
    volume.BlockSize = n at hok
  split at hok
  · cases hok
  cases n with
  | zero =>
    -- nothing is missing
    rw [Nat.div_eq_zero_iff_lt hb] at hblocks
    simp only [growLoop, Prod.mk.injEq, true_and] at hok
    exact ⟨hok.1.symm, by omega⟩
  | succ n =>
    rw [growLoop, if_pos (by omega)] at hok
    cases halloc : volume.Allocate s data.todata_stream
        (volume.wantedBlocks (n + 1) s) 1 with
    | none =>
      rw [halloc] at hok
      cases hok
    | some r =>
      obtain ⟨run, s₁⟩ := r
      have hfull := h.valid.findFree_direct
      rw [(h.valid.has_indirect h.indirect_ne).2.1] at hfull
      have hefbig : ∀ blocksNeeded, distribute volume.toAllocator size blocksNeeded run
          data.todata_stream s₁ = (.EFBIG, data.todata_stream, s₁) := by
        intro blocksNeeded
        rw [distribute, if_neg (by omega)]
        by_cases hind : data.size ≤ data.max_indirect_range ∨ data.max_indirect_range = 0
        · have hdirect_pos := h.valid.direct_pos hb h.indirect_ne
          have hnone := hroom.resolve_left (by omega)
          rw [if_pos hind, if_neg (by simp [h.valid.indirect_not_zero h.indirect_ne]),
            insertIndirect_none run hnone]
        · rw [if_neg hind]
      rw [halloc] at hok
      simp only [hefbig] at hok
      cases hok

/-- A stream that has grown is intact, and its blocks are in front of the new ones. -/
theorem file_stream.Intact.grow (hcorrect : volume.Correct used)
    (h : data.Intact volume used s blocks) {size : Nat} (hgrow : data.size < size)
    (hfits : data.max_double_indirect_range = 0 →
      StreamFits volume.toAllocator data.todata_stream size s) {data' : file_stream} {s' : σ}
    (hok : data.GrowStream volume size s = (.B_OK, data', s')) :
    data'.size = size ∧ ∃ blocks', data'.Intact volume used s' blocks' ∧ blocks <+: blocks' := by
  cases h with
  | @simple ds is others no_double valid hsize owns =>
    rw [GrowStream_eq no_double] at hok
    obtain ⟨ds', is', bytes, others', -, hgrown, hdone⟩ := GrowStream_lost hcorrect.toCorrect
      valid hsize (hfits no_double) owns
    have hblocks := fun data' s' => @GrowStream_blocks _ _ _ _ hcorrect.toCorrect _ data' _ _ valid
      hsize _ _ s' (hfits no_double) owns
    generalize BFS.GrowStream volume.toAllocator data.todata_stream size s = r at *
    obtain ⟨status, grown, s₁⟩ := r
    rw [Prod.mk.injEq, Prod.mk.injEq] at hok
    obtain ⟨rfl, rfl, rfl⟩ := hok
    obtain ⟨hsize', hle⟩ := hdone rfl
    have hprefix := hblocks _ _ rfl
    rw [valid.streamBlocks_eq, hgrown.valid.streamBlocks_eq] at hprefix
    refine ⟨hsize', _, .simple no_double hgrown.valid ?_ hgrown.owns, hprefix⟩
    simp only at hsize' ⊢
    rw [hsize']
    exact hle
  | @double ds is runs wellFormed fits hsize room =>
    obtain ⟨rfl, hle⟩ := GrowStream_double wellFormed hsize room hok
    have hvalid := wellFormed.valid
    have hdouble := wellFormed.double
    refine ⟨rfl, _, .double ⟨⟨hvalid.direct_ok, hvalid.indirect_ok, hvalid.direct_le,
      hvalid.direct_eq, hvalid.direct_range, hvalid.no_indirect, hvalid.has_indirect⟩,
      wellFormed.indirect_ne, ⟨hdouble.length_four, hdouble.range, hdouble.length_lt,
      hdouble.length_le, hdouble.tables⟩, wellFormed.on_volume, wellFormed.once⟩ fits hle
      (room.imp_left fun hlt => ?_), List.prefix_rfl⟩
    simp only
    omega

/-! ## WriteAt, then ReadAt -/

theorem fileBytes_prefix {blocks' : List (Int × Nat)} (h : blocks <+: blocks') (disk : Blocks)
    {p : Nat} (hp : p < blocks.length * volume.BlockSize) :
    fileBytes volume blocks' disk p = fileBytes volume blocks disk p := by
  obtain ⟨back, rfl⟩ := h
  have hlt : p / volume.BlockSize < blocks.length := by
    rw [Nat.div_lt_iff_lt_mul volume.BlockSize_pos]
    exact hp
  rw [fileBytes, fileBytes, List.getElem?_append_left hlt]

/-- `WriteAt()` copies the buffer to the bytes of the file, in front of new blocks if it grows. -/
theorem WriteAt_spec (hcorrect : volume.Correct used) (h : data.Intact volume used s blocks)
    (disk : Blocks) {pos : Nat} (buffer : Buffer) {length : Nat} (hlength : 0 < length)
    (hfits : data.max_double_indirect_range = 0 → data.size < pos + length →
      StreamFits volume.toAllocator data.todata_stream (pos + length) s)
    {written : Nat} {data' : file_stream} {disk' : Blocks} {s' : σ}
    (hwrite : WriteAt volume disk data s pos buffer length =
      some (.ok (written, data', disk', s'))) :
    data'.size = max data.size (pos + length) ∧ written = length ∧
      ∃ blocks', data'.Intact volume used s' blocks' ∧ blocks <+: blocks' ∧
        fileBytes volume blocks' disk' =
          memcpy (fileBytes volume blocks' disk) pos buffer 0 length := by
  -- the stream that is written to
  have hgrown : ∃ data₁ s₁ blocks', (if (pos : Int) ≥ 0 ∧ (pos : Int) + length > data.size then
        data.GrowStream volume ((pos : Int).toNat + length) s else (.B_OK, data, s)) =
          (.B_OK, data₁, s₁) ∧ data₁.size = max data.size (pos + length) ∧
        data₁.Intact volume used s₁ blocks' ∧ blocks <+: blocks' := by
    by_cases hgrow : data.size < pos + length
    · rw [WriteAt, if_pos (by omega), Int.toNat_natCast] at hwrite
      rw [if_pos (by omega), Int.toNat_natCast]
      rcases hg : data.GrowStream volume (pos + length) s with ⟨status, data₁, s₁⟩
      rw [hg] at hwrite
      by_cases hstatus : status = .B_OK
      · subst hstatus
        obtain ⟨hsize, blocks', hintact, hprefix⟩ :=
          h.grow hcorrect hgrow (fun hdouble => hfits hdouble hgrow) hg
        exact ⟨data₁, s₁, blocks', rfl, by omega, hintact, hprefix⟩
      · cases status <;> first
          | exact absurd rfl hstatus
          | cases hwrite
    · rw [if_neg (by omega)]
      exact ⟨data, s, blocks, rfl, by omega, h, List.prefix_rfl⟩
  obtain ⟨data₁, s₁, blocks', heq, hsize, hintact, hprefix⟩ := hgrown
  obtain ⟨hmaps, hroom⟩ := hintact.maps hcorrect
  obtain ⟨disk₁, htransfer, hdone⟩ := @transferAt_spec _ _ _ _ _ _ _ _ hmaps
    (writer_correct hmaps buffer pos disk) length disk (by omega) (by omega) (memcpy_zero _ _ _ _).symm
  rw [WriteAt, heq] at hwrite
  simp only [Int.toNat_natCast, htransfer, Option.map_some, Except.map, Option.some.injEq,
    Except.ok.injEq, Prod.mk.injEq] at hwrite
  obtain ⟨rfl, rfl, rfl, rfl⟩ := hwrite
  exact ⟨hsize, rfl, blocks', hintact, hprefix, hdone⟩

/-- **Reads see writes.** After `WriteAt()` has written to an intact stream, growing it without
losing a part of a merged run, `ReadAt()` reads the old bytes with the buffer over them, up to the
new size; and the stream is still intact. -/
theorem ReadAt_of_WriteAt (hcorrect : volume.Correct used) (h : data.Intact volume used s blocks)
    (disk : Blocks) {pos : Nat} (buffer : Buffer) {length : Nat}
    (hpos : pos ≤ data.size) (hlength : 0 < length)
    (hfits : data.max_double_indirect_range = 0 → data.size < pos + length →
      StreamFits volume.toAllocator data.todata_stream (pos + length) s)
    {data' : file_stream} {disk' : Blocks} {s' : σ}
    (hwrite : WriteAt volume disk data s pos buffer length =
      some (.ok (length, data', disk', s'))) :
    data'.size = max data.size (pos + length) ∧
      (∀ (p n : Nat) (dest : Buffer), ReadAt volume disk' data' p dest n =
        some (.ok (min n (data'.size - p),
          memcpy dest 0 (memcpy (fileBytes volume blocks disk) pos buffer 0 length) p
            (min n (data'.size - p))))) ∧
      ∃ blocks', data'.Intact volume used s' blocks' ∧ blocks <+: blocks' := by
  obtain ⟨hsize, -, blocks', hintact, hprefix, hdone⟩ :=
    WriteAt_spec hcorrect h disk buffer hlength hfits hwrite
  obtain ⟨-, hroom⟩ := h.maps hcorrect
  obtain ⟨hmaps, hroom'⟩ := hintact.maps hcorrect
  refine ⟨hsize, fun p n dest => ?_, blocks', hintact, hprefix⟩
  rw [ReadAt_spec hmaps hroom', hdone, memcpy_congr]
  intro i hi
  by_cases hin : pos ≤ p + i ∧ p + i < pos + length
  · rw [memcpy_inside hin.1 (by omega), memcpy_inside hin.1 (by omega)]
  · -- bytes that are not written are those of before
    rw [memcpy_outside (by omega), memcpy_outside (by omega)]
    exact fileBytes_prefix hprefix disk (by omega)

end

/-! ## A new file, and a file with a wrapped length -/

theorem largeFile_empty_intact : data_stream.empty.file.Intact largeVolume largeUsed [] [] := by
  obtain ⟨ds, is, hvalid, -, hzero⟩ := data_stream.empty_good largeVolume.toAllocator
  obtain ⟨rfl, rfl⟩ := hzero rfl
  refine @file_stream.Intact.simple _ largeVolume largeUsed [] data_stream.empty.file [] []
    (fun _ _ => False) rfl hvalid (Nat.zero_le _) fun group i => ?_
  have hcover : cover (ownedRuns data_stream.empty.file.todata_stream) group i = 0 :=
    (data_stream.empty_good largeVolume.toAllocator).no_blocks rfl group i
  rw [hcover, indicator_of_not fun hused => List.not_mem_nil hused.1.2,
    indicator_of_not fun hfalse => hfalse]

/-- Ten bytes are written to a new file, and twenty are asked for. -/
theorem ReadAt_of_WriteAt_large : ∃ data' disk' s',
    WriteAt largeVolume (fun _ _ => 0) data_stream.empty.file [] 0 (fun i => UInt8.ofNat (i + 1)) 10 =
      some (.ok (10, data', disk', s')) ∧ data'.size = 10 ∧
    ReadAt largeVolume disk' data' 0 (fun _ => 0) 20 = some (.ok (10,
      memcpy (fun _ => 0) 0 (memcpy (fileBytes largeVolume [] fun _ _ => 0) 0
        (fun i => UInt8.ofNat (i + 1)) 0 10) 0 10)) := by
  refine ⟨_, _, _, rfl, rfl, ?_⟩
  refine (ReadAt_of_WriteAt largeVolume_correct largeFile_empty_intact (fun _ _ => 0)
    (fun i => UInt8.ofNat (i + 1)) (Nat.zero_le _) (by decide) ?_
    (show WriteAt largeVolume (fun _ _ => 0) data_stream.empty.file [] ((0 : Nat) : Int) _ 10 =
      some (.ok (10, _, _, _)) from rfl)).2.1 0 20 _
  intro _ _ _ _ _ run s' halloc
  obtain ⟨-, rfl, rfl⟩ := fragmented_allocate (largeVolume_allocate halloc)
  refine ⟨⟨by decide, ?_⟩, fun _ _ _ => trivial⟩
  rw [if_pos (by decide)]
  exact fun hlast => absurd hlast.1 (by decide)

/-- Three runs, of which the second follows the first one. -/
def scriptRuns : List block_run := [⟨1, 0, 65535⟩, ⟨1, 65535, 1⟩, ⟨2, 0, 1⟩]

/-- A volume with blocks of 1024 bytes that hands out these runs. Its state are the number of the
runs that were handed out, and the freed runs. -/
def scriptVolume : BlockVolume (Nat × List block_run) where
  BlockShift := 10
  FreeBlocks s := 65537 - s.1
  Allocate s _ numBlocks minimum :=
    match scriptRuns[s.1]? with
    | some run =>
      if s.2 = [] ∧ minimum ≤ run.length ∧ run.length ≤ numBlocks then some (run, s.1 + 1, [])
      else none
    | none => none
  Free s run := (s.1, run :: s.2)
  AllocationGroupShift := 16
  AllocationGroups := 8
  runsAt _ := none

/-- A new file gets 65537 blocks; the length of the first run is wrapped to 0. Writing a byte at the
start succeeds, but the last byte cannot be read. -/
theorem ReadAt_wrapped_length : ∃ data s,
    SetFileSize scriptVolume.toAllocator data_stream.empty (65537 * 1024) (0, []) =
      (.B_OK, data, s) ∧
    data.direct.head? = some ⟨1, 0, 0⟩ ∧ ∃ data' disk' s',
      WriteAt scriptVolume (fun _ _ => 0) data.file s 0 (fun _ => 1) 1 =
        some (.ok (1, data', disk', s')) ∧ data'.size = 65537 * 1024 ∧
      ReadAt scriptVolume disk' data' (65537 * 1024 - 1) (fun _ => 0) 1 =
        some (.error .B_BAD_VALUE) :=
  ⟨_, _, rfl, rfl, _, _, _, rfl, rfl, rfl⟩

end BFS
