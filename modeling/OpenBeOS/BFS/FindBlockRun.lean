import OpenBeOS.BFS.StreamMap

/-! # The block map of a stream (`Inode::FindBlockRun()`)

The runs of a file are in three ranges: those of the direct array, those in the blocks of
`indirect`, and those that are found by way of `double_indirect`. The runs of the last range all
have four blocks, so that their place can be computed.
-/

namespace BFS

open List

/-- The volume: its allocator, its groups, and its blocks seen as arrays of runs, as
`CachedBlock::SetTo()` gets them. -/
structure BlockVolume (σ : Type) extends Allocator σ where
  AllocationGroupShift : Nat
  AllocationGroups : Nat
  runsAt : Int → Option (List block_run)

/-- `data_stream`, with its double indirect range. -/
structure file_stream extends data_stream where
  double_indirect : block_run
  max_double_indirect_range : Nat
  deriving DecidableEq

variable {σ : Type}

/-- `Volume::ToBlock()`. -/
def BlockVolume.ToBlock (volume : BlockVolume σ) (run : block_run) : Int :=
  Int.lor (run.allocation_group * 2 ^ volume.AllocationGroupShift) run.start

/-- `Volume::IsValidBlockRun()`. -/
def BlockVolume.IsValidBlockRun (volume : BlockVolume σ) (run : block_run) : Status :=
  if run.allocation_group < 0 ∨ run.allocation_group > volume.AllocationGroups ∨
      run.start > 2 ^ volume.AllocationGroupShift ∨ run.length = 0 ∨
      run.length + run.start > 2 ^ volume.AllocationGroupShift then .B_BAD_DATA
  else .B_OK

/-! ## FindBlockRun -/

/-- The loop over an array of runs: the run with `pos` in it and its offset, or the offset behind
the last run. -/
def findRun (BlockShift pos : Nat) : List block_run → Nat → Except Nat (block_run × Nat)
  | [], runBlockEnd => .error runBlockEnd
  | run :: array, runBlockEnd =>
    if run.IsZero then .error runBlockEnd
    else
      let runBlockEnd := runBlockEnd + run.length <<< BlockShift
      if runBlockEnd > pos then .ok (run, runBlockEnd - run.length <<< BlockShift)
      else findRun BlockShift pos array runBlockEnd

/-- The loop over the indirect blocks. -/
def findIndirect (BlockShift pos : Nat) :
    List (List block_run) → Nat → Except Status (block_run × Nat)
  | [], _ => .error .B_ERROR
  | array :: arrays, runBlockEnd =>
    match findRun BlockShift pos array runBlockEnd with
    | .ok r => .ok r
    | .error runBlockEnd => findIndirect BlockShift pos arrays runBlockEnd

section

variable (volume : BlockVolume σ)

/-- The bytes behind an entry of `double_indirect`: four blocks of runs with four blocks. -/
def BlockVolume.indirectSize : Nat :=
  (16 <<< volume.BlockShift) * volume.numberOfRuns

/-- The bytes of a run in the double indirect range. -/
def BlockVolume.directSize : Nat := 4 <<< volume.BlockShift

/-- The access to the double indirect blocks. `index`, `index * indirectSize` and
`current * directSize` are `int32`. -/
def findDouble (data : file_stream) (pos : Nat) :
    Except Status (block_run × Int) :=
  let start := pos - data.max_indirect_range
  let runsPerBlock := volume.numberOfRuns
  let index := wrapInt32 (start / volume.indirectSize : Nat)
  match volume.runsAt (volume.ToBlock data.double_indirect + index.tdiv runsPerBlock) with
  | none => .error .B_ERROR
  | some indirect =>
    let current := start % volume.indirectSize / volume.directSize
    let array := indirect.getD (index.tmod runsPerBlock).toNat block_run.zero
    match volume.runsAt (volume.ToBlock array + (current / runsPerBlock : Nat)) with
    | none => .error .B_ERROR
    | some indirect =>
      .ok (indirect.getD (current % runsPerBlock) block_run.zero,
        data.max_indirect_range + wrapInt32 (index * volume.indirectSize) +
          wrapInt32 (current * volume.directSize : Nat))

/-- Find the matching block run in one of the three ranges. -/
def findInRange (data : file_stream) (pos : Nat) :
    Except Status (block_run × Int) :=
  if data.max_direct_range > 0 ∧ pos ≥ data.max_direct_range then
    if data.max_double_indirect_range > 0 ∧ pos ≥ data.max_indirect_range then
      findDouble volume data pos
    else
      match findIndirect volume.BlockShift pos data.arrays data.max_direct_range with
      | .ok (run, offset) => .ok (run, offset)
      | .error status => .error status
  else
    match findRun volume.BlockShift pos data.direct 0 with
    | .ok (run, offset) => .ok (run, offset)
    | .error _ => .error .B_ENTRY_NOT_FOUND

/-- `Inode::FindBlockRun()`: the run and its offset in the file. -/
def FindBlockRun (data : file_stream) (pos : Nat) :
    Except Status (block_run × Int) :=
  match findInRange volume data pos with
  | .error status => .error status
  | .ok (run, offset) =>
    match volume.IsValidBlockRun run with
    | .B_OK => .ok (run, offset)
    | status => .error status

end

/-! ## The run at a position -/

/-- The run and the offset are those of the byte at `pos` in the concatenation of the runs. -/
def RunAt (blockSize : Nat) (runs : List block_run) (pos : Nat) (run : block_run)
    (offset : Nat) : Prop :=
  ∃ before after, runs = before ++ run :: after ∧ offset = blocksOf before * blockSize ∧
    offset ≤ pos ∧ pos < offset + run.length * blockSize

/-- **The block map.** The run holds the block of the file with `pos` in it. -/
def Finds (volume : BlockVolume σ) (data : file_stream) (runs : List block_run) (pos : Nat) : Prop :=
  ∃ run offset, FindBlockRun volume data pos = .ok (run, offset) ∧
    (volume.BlockSize : Int) ∣ offset ∧ offset ≤ pos ∧
    (pos : Int) < offset + run.length * volume.BlockSize ∧
    (blockList runs)[pos / volume.BlockSize]? =
      some (run.allocation_group, run.start + ((pos - offset) / volume.BlockSize).toNat)

section

variable {blockSize : Nat} {runs : List block_run} {pos : Nat} {run : block_run} {offset : Nat}

theorem RunAt.append_left (front : List block_run) (h : RunAt blockSize runs pos run offset) :
    RunAt blockSize (front ++ runs) (blocksOf front * blockSize + pos) run
      (blocksOf front * blockSize + offset) := by
  obtain ⟨before, after, rfl, rfl, hle, hlt⟩ := h
  refine ⟨front ++ before, after, (append_assoc ..).symm, ?_, by omega, by omega⟩
  rw [blocksOf_append, Nat.add_mul]

theorem RunAt.append_right (back : List block_run) (h : RunAt blockSize runs pos run offset) :
    RunAt blockSize (runs ++ back) pos run offset := by
  obtain ⟨before, after, rfl, hoffset, hle, hlt⟩ := h
  exact ⟨before, after ++ back, by rw [append_assoc, cons_append], hoffset, hle, hlt⟩

theorem RunAt.getElem? (hb : 0 < blockSize) (h : RunAt blockSize runs pos run offset) :
    (blockList runs)[pos / blockSize]? =
      some (run.allocation_group, run.start + (pos - offset) / blockSize) := by
  obtain ⟨before, after, rfl, rfl, hle, hlt⟩ := h
  obtain ⟨rest, rfl⟩ := Nat.exists_eq_add_of_le hle
  have hrest : rest / blockSize < run.length := by
    rw [Nat.div_lt_iff_lt_mul hb]
    omega
  have hdiv : (blocksOf before * blockSize + rest) / blockSize =
      blocksOf before + rest / blockSize := by
    rw [Nat.mul_comm, Nat.mul_add_div hb]
  have hbefore : (blockList before).length ≤ blocksOf before + rest / blockSize := by
    rw [length_blockList]
    exact Nat.le_add_right _ _
  rw [hdiv, Nat.add_sub_cancel_left, blockList_append, blockList_cons,
    List.getElem?_append_right hbefore, length_blockList, Nat.add_sub_cancel_left,
    List.getElem?_append_left (by rw [length_runBlocks]; exact hrest)]
  exact getElem?_runBlocks hrest

end

theorem RunAt.finds {volume : BlockVolume σ} {data : file_stream} {runs : List block_run} {pos : Nat}
    {run : block_run} {offset : Nat} (hb : 0 < volume.BlockSize)
    (h : RunAt volume.BlockSize runs pos run offset)
    (hfound : FindBlockRun volume data pos = .ok (run, offset)) : Finds volume data runs pos := by
  have hget := h.getElem? hb
  obtain ⟨before, after, -, hoffset, hle, hlt⟩ := h
  refine ⟨run, offset, hfound, ?_, by exact_mod_cast hle, by exact_mod_cast hlt, ?_⟩
  · rw [hoffset]
    push_cast
    exact Int.dvd_mul_left _ _
  · rw [hget, ← Int.ofNat_sub hle, ← Int.natCast_ediv, Int.toNat_natCast]

/-! ## The direct and the indirect range -/

section

variable (volume : BlockVolume σ)

theorem shiftLeft_BlockShift (n : Nat) :
    n <<< volume.BlockShift = n * volume.BlockSize := Nat.shiftLeft_eq _ _

theorem BlockVolume.BlockSize_pos : 0 < volume.BlockSize :=
  Nat.pow_pos (by decide)

/-- The loop over an array finds the position in its runs, or goes on behind them. -/
theorem findRun_spec {runs : List block_run}
    (hruns : ∀ run ∈ runs, run.Ok) (pos k : Nat) :
    ∀ runBlockEnd, runBlockEnd ≤ pos →
      let r := findRun volume.BlockShift pos (runs ++ List.replicate k block_run.zero) runBlockEnd
      (pos < runBlockEnd + blocksOf runs * volume.BlockSize →
        ∃ run offset, r = .ok (run, runBlockEnd + offset) ∧
          RunAt volume.BlockSize runs (pos - runBlockEnd) run offset) ∧
      (runBlockEnd + blocksOf runs * volume.BlockSize ≤ pos →
        r = .error (runBlockEnd + blocksOf runs * volume.BlockSize)) := by
  induction runs with
  | nil =>
    intro runBlockEnd hle r
    have hr : r = .error runBlockEnd := by
      cases k with
      | zero => rfl
      | succ k => rfl
    rw [blocksOf_nil, Nat.zero_mul, Nat.add_zero]
    exact ⟨fun hlt => by omega, fun _ => hr⟩
  | cons run runs ih =>
    intro runBlockEnd hle r
    have hr : r = if runBlockEnd + run.length * volume.BlockSize > pos then
          .ok (run, runBlockEnd)
        else findRun volume.BlockShift pos (runs ++ List.replicate k block_run.zero)
          (runBlockEnd + run.length * volume.BlockSize) := by
      have hzero := (hruns run mem_cons_self).not_zero
      simp only [r, cons_append, findRun, hzero, shiftLeft_BlockShift, Bool.false_eq_true,
        if_false, Nat.add_sub_cancel]
    rw [hr, blocksOf_cons, Nat.add_mul]
    by_cases hin : runBlockEnd + run.length * volume.BlockSize > pos
    · rw [if_pos hin]
      refine ⟨fun _ => ⟨run, 0, rfl, [], runs, rfl, ?_, Nat.zero_le _, by omega⟩,
        fun hend => by omega⟩
      rw [blocksOf_nil, Nat.zero_mul]
    · rw [if_neg hin]
      obtain ⟨hfound, hend⟩ := ih (fun r hr => hruns r (mem_cons_of_mem _ hr))
        (runBlockEnd + run.length * volume.BlockSize) (by omega)
      refine ⟨fun hlt => ?_, fun hle' => ?_⟩
      · obtain ⟨run', offset, heq, hat⟩ := hfound (by omega)
        have hat' := hat.append_left [run]
        rw [blocksOf_cons, blocksOf_nil, Nat.add_zero] at hat'
        refine ⟨run', run.length * volume.BlockSize + offset, ?_, ?_⟩
        · rw [heq, Nat.add_assoc]
        · have hpos : run.length * volume.BlockSize +
              (pos - (runBlockEnd + run.length * volume.BlockSize)) = pos - runBlockEnd := by
            omega
          rw [hpos] at hat'
          exact hat'
      · rw [hend (by omega), Nat.add_assoc]

/-- The loop over the indirect blocks. Once an array has unused entries, the next ones have no
used ones, so it does not matter that the loop goes on. -/
theorem findIndirect_spec {arrays : List (List block_run)} (pos : Nat) :
    ∀ (runs : List block_run) (runBlockEnd : Nat), (∀ run ∈ runs, run.Ok) → Holds arrays runs →
      runBlockEnd ≤ pos → pos < runBlockEnd + blocksOf runs * volume.BlockSize →
      ∃ run offset, findIndirect volume.BlockShift pos arrays runBlockEnd =
          .ok (run, runBlockEnd + offset) ∧
        RunAt volume.BlockSize runs (pos - runBlockEnd) run offset := by
  induction arrays with
  | nil =>
    intro runs runBlockEnd hruns h hle hlt
    obtain ⟨k, hk⟩ := h
    rw [flatten_nil] at hk
    rw [(append_eq_nil_iff.1 hk.symm).1, blocksOf_nil, Nat.zero_mul] at hlt
    omega
  | cons array arrays ih =>
    intro runs runBlockEnd hruns h hle hlt
    rcases h.cons with ⟨rest, rfl, hrest⟩ | ⟨k, rfl, -⟩
    · have harray := findRun_spec volume
        (fun r hr => hruns r (mem_append_left _ hr)) pos 0 runBlockEnd hle
      simp only [replicate_zero, append_nil] at harray
      rw [blocksOf_append, Nat.add_mul] at hlt
      by_cases hin : pos < runBlockEnd + blocksOf array * volume.BlockSize
      · obtain ⟨run, offset, heq, hat⟩ := harray.1 hin
        refine ⟨run, offset, ?_, hat.append_right rest⟩
        rw [findIndirect, heq]
      · obtain ⟨run, offset, heq, hat⟩ := ih rest
          (runBlockEnd + blocksOf array * volume.BlockSize)
          (fun r hr => hruns r (mem_append_right _ hr)) hrest (by omega) (by omega)
        have hat' := hat.append_left array
        have hpos : blocksOf array * volume.BlockSize +
            (pos - (runBlockEnd + blocksOf array * volume.BlockSize)) = pos - runBlockEnd := by
          omega
        rw [hpos] at hat'
        refine ⟨run, blocksOf array * volume.BlockSize + offset, ?_, hat'⟩
        rw [findIndirect, harray.2 (by omega)]
        simp only
        rw [heq, Nat.add_assoc]
    · obtain ⟨run, offset, heq, hat⟩ := (findRun_spec volume hruns pos (k + 1) runBlockEnd hle).1 hlt
      refine ⟨run, offset, ?_, hat⟩
      rw [findIndirect, heq]

end

theorem FindBlockRun_eq {volume : BlockVolume σ} {data : file_stream} {pos : Nat}
    {run : block_run} {offset : Int} (hfound : findInRange volume data pos = .ok (run, offset))
    (hvalid : volume.IsValidBlockRun run = .B_OK) :
    FindBlockRun volume data pos = .ok (run, offset) := by
  simp only [FindBlockRun, hfound, hvalid]

theorem RunAt.mem {blockSize : Nat} {runs : List block_run} {pos : Nat} {run : block_run}
    {offset : Nat} (h : RunAt blockSize runs pos run offset) : run ∈ runs := by
  obtain ⟨before, after, rfl, -⟩ := h
  exact mem_append_right _ mem_cons_self

theorem data_stream.Valid.direct_pos {volume : Allocator σ} {data : data_stream}
    {ds is : List block_run} (h : data.Valid volume ds is) (hb : 0 < volume.BlockSize)
    (his : is ≠ []) : data.max_direct_range > 0 := by
  rw [h.direct_range]
  refine Nat.mul_pos (blocksOf_pos h.direct_ok fun hnil => ?_) hb
  have hlength := (h.has_indirect his).2.1
  rw [hnil] at hlength
  cases hlength

/-- A position before the double indirect range. -/
theorem findInRange_before {volume : BlockVolume σ} {data : file_stream} {ds is : List block_run}
    (h : data.todata_stream.Valid volume.toAllocator ds is) {pos : Nat}
    (hpos : pos < max data.max_direct_range data.max_indirect_range)
    (hdouble : data.max_double_indirect_range > 0 → pos < data.max_indirect_range) :
    ∃ run, ∃ offset : Nat, findInRange volume data pos = .ok (run, (offset : Int)) ∧
      RunAt volume.BlockSize (ds ++ is) pos run offset := by
  have hrange := h.direct_range
  by_cases hdirect : pos < data.max_direct_range
  · obtain ⟨run, offset, heq, hat⟩ := (findRun_spec volume h.direct_ok pos
      (NUM_DIRECT_BLOCKS - ds.length) 0 (Nat.zero_le _)).1 (by omega)
    rw [Nat.zero_add] at heq
    refine ⟨run, offset, ?_, hat.append_right is⟩
    rw [findInRange, if_neg (by omega), h.direct_eq]
    simp only [heq]
  · have his : is ≠ [] := by
      rintro rfl
      have := (h.no_indirect rfl).2
      omega
    obtain ⟨-, -, hindirect, hholds⟩ := h.has_indirect his
    have hds := h.direct_pos volume.BlockSize_pos his
    obtain ⟨run, offset, heq, hat⟩ := findIndirect_spec volume pos is data.max_direct_range
      h.indirect_ok hholds (by omega) (by omega)
    have hat' := hat.append_left ds
    have hpos' : blocksOf ds * volume.BlockSize + (pos - data.max_direct_range) = pos := by
      omega
    rw [hpos', ← hrange] at hat'
    refine ⟨run, data.max_direct_range + offset, ?_, hat'⟩
    rw [findInRange, if_pos (by omega), if_neg (by omega)]
    simp only [heq, Nat.cast_add]

/-! ## The double indirect range -/

/-- The runs behind an entry of `double_indirect`: those in four blocks. -/
def BlockVolume.runsPerEntry (volume : BlockVolume σ) : Nat := 4 * volume.numberOfRuns

/-- A well-formed double indirect range: its runs have four blocks each, and are found in the blocks
of the runs which are found in the blocks of `double_indirect`. -/
structure file_stream.DoubleRange (volume : BlockVolume σ) (data : file_stream)
    (runs : List block_run) : Prop where
  length_four : ∀ run ∈ runs, run.length = 4
  range : data.max_double_indirect_range =
    data.max_indirect_range + blocksOf runs * volume.BlockSize
  length_lt : data.double_indirect.length < 65536
  length_le : runs.length ≤ data.double_indirect.length * volume.numberOfRuns * volume.runsPerEntry
  tables : ∀ k run, runs[k]? = some run → ∃ entries array entries',
    volume.runsAt (volume.ToBlock data.double_indirect +
      (k / volume.runsPerEntry / volume.numberOfRuns : Nat)) = some entries ∧
    entries[k / volume.runsPerEntry % volume.numberOfRuns]? = some array ∧ array.length = 4 ∧
    volume.runsAt (volume.ToBlock array +
      (k % volume.runsPerEntry / volume.numberOfRuns : Nat)) = some entries' ∧
    entries'[k % volume.runsPerEntry % volume.numberOfRuns]? = some run

theorem blocksOf_four {runs : List block_run} (h : ∀ run ∈ runs, run.length = 4) :
    blocksOf runs = 4 * runs.length := by
  induction runs with
  | nil => rfl
  | cons run runs ih =>
    rw [blocksOf_cons, h run mem_cons_self, ih fun r hr => h r (mem_cons_of_mem _ hr), length_cons]
    omega

theorem div_mul_add_mod_div_mul (start d e : Nat) :
    start / (d * e) * (d * e) + start % (d * e) / d * d = start / d * d := by
  have hdiv := Nat.div_add_mod (start / d) e
  calc start / (d * e) * (d * e) + start % (d * e) / d * d
      = start / d / e * (d * e) + start / d % e * d := by
        rw [Nat.div_div_eq_div_mul, Nat.mod_mul_right_div_self]
    _ = (e * (start / d / e) + start / d % e) * d := by ring
    _ = start / d * d := by rw [hdiv]

theorem indirectSize_eq {volume : BlockVolume σ} (hlow : 10 ≤ volume.BlockShift)
    (hhigh : volume.BlockShift ≤ 13) :
    volume.directSize = 4 * volume.BlockSize ∧
      volume.indirectSize = volume.directSize * volume.runsPerEntry ∧
      0 < volume.numberOfRuns ∧ volume.numberOfRuns ≤ 1024 ∧ volume.indirectSize ≤ 2 ^ 27 ∧
      volume.BlockSize ≤ 8192 := by
  simp only [BlockVolume.directSize, BlockVolume.indirectSize, BlockVolume.runsPerEntry,
    Allocator.numberOfRuns, Allocator.BlockSize, Nat.shiftLeft_eq]
  obtain h | h | h | h : volume.BlockShift = 10 ∨ volume.BlockShift = 11 ∨
    volume.BlockShift = 12 ∨ volume.BlockShift = 13 := by omega
  all_goals
    rw [h]
    decide

section

variable {volume : BlockVolume σ} {data : file_stream} {ds is runs : List block_run}

/-- The run that is found in the double indirect range, and the offset the code computes. -/
theorem findDouble_spec (hlow : 10 ≤ volume.BlockShift) (hhigh : volume.BlockShift ≤ 13)
    (h : data.DoubleRange volume runs) {pos : Nat} (hmin : data.max_indirect_range ≤ pos)
    (hmax : pos < data.max_double_indirect_range) :
    ∃ run, runs[(pos - data.max_indirect_range) / volume.directSize]? = some run ∧
      findDouble volume data pos = .ok (run, data.max_indirect_range +
        wrapInt32 ((pos - data.max_indirect_range) / volume.indirectSize * volume.indirectSize : Nat)
        + ((pos - data.max_indirect_range) % volume.indirectSize / volume.directSize *
          volume.directSize : Nat)) := by
  obtain ⟨hdirect, hindirect, hpos, hle, hsize, hblock⟩ := indirectSize_eq hlow hhigh
  have hb := volume.BlockSize_pos
  have hrange := h.range
  rw [blocksOf_four h.length_four, Nat.mul_comm 4, Nat.mul_assoc, ← hdirect] at hrange
  generalize hstart : pos - data.max_indirect_range = start
  have hk : start / volume.directSize < runs.length := by
    rw [Nat.div_lt_iff_lt_mul (by omega)]
    omega
  obtain ⟨run, hrun⟩ : ∃ run, runs[start / volume.directSize]? = some run :=
    ⟨_, List.getElem?_eq_getElem hk⟩
  obtain ⟨entries, array, entries', hentries, harray, -, hentries', hentry⟩ := h.tables _ _ hrun
  -- the two indices of the run
  have hindex : start / volume.directSize / volume.runsPerEntry = start / volume.indirectSize := by
    rw [Nat.div_div_eq_div_mul, hindirect]
  have hcurrent : start / volume.directSize % volume.runsPerEntry =
      start % volume.indirectSize / volume.directSize := by
    rw [hindirect, Nat.mod_mul_right_div_self]
  rw [hindex] at hentries harray
  rw [hcurrent] at hentries' hentry
  have hentry_pos : 0 < volume.runsPerEntry := Nat.mul_pos (by decide) hpos
  have hindex_lt : start / volume.indirectSize < 2 ^ 31 := by
    have hlt : start / volume.indirectSize < data.double_indirect.length * volume.numberOfRuns := by
      rw [← hindex, Nat.div_lt_iff_lt_mul hentry_pos]
      exact Nat.lt_of_lt_of_le hk h.length_le
    have hmul := Nat.mul_le_mul (Nat.le_of_lt h.length_lt) hle
    omega
  have hcurrent_le : start % volume.indirectSize / volume.directSize * volume.directSize <
      2 ^ 31 := by
    have hmod := Nat.mod_lt start (show 0 < volume.indirectSize by
      rw [hindirect]
      exact Nat.mul_pos (by omega) hentry_pos)
    have := Nat.div_mul_le_self (start % volume.indirectSize) volume.directSize
    omega
  refine ⟨run, hrun, ?_⟩
  simp only [findDouble, hstart]
  generalize start / volume.indirectSize = index at *
  generalize start % volume.indirectSize / volume.directSize = current at *
  have hwrap : wrapInt32 (index : Int) = index := wrapInt32_of_lt (by omega) (by omega)
  have hwrap' : wrapInt32 ((current * volume.directSize : Nat) : Int) =
      (current * volume.directSize : Nat) :=
    wrapInt32_of_lt (by omega) (by omega)
  rw [Nat.cast_mul] at hwrap'
  simp only [hwrap, hwrap', ← Int.ofNat_tdiv, ← Int.ofNat_tmod, hentries,
    Int.toNat_natCast, getD_eq_getElem?_getD, harray, Option.getD_some, hentries', hentry,
    Nat.cast_mul]

/-- A stream with a well-formed double indirect range: `ds`, `is` and `runs` are the runs of the
three ranges. They are valid, and have no block in common. -/
structure file_stream.WellFormed (volume : BlockVolume σ) (data : file_stream)
    (ds is runs : List block_run) : Prop where
  valid : data.todata_stream.Valid volume.toAllocator ds is
  indirect_ne : is ≠ []
  double : data.DoubleRange volume runs
  on_volume : ∀ run ∈ ds ++ is ++ runs, volume.IsValidBlockRun run = .B_OK
  once : (blockList (ds ++ is ++ runs)).Nodup

/-- The product of `int32` by which the code finds the offset of an entry of `double_indirect`. -/
def entryOffset (volume : BlockVolume σ) (data : file_stream) (pos : Nat) : Nat :=
  (pos - data.max_indirect_range) / volume.indirectSize * volume.indirectSize

/-- The run that is found in the double indirect range, and how far its offset is wrong. -/
theorem FindBlockRun_double (hlow : 10 ≤ volume.BlockShift) (hhigh : volume.BlockShift ≤ 13)
    (h : data.WellFormed volume ds is runs) {pos : Nat} (hmin : data.max_indirect_range ≤ pos)
    (hmax : pos < data.max_double_indirect_range) :
    ∃ run, ∃ offset : Nat, RunAt volume.BlockSize (ds ++ is ++ runs) pos run offset ∧
      run.length = 4 ∧ FindBlockRun volume data pos =
        .ok (run, offset + (wrapInt32 (entryOffset volume data pos) - entryOffset volume data pos)) := by
  obtain ⟨hdirect, hindirect, hnumber, -, hsize, hblock⟩ := indirectSize_eq hlow hhigh
  have hb := volume.BlockSize_pos
  obtain ⟨run, hrun, hfound⟩ := findDouble_spec hlow hhigh h.double hmin hmax
  have hmem := mem_of_getElem? hrun
  have hinRange : findInRange volume data pos = findDouble volume data pos := by
    have hdirect_pos := h.valid.direct_pos hb h.indirect_ne
    have hindirect_range := (h.valid.has_indirect h.indirect_ne).2.2.1
    rw [findInRange, if_pos (by omega), if_pos (by omega)]
  rw [← hinRange] at hfound
  have hfound' := FindBlockRun_eq hfound (h.on_volume run (mem_append_right _ hmem))
  -- the two products are those of the number of the run
  have hsplit := div_mul_add_mod_div_mul (pos - data.max_indirect_range) volume.directSize
    volume.runsPerEntry
  rw [← hindirect] at hsplit
  have hle := Nat.div_mul_le_self (pos - data.max_indirect_range) volume.directSize
  have hlt := Nat.lt_div_mul_add (a := pos - data.max_indirect_range)
    (show 0 < volume.directSize by omega)
  have hfour := h.double.length_four run hmem
  obtain ⟨hk, hget⟩ := List.getElem?_eq_some_iff.1 hrun
  generalize hentry : entryOffset volume data pos = x
  rw [entryOffset] at hentry
  rw [hentry] at hsplit hfound'
  generalize (pos - data.max_indirect_range) % volume.indirectSize / volume.directSize *
    volume.directSize = y at *
  generalize (pos - data.max_indirect_range) / volume.directSize = k at *
  refine ⟨run, data.max_indirect_range + k * volume.directSize, ⟨ds ++ is ++ runs.take k,
    runs.drop (k + 1), ?_, ?_, by omega, by rw [hfour, ← hdirect]; omega⟩, hfour, ?_⟩
  · rw [append_assoc (ds ++ is), ← hget, ← drop_eq_getElem_cons hk, take_append_drop]
  · have htake : blocksOf (runs.take k) = 4 * k := by
      rw [blocksOf_four fun r hr => h.double.length_four r (mem_of_mem_take hr),
        length_take, Nat.min_eq_left (Nat.le_of_lt hk)]
    rw [blocksOf_append, htake, h.valid.range_eq h.indirect_ne, capacity, blocksOf_append, hdirect]
    ring
  · rw [hfound', Except.ok.injEq, Prod.mk.injEq]
    refine ⟨rfl, ?_⟩
    generalize wrapInt32 x = w
    rw [← hsplit]
    push_cast
    ring

/-- The products of `int32` that the code computes for `pos` fit. -/
def ProductFits (volume : BlockVolume σ) (data : file_stream) (pos : Nat) : Prop :=
  pos < data.max_indirect_range ∨ entryOffset volume data pos < 2 ^ 31

/-- **The double indirect range.** A position is found exactly if the products fit. -/
theorem finds_iff (hlow : 10 ≤ volume.BlockShift) (hhigh : volume.BlockShift ≤ 13)
    (h : data.WellFormed volume ds is runs) {pos : Nat}
    (hpos : pos < data.max_double_indirect_range) :
    Finds volume data (ds ++ is ++ runs) pos ↔ ProductFits volume data pos := by
  have hb := volume.BlockSize_pos
  by_cases hbefore : pos < data.max_indirect_range
  · -- the double indirect blocks are not used
    refine ⟨fun _ => Or.inl hbefore, fun _ => ?_⟩
    obtain ⟨run, offset, hfound, hat⟩ := @findInRange_before _ _ _ _ _ h.valid pos
      (by omega) fun _ => hbefore
    have hat' := hat.append_right runs
    exact hat'.finds hb (FindBlockRun_eq hfound (h.on_volume run hat'.mem))
  obtain ⟨run, offset, hat, hfour, hfound⟩ := FindBlockRun_double hlow hhigh h (by omega) hpos
  rw [ProductFits, or_iff_right hbefore]
  constructor
  · rintro ⟨run', offset', hfound', -, -, hend, -⟩
    by_contra hfits
    rw [hfound, Except.ok.injEq, Prod.mk.injEq] at hfound'
    obtain ⟨rfl, rfl⟩ := hfound'
    obtain ⟨-, -, -, -, hle, -⟩ := hat
    obtain ⟨-, -, -, -, -, hblock⟩ := indirectSize_eq hlow hhigh
    rw [hfour] at hend
    -- the offset that is computed is at least 4 GB too low
    simp only [wrapInt32] at hend
    omega
  · intro hfits
    rw [wrapInt32_of_lt (by omega) (by omega), Int.sub_self, Int.add_zero] at hfound
    exact hat.finds hb hfound

end

end BFS
