import OpenBeOS.BFS.FindBlockRun

/-! # The block map of the streams that can be reached

In every run of `SetFileSize()` and `Trim()` in which merged lengths fit, `FindBlockRun()` finds each
position below the ranges of a stream. For a well-formed double indirect range it finds those
whose `int32` products fit.
-/

namespace BFS

open List

/-! ## Blocks on the disk -/

section

variable {σ : Type} {volume : BlockVolume σ}

/-- The block on the disk that `FindBlockRun()` finds for a position. -/
def diskBlock (volume : BlockVolume σ) (data : file_stream) (pos : Nat) : Option (Int × Nat) :=
  match FindBlockRun volume data pos with
  | .error _ => none
  | .ok (run, offset) =>
    some (run.allocation_group, run.start + ((pos - offset) / volume.BlockSize).toNat)

theorem Finds.diskBlock {data : file_stream} {runs : List block_run} {pos : Nat}
    (h : Finds volume data runs pos) :
    BFS.diskBlock volume data pos = (blockList runs)[pos / volume.BlockSize]? ∧
      pos / volume.BlockSize < (blockList runs).length := by
  obtain ⟨run, offset, hfound, -, -, -, hget⟩ := h
  rw [BFS.diskBlock, hfound, hget]
  exact ⟨rfl, (List.getElem?_eq_some_iff.1 hget).1⟩

theorem Finds.distinct {data : file_stream} {runs : List block_run}
    (honce : (blockList runs).Nodup) {pos pos' : Nat} (h : Finds volume data runs pos)
    (h' : Finds volume data runs pos') (hne : pos / volume.BlockSize ≠ pos' / volume.BlockSize) :
    BFS.diskBlock volume data pos ≠ BFS.diskBlock volume data pos' := by
  obtain ⟨heq, hlt⟩ := h.diskBlock
  obtain ⟨heq', -⟩ := h'.diskBlock
  rw [heq, heq']
  exact fun hsame => hne ((List.getElem?_inj hlt honce).1 hsame)

/-! ## Reachable streams -/

/-- What the allocator must do, and where the blocks of the volume are. -/
structure BlockVolume.Correct (volume : BlockVolume σ) (used : σ → Int → Nat → Prop) : Prop
    extends Allocator.Correct volume.toAllocator used where
  shift_ge : 10 ≤ volume.BlockShift
  shift_le : volume.BlockShift ≤ 13
  on_volume : ∀ s group i, used s group i → 0 ≤ group ∧ group ≤ volume.AllocationGroups ∧
    i < 2 ^ volume.AllocationGroupShift

/-- A stream without a double indirect range. -/
def data_stream.file (data : data_stream) : file_stream :=
  { data with
    double_indirect := block_run.zero
    max_double_indirect_range := 0 }

/-- The runs of the direct and the indirect range. -/
def fileRuns (data : data_stream) : List block_run :=
  (data.direct ++ if data.indirect.IsZero then [] else data.arrays.flatten).filter
    fun run => !run.IsZero

theorem filter_zeros {runs : List block_run} (h : ∀ run ∈ runs, run.Ok) (k : Nat) :
    (runs ++ List.replicate k block_run.zero).filter (fun run => !run.IsZero) = runs := by
  rw [filter_append, filter_replicate_of_neg (by decide), append_nil]
  exact filter_eq_self.2 fun run hrun => by rw [(h run hrun).not_zero]; rfl

section

variable {data : data_stream} {ds is : List block_run} (h : data.Valid volume.toAllocator ds is)
include h

theorem data_stream.Valid.fileRuns_eq : fileRuns data = ds ++ is := by
  rw [fileRuns, filter_append, h.direct_eq, filter_zeros h.direct_ok]
  by_cases his : is = []
  · rw [if_pos (h.no_indirect his).1, his]
    rfl
  · obtain ⟨k, hk⟩ := (h.has_indirect his).2.2.2
    rw [h.indirect_not_zero his, if_neg nofun, hk, filter_zeros h.indirect_ok]

theorem data_stream.Valid.mem_owned {run : block_run} (hrun : run ∈ ds ++ is) :
    run ∈ ownedRuns data := by
  rw [ownedRuns, h.direct_eq]
  rcases mem_append.1 hrun with hrun | hrun
  · exact mem_append_left _ (mem_append_left _ hrun)
  · have his : is ≠ [] := ne_nil_of_mem hrun
    obtain ⟨k, hk⟩ := (h.has_indirect his).2.2.2
    rw [h.indirect_not_zero his, if_neg nofun, hk]
    exact mem_append_right _ (mem_cons_of_mem _ (mem_append_left _ hrun))

theorem data_stream.Valid.ok {run : block_run} (hrun : run ∈ ds ++ is) :
    run.Ok :=
  (mem_append.1 hrun).elim (h.direct_ok run) (h.indirect_ok run)

end

variable {used : σ → Int → Nat → Prop}

theorem BlockVolume.Correct.valid_run (hcorrect : volume.Correct used) {s : σ} {run : block_run}
    (hrun : run.Ok) (hused : ∀ group i, run.Contains group i → used s group i) :
    volume.IsValidBlockRun run = .B_OK := by
  have hpos := hrun.pos
  obtain ⟨hgroup, hgroups, hend⟩ := hcorrect.on_volume s _ _
    (hused run.allocation_group (run.start + run.length - 1) ⟨rfl, by omega, by omega⟩)
  rw [IsValidBlockRun, if_neg (by omega)]

theorem data_stream.Valid.found (hcorrect : volume.Correct used) {data : file_stream}
    {ds is : List block_run} (h : data.todata_stream.Valid volume.toAllocator ds is) {s : σ}
    (hused : ∀ run ∈ ownedRuns data.todata_stream, ∀ group i, run.Contains group i →
      used s group i) {pos : Nat}
    (hpos : pos < max data.max_direct_range data.max_indirect_range)
    (hdouble : data.max_double_indirect_range > 0 → pos < data.max_indirect_range) :
    ∃ run, ∃ offset : Nat, FindBlockRun volume data pos = .ok (run, (offset : Int)) ∧
      RunAt volume.BlockSize (ds ++ is) pos run offset ∧
      volume.IsValidBlockRun run = .B_OK := by
  obtain ⟨run, offset, hfound, hat⟩ := findInRange_before h hpos hdouble
  have hvalid := hcorrect.valid_run (h.ok hat.mem) (hused run (h.mem_owned hat.mem))
  exact ⟨run, offset, FindBlockRun_eq hfound hvalid, hat, hvalid⟩

theorem data_stream.Good.finds (hcorrect : volume.Correct used) {data : data_stream}
    (h : data.Good volume.toAllocator) {s : σ}
    (hused : ∀ run ∈ ownedRuns data, ∀ group i, run.Contains group i → used s group i) {pos : Nat}
    (hpos : pos < max data.max_direct_range data.max_indirect_range) :
    Finds volume data.file (fileRuns data) pos := by
  obtain ⟨ds, is, hv, -, -⟩ := h
  obtain ⟨run, offset, hfound, hat, -⟩ := @data_stream.Valid.found _ _ _ hcorrect data.file _ _ hv
    _ hused _ hpos fun hdouble => absurd hdouble (Nat.lt_irrefl 0)
  rw [hv.fileRuns_eq]
  exact hat.finds volume.BlockSize_pos hfound

theorem data_stream.Valid.nodup {data : data_stream} {ds is : List block_run}
    (h : data.Valid volume.toAllocator ds is)
    (honce : ∀ group i, cover (ownedRuns data) group i ≤ 1) : (blockList (ds ++ is)).Nodup := by
  refine nodup_blockList fun group i => ?_
  have hone := honce group i
  rw [h.cover_eq] at hone
  rw [cover_append]
  split at hone
  · rename_i his
    rw [his, cover_nil]
    exact hone
  · rw [cover_cons] at hone
    omega

theorem data_stream.Good.nodup {data : data_stream} (h : data.Good volume.toAllocator)
    (honce : ∀ group i, cover (ownedRuns data) group i ≤ 1) : (blockList (fileRuns data)).Nodup := by
  obtain ⟨ds, is, hv, -, -⟩ := h
  rw [hv.fileRuns_eq]
  exact hv.nodup honce

/-- **The block map.** In every run of calls in which merged lengths fit, each position below the
ranges of a stream is found, and distinct blocks of the file are distinct on the disk. With a
well-formed double indirect range, a position is found exactly if its products fit. -/
theorem FindBlockRun_maps {ι : Type} [DecidableEq ι] (hcorrect : volume.Correct used) :
    (∀ (calls : List (StreamCall ι)) (streams : ι → data_stream) (s : σ),
      (∀ k, (streams k).Good volume.toAllocator) → BlocksUsed used streams s →
      CallsFit volume.toAllocator calls streams s →
      ∀ k, let data := (applyCalls volume.toAllocator calls streams s).1 k
        ∀ pos < max data.max_direct_range data.max_indirect_range,
          Finds volume data.file (fileRuns data) pos ∧
          ∀ pos' < max data.max_direct_range data.max_indirect_range,
            pos / volume.BlockSize ≠ pos' / volume.BlockSize →
              diskBlock volume data.file pos ≠ diskBlock volume data.file pos') ∧
    ∀ (data : file_stream) (ds is runs : List block_run), data.WellFormed volume ds is runs →
      ∀ pos < data.max_double_indirect_range,
        (Finds volume data (ds ++ is ++ runs) pos ↔ ProductFits volume data pos) ∧
        ∀ pos' < data.max_double_indirect_range,
          ProductFits volume data pos → ProductFits volume data pos' →
            pos / volume.BlockSize ≠ pos' / volume.BlockSize →
              diskBlock volume data pos ≠ diskBlock volume data pos' := by
  constructor
  · intro calls streams s hgood hused hfits k data pos hpos
    obtain ⟨hgood', hused'⟩ := applyCalls_used hcorrect.toCorrect calls hgood hused hfits
    have hfinds : ∀ pos < max data.max_direct_range data.max_indirect_range,
        Finds volume data.file (fileRuns data) pos :=
      fun pos hpos => (hgood' k).finds hcorrect (hused'.used k) hpos
    have honce := (hgood' k).nodup (hused'.once k)
    exact ⟨hfinds pos hpos, fun pos' hpos' => (hfinds pos hpos).distinct honce (hfinds pos' hpos')⟩
  · intro data ds is runs h pos hpos
    have hiff : ∀ pos < data.max_double_indirect_range,
        (Finds volume data (ds ++ is ++ runs) pos ↔ ProductFits volume data pos) :=
      fun pos hpos => finds_iff hcorrect.shift_ge hcorrect.shift_le h hpos
    refine ⟨hiff pos hpos, fun pos' hpos' hfits hfits' => ?_⟩
    exact ((hiff pos hpos).2 hfits).distinct h.once ((hiff pos' hpos').2 hfits')

end

/-! ## A file of more than 2 GB -/

/-- A correct allocator stays correct if one counts only blocks among which it allocates. -/
theorem Allocator.Correct.restrict {σ : Type} {volume : Allocator σ} {used : σ → Int → Nat → Prop}
    (hcorrect : volume.Correct used) {p : Int → Nat → Prop}
    (hp : ∀ s data numBlocks minimum run s',
      volume.Allocate s data numBlocks minimum = some (run, s') →
        ∀ group i, run.Contains group i → p group i) :
    volume.Correct fun s group i => used s group i ∧ p group i where
  block_size := hcorrect.block_size
  allocate_length := hcorrect.allocate_length
  allocate_free s data numBlocks minimum run s' h group i hin hused :=
    hcorrect.allocate_free s data numBlocks minimum run s' h group i hin hused.1
  allocate_used s data numBlocks minimum run s' h group i := by
    have hold := hcorrect.allocate_used s data numBlocks minimum run s' h group i
    constructor
    · rintro ⟨hused, hpi⟩
      exact (hold.1 hused).imp (fun hu => ⟨hu, hpi⟩) id
    · rintro (⟨hused, hpi⟩ | hin)
      · exact ⟨hold.2 (.inl hused), hpi⟩
      · exact ⟨hold.2 (.inr hin), hp s data numBlocks minimum run s' h group i hin⟩
  free_used s run hpos hused group i := by
    have hold := hcorrect.free_used s run hpos (fun group i hin => (hused group i hin).1) group i
    constructor
    · rintro ⟨hu, hpi⟩
      exact ⟨⟨(hold.1 hu).1, hpi⟩, (hold.1 hu).2⟩
    · rintro ⟨⟨hu, hpi⟩, hin⟩
      exact ⟨hold.2 ⟨hu, hin⟩, hpi⟩

/-- The run `k` of the double indirect range. -/
def largeRun (k : Nat) : block_run := ⟨1 + k / 16384, 4 * (k % 16384), 4⟩

/-- The runs of the double indirect range: 2 GB and 32 KB. -/
def largeRuns : List block_run := (List.range 65537).map largeRun

def largeDirect : List block_run := (List.range 12).map fun i => ⟨6, 2 * i, 1⟩

/-- The blocks of runs: those of `double_indirect` are in group 6, those of its entries in group 7. -/
def largeRunsAt (block : Int) : Option (List block_run) :=
  if block = 6 * 65536 + 300 then
    some ((List.range 1024).map fun e => if e < 17 then ⟨7, 4 * e, 4⟩ else block_run.zero)
  else if 7 * 65536 ≤ block ∧ block < 7 * 65536 + 68 then
    let first := (block - 7 * 65536).toNat * 1024
    some ((List.range 1024).map fun c =>
      if first + c < 65537 then largeRun (first + c) else block_run.zero)
  else none

/-- A volume with blocks of 8192 bytes. -/
def largeVolume : BlockVolume (List Nat) :=
  { fragmented with
    BlockShift := 13
    AllocationGroupShift := 16
    AllocationGroups := 8
    runsAt := largeRunsAt }

def largeFile : file_stream where
  direct := largeDirect
  max_direct_range := 12 * 8192
  indirect := ⟨6, 200, 4⟩
  max_indirect_range := 13 * 8192
  size := 13 * 8192 + 65537 * 32768
  arrays := (⟨6, 100, 1⟩ :: List.replicate 1023 block_run.zero) ::
    List.replicate 3 (List.replicate 1024 block_run.zero)
  double_indirect := ⟨6, 300, 4⟩
  max_double_indirect_range := 13 * 8192 + 65537 * 32768

theorem largeFile_valid : largeFile.todata_stream.Valid largeVolume.toAllocator largeDirect
    [⟨6, 100, 1⟩] where
  direct_ok r hr := by
    simp only [largeDirect, mem_map, mem_range] at hr
    obtain ⟨i, hi, rfl⟩ := hr
    exact ⟨Nat.one_pos, Nat.lt_of_sub_eq_succ rfl, by simp only; omega⟩
  indirect_ok r hr := by
    obtain rfl := mem_singleton.1 hr
    exact ⟨by decide, by decide, by decide⟩
  direct_le := by decide
  direct_eq := rfl
  direct_range := by decide
  no_indirect := nofun
  has_indirect _ := by
    refine ⟨rfl, rfl, by decide, 1023 + 3 * 1024, ?_⟩
    rw [largeFile, flatten_cons, flatten_replicate_replicate, cons_append,
      replicate_append_replicate]
    rfl

theorem ToBlock_eq {σ : Type} (volume : BlockVolume σ) {group start : Nat} (length : Nat)
    (h : start < 2 ^ volume.AllocationGroupShift) :
    volume.ToBlock ⟨group, start, length⟩ =
      (group * 2 ^ volume.AllocationGroupShift + start : Nat) := by
  have hgroup : ((group : Int) * 2 ^ volume.AllocationGroupShift) =
      (2 ^ volume.AllocationGroupShift * group : Nat) := by
    push_cast
    ring
  rw [BlockVolume.ToBlock, hgroup, Nat.mul_comm group, Nat.two_pow_add_eq_or_of_lt h]
  rfl

theorem mem_largeRuns {run : block_run} (h : run ∈ largeRuns) : ∃ k < 65537, run = largeRun k := by
  obtain ⟨k, hk, rfl⟩ := mem_map.1 h
  exact ⟨k, mem_range.1 hk, rfl⟩

theorem largeFile_double : largeFile.DoubleRange largeVolume largeRuns where
  length_four run hrun := by
    obtain ⟨k, -, rfl⟩ := mem_largeRuns hrun
    rfl
  range := by
    rw [blocksOf_four fun run hrun => by obtain ⟨k, -, rfl⟩ := mem_largeRuns hrun; rfl,
      largeRuns, length_map, length_range]
    decide
  length_lt := by decide
  length_le := by
    rw [largeRuns, length_map, length_range]
    decide
  tables k run hrun := by
    obtain ⟨hk, rfl⟩ : k < 65537 ∧ run = largeRun k := by
      rw [largeRuns, List.getElem?_map] at hrun
      obtain ⟨j, hj, rfl⟩ := Option.map_eq_some_iff.1 hrun
      obtain ⟨hlt, rfl⟩ := List.getElem?_eq_some_iff.1 hj
      rw [length_range] at hlt
      exact ⟨hlt, by rw [getElem_range]⟩
    have hentry : largeVolume.runsPerEntry = 4096 := rfl
    have hnumber : largeVolume.numberOfRuns = 1024 := rfl
    have hdouble : largeVolume.ToBlock largeFile.double_indirect = 6 * 65536 + 300 := rfl
    have harray : largeVolume.ToBlock ⟨7, 4 * (k / 4096), 4⟩ = (7 * 65536 + 4 * (k / 4096) : Nat) :=
      ToBlock_eq largeVolume 4 (show 4 * (k / 4096) < 65536 by omega)
    have hfirst : k / 4096 / 1024 = 0 := by omega
    have hruns : largeVolume.runsAt = largeRunsAt := rfl
    have hread : largeRunsAt (6 * 65536 + 300 + (0 : Nat)) = some ((List.range 1024).map fun e =>
        if e < 17 then ⟨7, 4 * e, 4⟩ else block_run.zero) :=
      if_pos rfl
    have hread' : largeRunsAt ((7 * 65536 + 4 * (k / 4096) : Nat) + (k % 4096 / 1024 : Nat)) =
        some ((List.range 1024).map fun c => if 4 * (k / 4096) * 1024 + k % 4096 / 1024 * 1024 + c <
          65537 then largeRun (4 * (k / 4096) * 1024 + k % 4096 / 1024 * 1024 + c)
          else block_run.zero) := by
      have hblock : ((7 * 65536 + 4 * (k / 4096) : Nat) + (k % 4096 / 1024 : Nat) -
          7 * 65536 : Int).toNat * 1024 = 4 * (k / 4096) * 1024 + k % 4096 / 1024 * 1024 := by
        omega
      rw [largeRunsAt, if_neg (by omega), if_pos (by omega), hblock]
    rw [hentry, hnumber, hdouble, hfirst, hruns]
    refine ⟨_, ⟨7, 4 * (k / 4096), 4⟩, _, hread, ?_, rfl, by rw [harray]; exact hread', ?_⟩
    · rw [List.getElem?_map, List.getElem?_range (by omega), Option.map_some,
        Nat.mod_eq_of_lt (show k / 4096 < 1024 by omega), if_pos (by omega)]
    · rw [List.getElem?_map, List.getElem?_range (by omega), Option.map_some]
      have hplace : 4 * (k / 4096) * 1024 + k % 4096 / 1024 * 1024 + k % 4096 % 1024 = k := by
        omega
      rw [hplace, if_pos hk]

theorem mem_runBlocks_largeRun {k : Nat} {group : Int} {i : Nat}
    (h : (group, i) ∈ runBlocks (largeRun k)) :
    group = 1 + k / 16384 ∧ 4 * (k % 16384) ≤ i ∧ i < 4 * (k % 16384) + 4 := by
  simp only [runBlocks, mem_map, mem_range, largeRun, Prod.mk.injEq] at h
  obtain ⟨j, hj, rfl, rfl⟩ := h
  exact ⟨rfl, by omega, by omega⟩

theorem largeFile_wellFormed :
    largeFile.WellFormed largeVolume largeDirect [⟨6, 100, 1⟩] largeRuns where
  valid := largeFile_valid
  indirect_ne := nofun
  double := largeFile_double
  on_volume run hrun := by
    rcases mem_append.1 hrun with hrun | hrun
    · have hsmall : ∀ run ∈ largeDirect ++ [⟨6, 100, 1⟩],
          largeVolume.IsValidBlockRun run = .B_OK := by
        decide +kernel
      exact hsmall run hrun
    · obtain ⟨k, hk, rfl⟩ := mem_largeRuns hrun
      refine if_neg ?_
      simp only [largeRun, largeVolume]
      omega
  once := by
    have hruns : (blockList largeRuns).Nodup := by
      rw [blockList, nodup_flatMap]
      refine ⟨fun run _ => nodup_runBlocks run, ?_⟩
      rw [largeRuns, pairwise_map]
      refine List.Pairwise.imp (fun {k k'} hlt => ?_) pairwise_lt_range
      rintro ⟨group, i⟩ hb hb'
      have := mem_runBlocks_largeRun hb
      have := mem_runBlocks_largeRun hb'
      omega
    rw [blockList_append]
    refine List.Nodup.append (by decide +kernel) hruns ?_
    rintro ⟨group, i⟩ hb hb'
    -- the other runs are in group 6
    have hgroup : ∀ b ∈ blockList (largeDirect ++ [⟨6, 100, 1⟩]), b.1 = 6 := by decide +kernel
    have hsix := hgroup _ hb
    obtain ⟨run, hrun, hb'⟩ := mem_flatMap.1 hb'
    obtain ⟨k, hk, rfl⟩ := mem_largeRuns hrun
    have := mem_runBlocks_largeRun hb'
    simp only at hsix
    omega

theorem largeVolume_allocate {s : List Nat} {data : data_stream} {numBlocks : Int}
    {minimum : Nat} {r : Option (block_run × List Nat)}
    (h : largeVolume.Allocate s data numBlocks minimum = r) :
    fragmented.Allocate s data numBlocks minimum = r := h

/-- The used blocks that exist on the volume. -/
def largeUsed (s : List Nat) (group : Int) (i : Nat) : Prop := fragmentedUsed s group i ∧ i < 65536

theorem largeVolume_correct : largeVolume.Correct largeUsed where
  toCorrect := by
    have hcorrect : largeVolume.toAllocator.Correct fragmentedUsed :=
      { block_size := by decide
        allocate_length := fragmented_correct.allocate_length
        allocate_free := fragmented_correct.allocate_free
        allocate_used := fragmented_correct.allocate_used
        free_used := fragmented_correct.free_used }
    refine hcorrect.restrict fun s data numBlocks minimum run s' h group i hin => ?_
    have hfits := (hcorrect.allocate_length s data numBlocks minimum run s' h).2.2.2.2
    obtain ⟨-, -, hlt⟩ := hin
    omega
  shift_ge := by decide
  shift_le := by decide
  on_volume s group i h := by
    obtain ⟨⟨rfl, -⟩, hlt⟩ := h
    exact ⟨by decide, by decide, hlt⟩

theorem largeVolume_blocksUsed : BlocksUsed largeUsed (fun _ : Unit => data_stream.empty) [] := by
  have hnone := (data_stream.empty_good fragmented).owns_nothing rfl
  refine ⟨fun _ run hrun group i hin => absurd hin (hnone run hrun group i), fun _ group i => ?_,
    fun k k' hne => absurd rfl hne⟩
  rw [(data_stream.empty_good fragmented).no_blocks rfl]
  omega

/-- The block of a new file and the first block of the double indirect range are found. -/
theorem FindBlockRun_maps_large :
    (let data := (applyCalls largeVolume.toAllocator [.SetFileSize () 8192]
        (fun _ => data_stream.empty) []).1 ();
      Finds largeVolume data.file (fileRuns data) 0) ∧
    Finds largeVolume largeFile (largeDirect ++ [⟨6, 100, 1⟩] ++ largeRuns) (13 * 8192) := by
  obtain ⟨hreached, hdouble⟩ := FindBlockRun_maps (ι := Unit) largeVolume_correct
  constructor
  · refine (hreached [.SetFileSize () 8192] (fun _ => data_stream.empty) []
      (fun _ => data_stream.empty_good _) largeVolume_blocksUsed ⟨?_, trivial⟩ () 0
      (by decide +kernel)).1
    intro _ _ _ _ run s' halloc
    obtain ⟨-, rfl, rfl⟩ := fragmented_allocate (largeVolume_allocate halloc)
    refine ⟨⟨by decide, ?_⟩, fun _ _ _ => trivial⟩
    rw [if_pos (by decide)]
    exact fun hlast => absurd hlast.1 (by decide)
  · exact (hdouble largeFile largeDirect _ largeRuns largeFile_wellFormed (13 * 8192)
      (by decide)).1.2 (Or.inr (by decide))

/-- At 2 GB, `index * indirectSize` is `16 * 2 ^ 27`: the offset that is returned is 4 GB too low. -/
theorem FindBlockRun_large_wraps :
    largeFile.WellFormed largeVolume largeDirect [⟨6, 100, 1⟩] largeRuns ∧
    13 * 8192 + 2 ^ 31 < largeFile.max_double_indirect_range ∧
    FindBlockRun largeVolume largeFile (13 * 8192 + 2 ^ 31) = .ok (⟨5, 0, 4⟩, 13 * 8192 - 2 ^ 31) ∧
    ¬Finds largeVolume largeFile (largeDirect ++ [⟨6, 100, 1⟩] ++ largeRuns)
      (13 * 8192 + 2 ^ 31) := by
  refine ⟨largeFile_wellFormed, by decide, by decide +kernel, ?_⟩
  rw [finds_iff (by decide) (by decide) largeFile_wellFormed (by decide)]
  rintro (hbefore | hfits)
  · exact absurd hbefore (by decide)
  · exact absurd hfits (by decide)

end BFS
