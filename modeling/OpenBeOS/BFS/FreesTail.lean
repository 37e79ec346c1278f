import OpenBeOS.BFS.ShrinkSweep

/-! # Shrinking a stream with a double indirect range

What `ShrinkStream()` is to free, and when it does. Two things go wrong: an array of level 1 whose
runs are all freed is not freed itself, and `max_double_indirect_range` is only set by a run that
is visited and kept, so it does not change when `size` is where a run begins.
-/

namespace BFS

open List

variable {σ : Type}

/-! ## What is to be freed -/

/-- The runs that begin below `size`, from `offset` on. -/
def runsBelow (blockSize size : Nat) : Nat → List block_run → List block_run
  | _, [] => []
  | offset, run :: rest =>
    if size ≤ offset then []
    else run :: runsBelow blockSize size (offset + run.length * blockSize) rest

/-- The runs that lie wholly at or behind `size`, from `offset` on. -/
def runsBehind (blockSize size : Nat) : Nat → List block_run → List block_run
  | _, [] => []
  | offset, run :: rest =>
    if size ≤ offset then run :: rest
    else runsBehind blockSize size (offset + run.length * blockSize) rest

/-- How many arrays that many runs of the double indirect range fill. -/
def neededArrays (volume : BlockVolume σ) (n : Nat) : Nat :=
  (n + volume.runsPerEntry - 1) / volume.runsPerEntry

section

variable (volume : BlockVolume σ) (data : file_stream) (is runs arrays : List block_run) (size : Nat)

/-- The arrays of level 1 that still hold a run below `size`. -/
def arraysInUse : Nat :=
  neededArrays volume (runsBelow volume.BlockSize size data.max_indirect_range runs).length

/-- The arrays and indirect blocks that hold no run any more. -/
def emptyTables : List block_run :=
  arrays.drop (arraysInUse volume data runs size) ++
    (if arraysInUse volume data runs size = 0 then [data.double_indirect] else []) ++
    if runsBelow volume.BlockSize size data.max_direct_range is = [] then [data.indirect] else []

/-- The arrays and indirect blocks that still hold a run. -/
def tablesInUse : List block_run :=
  arrays.take (arraysInUse volume data runs size) ++
    (if arraysInUse volume data runs size = 0 then [] else [data.double_indirect]) ++
    if runsBelow volume.BlockSize size data.max_direct_range is = [] then [] else [data.indirect]

end

/-- The end of a range that begins at `start`; it is 0 for an unused one. -/
def coveredRange (blockSize start : Nat) (runs : List block_run) : Nat :=
  if runs = [] then 0 else start + blocksOf runs * blockSize

/-- The tail of a stream is freed, and nothing else: `r` is what is left after shrinking to `size`. -/
structure FreesTail (frees : σ → Int → Nat → Nat) (volume : BlockVolume σ) (data : file_stream)
    (ds is runs arrays : List block_run) (size : Nat) (s : σ)
    (r : BlockVolume σ × file_stream × σ) : Prop where
  maps : ∀ pos < size, FindBlockRun r.1 r.2.1 pos = FindBlockRun volume data pos
  freed_once : ∀ run ∈ runsBehind volume.BlockSize size 0 (ds ++ is ++ runs) ++
      emptyTables volume data is runs arrays size,
    ∀ group i, run.Contains group i → frees r.2.2 group i = frees s group i + 1
  file_kept : ∀ pos < size, ∀ group i,
    (blockList (ds ++ is ++ runs))[pos / volume.BlockSize]? = some (group, i) →
      frees r.2.2 group i = frees s group i
  tables_kept : ∀ run ∈ tablesInUse volume data is runs arrays size, ∀ group i,
    run.Contains group i → frees r.2.2 group i = frees s group i
  others_kept : ∀ group i, (∀ run ∈ ds ++ is ++ runs ++ data.indirect :: data.double_indirect ::
    arrays, ¬run.Contains group i) → frees r.2.2 group i = frees s group i
  max_direct_range : r.2.1.max_direct_range =
    blocksOf (trimRuns volume.BlockSize size 0 ds) * volume.BlockSize
  max_indirect_range : r.2.1.max_indirect_range = coveredRange volume.BlockSize
    r.2.1.max_direct_range (trimRuns volume.BlockSize size data.max_direct_range is)
  max_double_indirect_range : r.2.1.max_double_indirect_range = coveredRange volume.BlockSize
    data.max_indirect_range (runsBelow volume.BlockSize size data.max_indirect_range runs)

/-! ## Runs below and behind the size -/

theorem runsBelow_append_runsBehind (blockSize size offset : Nat) (runs : List block_run) :
    runsBelow blockSize size offset runs ++ runsBehind blockSize size offset runs = runs := by
  induction runs generalizing offset with
  | nil => rfl
  | cons run rest ih =>
    rw [runsBelow, runsBehind]
    split
    · rfl
    · rw [cons_append, ih]

theorem runsBelow_four {blockSize : Nat} (hpos : 0 < blockSize) (size offset : Nat)
    (runs : List block_run) (hfour : ∀ run ∈ runs, run.length = 4) :
    runsBelow blockSize size offset runs =
      runs.take ((size - offset + 4 * blockSize - 1) / (4 * blockSize)) := by
  induction runs generalizing offset with
  | nil => rw [runsBelow, take_nil]
  | cons run rest ih =>
    rw [runsBelow, hfour run mem_cons_self]
    split
    · rw [Nat.div_eq_of_lt (by omega), take_zero]
    · rw [ih _ fun r hr => hfour r (mem_cons_of_mem _ hr)]
      have hcount : (size - offset + 4 * blockSize - 1) / (4 * blockSize) =
          (size - (offset + 4 * blockSize) + 4 * blockSize - 1) / (4 * blockSize) + 1 := by
        rw [← Nat.add_div_right _ (by omega)]
        rcases Nat.le_total (offset + 4 * blockSize) size with hle | hle
        · congr 1
          omega
        · rw [Nat.div_eq_of_lt_le (show 1 * (4 * blockSize) ≤ _ by omega) (by omega),
            Nat.div_eq_of_lt_le (show 1 * (4 * blockSize) ≤ _ by omega) (by omega)]
      rw [hcount, take_succ_cons]

theorem runsBehind_eq_drop (blockSize size offset : Nat) (runs : List block_run) :
    runsBehind blockSize size offset runs =
      runs.drop (runsBelow blockSize size offset runs).length := by
  have hdrop := congrArg (List.drop (runsBelow blockSize size offset runs).length)
    (runsBelow_append_runsBehind blockSize size offset runs)
  rwa [drop_left] at hdrop

theorem runsBehind_append {blockSize size offset : Nat} {front : List block_run}
    (h : offset + blocksOf front * blockSize < size) (back : List block_run) :
    runsBehind blockSize size offset (front ++ back) =
      runsBehind blockSize size (offset + blocksOf front * blockSize) back := by
  induction front generalizing offset with
  | nil => rw [blocksOf_nil, Nat.zero_mul, Nat.add_zero, nil_append]
  | cons run front ih =>
    rw [blocksOf_cons, Nat.add_mul, ← Nat.add_assoc] at h ⊢
    rw [cons_append, runsBehind, if_neg (by omega), ih h]

theorem trimRuns_eq {blockSize size offset : Nat} {runs : List block_run}
    (h : offset + blocksOf runs * blockSize ≤ size) :
    trimRuns blockSize size offset runs = runs := by
  induction runs generalizing offset with
  | nil => rfl
  | cons run runs ih =>
    rw [blocksOf_cons, Nat.add_mul, ← Nat.add_assoc] at h
    rw [trimRuns, if_pos (by omega), ih h]

/-! ## Frees of other blocks -/

section

variable {volume : Allocator σ} {frees : σ → Int → Nat → Nat} {group : Int} {i : Nat}

theorem Allocator.Counts.free_other (hcounts : volume.Counts frees) {run : block_run}
    (h : ¬run.Contains group i) (s : σ) :
    frees (volume.Free s run) group i = frees s group i := by
  rw [hcounts, if_neg h, Nat.add_zero]

/-- `FreeStreamArray()` only frees blocks of the runs in the array. -/
theorem FreeStreamArray_other (hcounts : volume.Counts frees) (hb : 0 < volume.BlockSize)
    (size : Nat) {array : List block_run} (hok : ∀ run ∈ array, run.IsZero = false → run.Ok)
    (hout : ∀ run ∈ array, ¬run.Contains group i) (offset max : Nat) (s : σ) :
    frees (FreeStreamArray volume size array offset max s).2.2.2 group i = frees s group i := by
  induction array generalizing offset max s with
  | nil => rfl
  | cons run rest ih =>
    have hok' := fun r hr => hok r (mem_cons_of_mem _ hr)
    have hout' := fun r hr => hout r (mem_cons_of_mem _ hr)
    have hrun := hout run mem_cons_self
    rw [FreeStreamArray]
    by_cases hzero : run.IsZero = true
    · rw [if_pos hzero]
    rw [if_neg hzero]
    have hrunOk := hok run mem_cons_self (by simpa using hzero)
    simp only
    by_cases hend : offset + run.length * volume.BlockSize ≤ size
    · rw [if_pos hend]
      exact ih hok' hout' _ _ _
    rw [if_neg hend]
    by_cases hoffset : offset < size
    · -- only the end of the run is freed
      obtain ⟨hkept, -⟩ := keptLength_bounds hb hend hoffset
      have hlt := hrunOk.lt
      have hfits := hrunOk.fits
      rw [if_pos hoffset]
      generalize (size - offset) / volume.BlockSize = q at *
      obtain ⟨hlength, hfreed⟩ := hrunOk.toUint16_trim hkept
      rw [hlength, hfreed]
      split
      · exact ih hok' hout' _ _ _
      · rename_i hsome
        have hstart : toUint16 (run.start + q + 1) = run.start + (q + 1) := by
          unfold toUint16
          omega
        rw [hstart]
        refine (ih hok' hout' _ _ _).trans (hcounts.free_other ?_ s)
        rintro ⟨hgroup, hle, hlt⟩
        simp only at hle hlt
        exact hrun ⟨hgroup, by omega, by omega⟩
    · rw [if_neg hoffset]
      exact (ih hok' hout' _ _ _).trans (hcounts.free_other hrun s)

theorem freeArrays_other (hcounts : volume.Counts frees) (hb : 0 < volume.BlockSize) (size : Nat)
    {arrays : List (List block_run)}
    (hok : ∀ run ∈ arrays.flatten, run.IsZero = false → run.Ok)
    (hout : ∀ run ∈ arrays.flatten, ¬run.Contains group i) (offset max : Nat) (s : σ) :
    frees (freeArrays volume size arrays offset max s).2.2.2 group i = frees s group i := by
  induction arrays generalizing offset max s with
  | nil => rfl
  | cons array rest ih =>
    rw [flatten_cons] at hok hout
    refine (ih (fun r hr => hok r (mem_append_right _ hr))
      (fun r hr => hout r (mem_append_right _ hr)) _ _ _).trans ?_
    exact FreeStreamArray_other hcounts hb size (fun r hr => hok r (mem_append_left _ hr))
      (fun r hr => hout r (mem_append_left _ hr)) _ _ _

theorem zero_not_contains : ¬block_run.zero.Contains group i := by
  simp only [block_run.Contains, block_run.zero]
  omega

theorem padded_other {runs : List block_run} {k : Nat} (hok : ∀ run ∈ runs, run.Ok)
    (hout : ∀ run ∈ runs, ¬run.Contains group i) :
    (∀ run ∈ runs ++ List.replicate k block_run.zero, run.IsZero = false → run.Ok) ∧
      ∀ run ∈ runs ++ List.replicate k block_run.zero, ¬run.Contains group i := by
  constructor
  · intro run hrun hused
    rcases mem_append.1 hrun with hrun | hrun
    · exact hok run hrun
    · rw [eq_of_mem_replicate hrun] at hused
      cases hused
  · intro run hrun
    rcases mem_append.1 hrun with hrun | hrun
    · exact hout run hrun
    · rw [eq_of_mem_replicate hrun]
      exact zero_not_contains

/-- Shrinking the other two ranges only frees blocks of theirs. -/
theorem ShrinkStream_other (hcounts : volume.Counts frees) (hb : 0 < volume.BlockSize)
    {data : data_stream} {ds is : List block_run} (h : data.Valid volume ds is) (his : is ≠ [])
    (hout : ∀ run ∈ data.indirect :: (ds ++ is), ¬run.Contains group i) (size : Nat) (s : σ) :
    frees (ShrinkStream volume data size s).2 group i = frees s group i := by
  obtain ⟨-, -, -, k, hholds⟩ := h.has_indirect his
  have hdirect := @padded_other group i ds (NUM_DIRECT_BLOCKS - ds.length) h.direct_ok
    fun r hr => hout r (by simp [hr])
  have hindirect := @padded_other group i is k h.indirect_ok fun r hr => hout r (by simp [hr])
  rw [← h.direct_eq] at hdirect
  rw [← hholds] at hindirect
  have hshrink : frees (shrinkIndirect volume data size s).2 group i = frees s group i ∧
      (shrinkIndirect volume data size s).1.direct = data.direct := by
    unfold shrinkIndirect
    split
    · have hfrees := freeArrays_other hcounts hb size hindirect.1 hindirect.2
        data.max_direct_range data.max_indirect_range s
      simp only
      split
      · exact ⟨(hcounts.free_other (hout _ mem_cons_self) _).trans hfrees, rfl⟩
      · exact ⟨hfrees, rfl⟩
    · exact ⟨rfl, rfl⟩
  refine Eq.trans ?_ hshrink.1
  rw [← hshrink.2] at hdirect
  unfold ShrinkStream shrinkDirect
  simp only
  split
  · exact FreeStreamArray_other hcounts hb size hdirect.1 hdirect.2 _ _ _
  · rfl

end

/-! ## The state behind ShrinkStream -/

section

variable {volume : BlockVolume σ} {data : file_stream} {ds is runs arrays : List block_run}
  {frees : σ → Int → Nat → Nat} {size : Nat}

theorem file_stream.Stored.shrink_behind (hs : data.Stored volume ds is runs arrays)
    (hcounts : volume.Counts frees) (hlow : 10 ≤ volume.BlockShift) (hhigh : volume.BlockShift ≤ 13)
    (hmin : data.max_indirect_range < size) (hsize : size < data.max_double_indirect_range) (s : σ) :
    ∃ st j k, runs.length ≤ k ∧ Swept volume data runs arrays frees size s j k st ∧
      data.ShrinkStream volume size s = ({ volume with runsAt := st.blocks },
        { data with size := size, max_double_indirect_range := st.max }, st.allocator) := by
  obtain ⟨st, heq, j, k, hk, hswept⟩ := hs.sweep hcounts hlow hhigh hsize s
  refine ⟨st, j, k, hk, hswept, ?_⟩
  have hrange := (hs.wellFormed.valid.has_indirect hs.wellFormed.indirect_ne).2.2.1
  simp only [file_stream.ShrinkStream, shrinkDouble, if_pos hsize, heq,
    if_neg (show ¬size ≤ data.max_indirect_range by omega), BFS.ShrinkStream, shrinkIndirect,
    if_neg (show ¬data.max_indirect_range > size by omega), shrinkDirect,
    if_neg (show ¬data.max_direct_range > size by omega)]

/-- A block that is not one of a run, or of the indirect blocks, is not freed. So the arrays of
level 1 never are. -/
theorem file_stream.Stored.frees_other (hs : data.Stored volume ds is runs arrays)
    (hcounts : volume.Counts frees) (hlow : 10 ≤ volume.BlockShift) (hhigh : volume.BlockShift ≤ 13)
    (hsize : size < data.max_double_indirect_range) {group : Int} {i : Nat}
    (hout : ∀ run ∈ data.indirect :: data.double_indirect :: (ds ++ is ++ runs),
      ¬run.Contains group i) (s : σ) :
    frees (data.ShrinkStream volume size s).2.2 group i = frees s group i := by
  obtain ⟨st, heq, j, k, hk, hswept⟩ := hs.sweep hcounts hlow hhigh hsize s
  have hruns : frees st.allocator group i = frees s group i := by
    rw [hswept.freed, cover_eq_zero fun run hrun => hout run ?_, Nat.add_zero]
    have := mem_of_mem_take (mem_of_mem_drop hrun)
    simp [this]
  have hdouble : (shrinkDouble volume data size s).2.1.todata_stream = data.todata_stream ∧
      frees (shrinkDouble volume data size s).2.2 group i = frees s group i := by
    unfold shrinkDouble
    rw [if_pos hsize, heq]
    simp only
    split
    · exact ⟨rfl, (hcounts.free_other (hout _ (by simp)) _).trans hruns⟩
    · exact ⟨rfl, hruns⟩
  have hdata : (data.ShrinkStream volume size s).2.2 =
      (BFS.ShrinkStream volume.toAllocator (shrinkDouble volume data size s).2.1.todata_stream size
        (shrinkDouble volume data size s).2.2).2 := by
    simp only [file_stream.ShrinkStream]
  rw [hdata, hdouble.1, ShrinkStream_other hcounts volume.BlockSize_pos hs.wellFormed.valid
    hs.wellFormed.indirect_ne (fun run hrun => hout run ?_) size, hdouble.2]
  rcases mem_cons.1 hrun with rfl | hrun
  · exact mem_cons_self
  · exact mem_cons_of_mem _ (mem_cons_of_mem _ (mem_append_left runs hrun))

/-! ## The block map -/

theorem findDouble_eq {pos : Nat} {array run : block_run}
    (hlt : (pos - data.max_indirect_range) / volume.indirectSize < 2 ^ 31)
    (hentry : tableEntry volume.runsAt volume.numberOfRuns (volume.ToBlock data.double_indirect)
      ((pos - data.max_indirect_range) / volume.indirectSize) = some array)
    (hrun : tableEntry volume.runsAt volume.numberOfRuns (volume.ToBlock array)
      ((pos - data.max_indirect_range) % volume.indirectSize / volume.directSize) = some run) :
    findDouble volume data pos = .ok (run, data.max_indirect_range +
      wrapInt32 (((pos - data.max_indirect_range) / volume.indirectSize : Nat) *
        volume.indirectSize) +
      wrapInt32 ((pos - data.max_indirect_range) % volume.indirectSize / volume.directSize *
        volume.directSize : Nat)) := by
  obtain ⟨entries, hentries, harray⟩ := Option.bind_eq_some_iff.1 hentry
  obtain ⟨entries', hentries', hget⟩ := Option.bind_eq_some_iff.1 hrun
  have hwrap : wrapInt32 (((pos - data.max_indirect_range) / volume.indirectSize : Nat) : Int) =
      ((pos - data.max_indirect_range) / volume.indirectSize : Nat) := by
    have hnonneg := Int.natCast_nonneg ((pos - data.max_indirect_range) / volume.indirectSize)
    exact wrapInt32_of_lt (by omega) (by omega)
  simp only [findDouble, hwrap, ← Int.ofNat_tdiv, ← Int.ofNat_tmod, hentries, Int.toNat_natCast,
    getD_eq_getElem?_getD, harray, Option.getD_some, hentries', hget]

section

variable (hs : data.Stored volume ds is runs arrays)
include hs

/-- Below the size, the block map stays as it was. -/
theorem Swept.maps (hlow : 10 ≤ volume.BlockShift)
    (hhigh : volume.BlockShift ≤ 13) (hsize : size < data.max_double_indirect_range) {s : σ} {j k : Nat} {st : FreeState σ}
    (h : Swept volume data runs arrays frees size s j k st) {pos : Nat} (hpos : pos < size) :
    FindBlockRun { volume with runsAt := st.blocks }
        { data with size := size, max_double_indirect_range := st.max } pos =
      FindBlockRun volume data pos := by
  obtain ⟨hdirect, hindirect, hnumber, hnumber_le, -, -⟩ := indirectSize_eq hlow hhigh
  have hb := volume.BlockSize_pos
  have hdirect_pos : 0 < volume.directSize := by omega
  have hentry_pos : 0 < volume.runsPerEntry := Nat.mul_pos (by decide) hnumber
  have hrange := (hs.wellFormed.valid.has_indirect hs.wellFormed.indirect_ne).2.2.1
  have hdirect_range := hs.wellFormed.valid.direct_pos hb hs.wellFormed.indirect_ne
  have hmax : st.max > 0 := by
    rw [h.max]
    split <;> omega
  have hdouble : data.max_indirect_range ≤ pos → findDouble { volume with runsAt := st.blocks }
          { data with size := size, max_double_indirect_range := st.max } pos =
        findDouble volume data pos := by
    intro hbehind
    obtain ⟨hkept, -⟩ := keptRuns_le_length hdirect_pos hs.wellFormed.double hdirect hs.runs_ne
      hsize
    -- the run `n` of the range
    generalize hn : (pos - data.max_indirect_range) / volume.directSize = n
    have hlt : n < keptRuns volume data size := by
      have hle := Nat.div_mul_le_self (pos - data.max_indirect_range) volume.directSize
      have hiff := @keptRuns_le_iff _ volume data hdirect_pos size n
      rw [hn] at hle
      omega
    have hindex : (pos - data.max_indirect_range) / volume.indirectSize =
        n / volume.runsPerEntry := by
      rw [← hn, Nat.div_div_eq_div_mul, hindirect]
    have hcurrent : (pos - data.max_indirect_range) % volume.indirectSize / volume.directSize =
        n % volume.runsPerEntry := by
      rw [← hn, hindirect, Nat.mod_mul_right_div_self]
    have hplace := Nat.div_add_mod n volume.runsPerEntry
    rw [Nat.mul_comm] at hplace
    have hmod := Nat.mod_lt n hentry_pos
    have hle := hs.runs_le
    have harrays : n / volume.runsPerEntry < arrays.length :=
      (Nat.div_lt_iff_lt_mul hentry_pos).2 (by omega)
    have hentries : n / volume.runsPerEntry <
        data.double_indirect.length * volume.numberOfRuns := by
      rw [Nat.div_lt_iff_lt_mul hentry_pos]
      have := hs.wellFormed.double.length_le
      omega
    have hsmall : n / volume.runsPerEntry < 2 ^ 31 := by
      have := Nat.mul_le_mul (Nat.le_of_lt hs.wellFormed.double.length_lt) hnumber_le
      omega
    obtain ⟨array, harray⟩ : ∃ array, arrays[n / volume.runsPerEntry]? = some array :=
      ⟨_, List.getElem?_eq_getElem harrays⟩
    have htop := h.top _ hentries
    have htop' := hs.top _ hentries
    rw [getD_eq_getElem?_getD, harray, Option.getD_some] at htop htop'
    rw [if_neg (by omega)] at htop
    have hsecond := h.second _ _ harray _ hmod
    rw [if_neg (by omega), hplace] at hsecond
    have hfour := hs.arrays_four _ (mem_of_getElem? harray)
    have hsecond' := hs.second _ _ harray (n % volume.runsPerEntry)
      (by rw [hfour]; exact hmod)
    rw [getD_eq_getElem?_getD, List.getElem?_take_of_lt hmod, List.getElem?_drop, hplace,
      ← getD_eq_getElem?_getD] at hsecond'
    rw [← hindex] at htop htop' hsmall
    rw [← hcurrent] at hsecond hsecond'
    rw [@findDouble_eq _ volume data pos _ _ hsmall htop' hsecond']
    exact @findDouble_eq _ { volume with runsAt := st.blocks }
      { data with size := size, max_double_indirect_range := st.max } pos _ _ hsmall htop hsecond
  have hrange : findInRange { volume with runsAt := st.blocks }
        { data with size := size, max_double_indirect_range := st.max } pos =
      findInRange volume data pos := by
    unfold findInRange
    by_cases hbehind : data.max_indirect_range ≤ pos
    · rw [hdouble hbehind]
      simp only [hmax, show data.max_double_indirect_range > 0 by omega]
    · simp only [ge_iff_le, hbehind, and_false, if_false]
  unfold FindBlockRun
  rw [hrange]
  rfl

/-! ## When the tail is freed -/

theorem file_stream.Stored.cover_le (group : Int)
    (i : Nat) : cover (ds ++ is) group i + cover runs group i +
      cover (data.indirect :: data.double_indirect :: arrays) group i ≤ 1 := by
  have hcount := nodup_iff_count_le_one.1 hs.once (group, i)
  rwa [count_blockList, cover_append, cover_append] at hcount

theorem file_stream.Stored.runsBelow_eq
    (hdirect : volume.directSize = 4 * volume.BlockSize) (size : Nat) :
    runsBelow volume.BlockSize size data.max_indirect_range runs =
      runs.take (keptRuns volume data size) := by
  rw [runsBelow_four volume.BlockSize_pos _ _ _ hs.wellFormed.double.length_four, keptRuns, hdirect]

/-- The last array holds no run, when `size` is not behind its start. It should be freed, and is
not. -/
theorem file_stream.Stored.not_freed
    (hcounts : volume.Counts frees) (hlow : 10 ≤ volume.BlockShift) (hhigh : volume.BlockShift ≤ 13)
    (hsize : size < data.max_double_indirect_range)
    (hlast : size ≤ data.max_indirect_range + (arrays.length - 1) * volume.indirectSize) (s : σ) :
    ¬FreesTail frees volume data ds is runs arrays size s (data.ShrinkStream volume size s) := by
  intro h
  obtain ⟨hdirect, hindirect, hnumber, -, -, -⟩ := indirectSize_eq hlow hhigh
  have hb := volume.BlockSize_pos
  have hpos : 0 < volume.directSize := by omega
  have hentry_pos : 0 < volume.runsPerEntry := Nat.mul_pos (by decide) hnumber
  have hlength := length_pos_iff.2 hs.arrays_ne
  -- the last array is not needed
  have hneeded : arraysInUse volume data runs size ≤ arrays.length - 1 := by
    have hkept : keptRuns volume data size ≤ (arrays.length - 1) * volume.runsPerEntry := by
      rwa [keptRuns_le_iff hpos, Nat.mul_assoc, Nat.mul_comm volume.runsPerEntry, ← hindirect]
    rw [arraysInUse, neededArrays, hs.runsBelow_eq hdirect, length_take,
      ← Nat.lt_add_one_iff, Nat.div_lt_iff_lt_mul hentry_pos, Nat.add_mul, Nat.one_mul]
    omega
  obtain ⟨array, hget⟩ : ∃ array, arrays[arrays.length - 1]? = some array :=
    ⟨_, List.getElem?_eq_getElem (show arrays.length - 1 < arrays.length by omega)⟩
  have hmem := mem_of_getElem? hget
  have hfour := hs.arrays_four array hmem
  have hcontains : array.Contains array.allocation_group array.start := ⟨rfl, by omega, by omega⟩
  have hempty : array ∈ emptyTables volume data is runs arrays size := by
    refine mem_append_left _ (mem_append_left _ ?_)
    refine mem_iff_getElem?.2 ⟨arrays.length - 1 - arraysInUse volume data runs size, ?_⟩
    rw [List.getElem?_drop, Nat.add_sub_cancel' hneeded, hget]
  have hfreed := h.freed_once array (mem_append_right _ hempty) _ _ hcontains
  have hle := hs.cover_le array.allocation_group array.start
  have hcover := cover_pos.2 ⟨array, hmem, hcontains⟩
  rw [cover_cons, cover_cons] at hle
  have hother := @file_stream.Stored.frees_other _ _ _ _ _ _ _ _ _ hs hcounts hlow hhigh hsize
    array.allocation_group array.start (fun run hrun hin => ?_) s
  · omega
  · rcases mem_cons.1 hrun with rfl | hrun
    · rw [if_pos hin] at hle
      omega
    rcases mem_cons.1 hrun with rfl | hrun
    · rw [if_pos hin] at hle
      omega
    have hpos := cover_pos.2 ⟨run, hrun, hin⟩
    rw [cover_append] at hpos
    omega

/-- The range is not changed, when `size` is where a run begins. -/
theorem file_stream.Stored.not_covered
    (hcounts : volume.Counts frees) (hlow : 10 ≤ volume.BlockShift) (hhigh : volume.BlockShift ≤ 13)
    (hmin : data.max_indirect_range < size) (hsize : size < data.max_double_indirect_range)
    (hdvd : volume.directSize ∣ size - data.max_indirect_range) (s : σ) :
    ¬FreesTail frees volume data ds is runs arrays size s (data.ShrinkStream volume size s) := by
  intro h
  obtain ⟨hdirect, -, -, -, -, -⟩ := indirectSize_eq hlow hhigh
  have hb := volume.BlockSize_pos
  have hpos : 0 < volume.directSize := by omega
  obtain ⟨st, j, k, hk, hswept, heq⟩ := hs.shrink_behind hcounts hlow hhigh hmin hsize s
  have hrange := h.max_double_indirect_range
  rw [heq, hs.runsBelow_eq hdirect] at hrange
  simp only at hrange
  have hfirst := (@firstRun_lt_keptRuns _ volume data hpos size).not.2 (not_not.2 hdvd)
  rw [hswept.max, if_neg fun hlt => hfirst hlt.1, coveredRange] at hrange
  obtain ⟨hkept, -⟩ := keptRuns_le_length hpos hs.wellFormed.double hdirect hs.runs_ne hsize
  have hfour := blocksOf_four fun r (hr : r ∈ runs.take (keptRuns volume data size)) =>
    hs.wellFormed.double.length_four r (mem_of_mem_take hr)
  rw [length_take, Nat.min_eq_left hkept] at hfour
  -- the kept runs end at the size
  have hend : keptRuns volume data size * volume.directSize = size - data.max_indirect_range := by
    have heq := (@firstRun_le_keptRuns _ volume data hpos size).1
    rw [show keptRuns volume data size = firstRun volume data size by omega, firstRun,
      Nat.div_mul_cancel hdvd]
  rw [hfour, Nat.mul_comm 4, Nat.mul_assoc, ← hdirect, hend] at hrange
  split at hrange <;> omega

/-- Otherwise all is right. -/
theorem file_stream.Stored.freesTail
    (hcounts : volume.Counts frees) (hlow : 10 ≤ volume.BlockShift) (hhigh : volume.BlockShift ≤ 13)
    (hsize : size < data.max_double_indirect_range)
    (hlast : data.max_indirect_range + (arrays.length - 1) * volume.indirectSize < size)
    (hdvd : ¬volume.directSize ∣ size - data.max_indirect_range) (s : σ) :
    FreesTail frees volume data ds is runs arrays size s (data.ShrinkStream volume size s) := by
  obtain ⟨hdirect, hindirect, hnumber, -, -, -⟩ := indirectSize_eq hlow hhigh
  have hb := volume.BlockSize_pos
  have hpos : 0 < volume.directSize := by omega
  have hentry_pos : 0 < volume.runsPerEntry := Nat.mul_pos (by decide) hnumber
  have hmin : data.max_indirect_range < size := by omega
  obtain ⟨st, j, k, hk, hswept, heq⟩ := hs.shrink_behind hcounts hlow hhigh hmin hsize s
  obtain ⟨hkept, -⟩ := keptRuns_le_length hpos hs.wellFormed.double hdirect hs.runs_ne hsize
  have hvalid := hs.wellFormed.valid
  have hindirect_range := (hvalid.has_indirect hs.wellFormed.indirect_ne).2.2.1
  have hdirect_range := hvalid.direct_range
  have hbelow := hs.runsBelow_eq hdirect size
  have hfour := blocksOf_four fun r (hr : r ∈ runs.take (keptRuns volume data size)) =>
    hs.wellFormed.double.length_four r (mem_of_mem_take hr)
  rw [length_take, Nat.min_eq_left hkept] at hfour
  -- just the runs behind the size were freed
  have hfreed : ∀ group i, frees st.allocator group i =
      frees s group i + cover (runs.drop (keptRuns volume data size)) group i := by
    intro group i
    rw [hswept.freed, take_of_length_le hk]
  have hsplit : ∀ group i, cover (runs.take (keptRuns volume data size)) group i +
      cover (runs.drop (keptRuns volume data size)) group i = cover runs group i := by
    intro group i
    rw [← cover_append, take_append_drop]
  have hkept_pos : 0 < keptRuns volume data size := by
    have := (@firstRun_lt_keptRuns _ volume data hpos size).2 hdvd
    omega
  have hneeded : arraysInUse volume data runs size = arrays.length := by
    have hlt : (arrays.length - 1) * volume.runsPerEntry < keptRuns volume data size := by
      rwa [← Nat.not_le, keptRuns_le_iff hpos, Nat.mul_assoc, Nat.mul_comm volume.runsPerEntry,
        ← hindirect, Nat.not_le]
    have hle := hs.runs_le
    have hlength := length_pos_iff.2 hs.arrays_ne
    obtain ⟨n, hn⟩ := Nat.exists_eq_add_of_le' hlength
    rw [hn, Nat.add_sub_cancel] at hlt
    rw [hn, Nat.add_mul] at hle
    rw [arraysInUse, neededArrays, hbelow, length_take, Nat.min_eq_left hkept, hn]
    refine Nat.div_eq_of_lt_le ?_ ?_ <;> simp only [Nat.add_mul] <;> omega
  have hindirect_below : runsBelow volume.BlockSize size data.max_direct_range is ≠ [] := by
    obtain ⟨run, rest, his⟩ := exists_cons_of_ne_nil hs.wellFormed.indirect_ne
    rw [his, runsBelow, if_neg (by omega)]
    exact cons_ne_nil _ _
  have htail : runsBehind volume.BlockSize size 0 (ds ++ is ++ runs) ++
      emptyTables volume data is runs arrays size = runs.drop (keptRuns volume data size) := by
    have hfront : 0 + blocksOf (ds ++ is) * volume.BlockSize = data.max_indirect_range := by
      rw [blocksOf_append, Nat.add_mul]
      omega
    rw [runsBehind_append (by omega), hfront, runsBehind_eq_drop, hbelow, length_take,
      Nat.min_eq_left hkept, emptyTables, hneeded, drop_length, if_neg hindirect_below,
      if_neg (by have := length_pos_iff.2 hs.arrays_ne; omega)]
    simp only [append_nil]
  rw [heq]
  constructor
  · intro pos hpos
    exact hswept.maps hs hlow hhigh hsize hpos
  · intro run hrun group i hin
    rw [htail] at hrun
    have hle := hs.cover_le group i
    have hcover := cover_pos.2 ⟨run, hrun, hin⟩
    have := hsplit group i
    rw [hfreed]
    omega
  · intro pos hlt group i hget
    -- the block is one of the runs that are kept
    have hlist : ds ++ is ++ runs = ds ++ is ++ runs.take (keptRuns volume data size) ++
        runs.drop (keptRuns volume data size) := by
      rw [append_assoc (ds ++ is), take_append_drop]
    have hbefore : pos / volume.BlockSize <
        (blockList (ds ++ is ++ runs.take (keptRuns volume data size))).length := by
      have hend := (keptRuns_le_iff hpos size _).1 (Nat.le_refl (keptRuns volume data size))
      rw [length_blockList, Nat.div_lt_iff_lt_mul hb, blocksOf_append, blocksOf_append, hfour,
        Nat.mul_comm 4, Nat.add_mul, Nat.add_mul, Nat.mul_assoc, ← hdirect]
      omega
    rw [hlist, blockList_append, List.getElem?_append_left hbefore] at hget
    have hcount := count_pos_iff.2 (mem_of_getElem? hget)
    rw [count_blockList, cover_append] at hcount
    have hle := hs.cover_le group i
    have := hsplit group i
    rw [hfreed]
    omega
  · intro run hrun group i hin
    have hmem : run ∈ data.indirect :: data.double_indirect :: arrays := by
      unfold tablesInUse at hrun
      rw [hneeded, take_length, if_neg hindirect_below,
        if_neg (by have := length_pos_iff.2 hs.arrays_ne; omega)] at hrun
      simp only [mem_append, mem_cons] at hrun ⊢
      tauto
    have hle := hs.cover_le group i
    have hcover := cover_pos.2 ⟨run, hmem, hin⟩
    have := hsplit group i
    rw [hfreed]
    omega
  · intro group i hout
    rw [hfreed, cover_eq_zero, Nat.add_zero]
    intro run hrun
    have hmem := mem_of_mem_drop hrun
    exact hout run (by simp [hmem])
  · rw [trimRuns_eq (by omega)]
    exact hdirect_range
  · rw [trimRuns_eq (by omega), coveredRange, if_neg hs.wellFormed.indirect_ne]
    exact hindirect_range
  · rw [hbelow, coveredRange, if_neg, hfour, Nat.mul_comm 4, Nat.mul_assoc, ← hdirect]
    · exact hswept.max.trans (if_pos ⟨(firstRun_lt_keptRuns hpos size).2 hdvd, by omega⟩)
    · rw [take_eq_nil_iff]
      rintro (h0 | hnil)
      · omega
      · exact hs.runs_ne hnil

end

/-- **Shrinking a stream with a double indirect range** frees its tail exactly if the last array of
level 1 still holds a run afterwards, and no run begins at the new size. -/
theorem file_stream.Stored.shrink_frees_tail_iff (hs : data.Stored volume ds is runs arrays)
    (hcounts : volume.Counts frees) (hlow : 10 ≤ volume.BlockShift) (hhigh : volume.BlockShift ≤ 13)
    (hsize : size < data.size) (s : σ) :
    FreesTail frees volume data ds is runs arrays size s (data.ShrinkStream volume size s) ↔
      data.max_indirect_range + (arrays.length - 1) * volume.indirectSize < size ∧
        ¬volume.directSize ∣ size - data.max_indirect_range := by
  have hend := Nat.lt_of_lt_of_le hsize hs.size_le
  constructor
  · intro h
    by_cases hlast : data.max_indirect_range + (arrays.length - 1) * volume.indirectSize < size
    · exact ⟨hlast, fun hdvd => hs.not_covered hcounts hlow hhigh (by omega) hend hdvd s h⟩
    · exact absurd h (hs.not_freed hcounts hlow hhigh hend (by omega) s)
  · rintro ⟨hlast, hdvd⟩
    exact hs.freesTail hcounts hlow hhigh hend hlast hdvd s

end

/-! ## A small file -/

/-- A volume that records what is freed, with a file's double indirect blocks at 140 and their
array at 150. -/
def recordingVolume : BlockVolume (List block_run) where
  BlockShift := 10
  FreeBlocks _ := 0
  Allocate _ _ _ _ := none
  Free s run := run :: s
  AllocationGroupShift := 13
  AllocationGroups := 1
  runsAt block :=
    if block = 140 then some (⟨0, 150, 4⟩ :: List.replicate 127 block_run.zero)
    else if block = 150 then
      some (⟨0, 160, 4⟩ :: ⟨0, 164, 4⟩ :: List.replicate 126 block_run.zero)
    else some (List.replicate 128 block_run.zero)

def twoRunsDirect : List block_run := (List.range 12).map fun k => ⟨0, 100 + k, 1⟩

/-- A file with two runs in its double indirect range. -/
def twoRuns : file_stream where
  direct := twoRunsDirect
  max_direct_range := 12288
  indirect := ⟨0, 130, 4⟩
  max_indirect_range := 13312
  size := 21504
  arrays := (⟨0, 120, 1⟩ :: List.replicate 127 block_run.zero) ::
    List.replicate 3 (List.replicate 128 block_run.zero)
  double_indirect := ⟨0, 140, 4⟩
  max_double_indirect_range := 21504

theorem recordingVolume_counts : recordingVolume.Counts cover :=
  fun s run group i => cover_cons run s group i

theorem twoRuns_valid :
    twoRuns.todata_stream.Valid recordingVolume.toAllocator twoRunsDirect [⟨0, 120, 1⟩] where
  direct_ok run hrun := by
    obtain ⟨k, hk, rfl⟩ := mem_map.1 hrun
    have := mem_range.1 hk
    exact ⟨Nat.one_pos, Nat.lt_of_sub_eq_succ rfl, by simp only; omega⟩
  indirect_ok run hrun := by
    obtain rfl := mem_singleton.1 hrun
    exact ⟨by decide, by decide, by decide⟩
  direct_le := by decide
  direct_eq := by decide
  direct_range := by decide
  no_indirect := nofun
  has_indirect _ := ⟨rfl, rfl, by decide, 511, by decide +kernel⟩

theorem twoRuns_double : twoRuns.DoubleRange recordingVolume [⟨0, 160, 4⟩, ⟨0, 164, 4⟩] where
  length_four := by decide
  range := by decide
  length_lt := by decide
  length_le := by decide
  tables k run hrun := by
    obtain ⟨hk, -⟩ := List.getElem?_eq_some_iff.1 hrun
    obtain rfl | rfl : k = 0 ∨ k = 1 := by
      simp only [length_cons, length_nil] at hk
      omega
    all_goals
      cases hrun
      exact ⟨_, ⟨0, 150, 4⟩, _, rfl, by decide, rfl, rfl, by decide⟩

theorem twoRuns_stored : twoRuns.Stored recordingVolume twoRunsDirect [⟨0, 120, 1⟩]
    [⟨0, 160, 4⟩, ⟨0, 164, 4⟩] [⟨0, 150, 4⟩] where
  wellFormed :=
    { valid := twoRuns_valid
      indirect_ne := nofun
      double := twoRuns_double
      on_volume := by decide +kernel
      once := by decide +kernel }
  runs_ne := nofun
  arrays_four := by decide
  runs_le := by decide
  arrays_needed := by decide
  top := by
    unfold BlockVolume.Stores
    decide +kernel
  second j array harray := by
    obtain ⟨hj, -⟩ := List.getElem?_eq_some_iff.1 harray
    obtain rfl : j = 0 := by simpa using hj
    cases harray
    unfold BlockVolume.Stores
    decide +kernel
  on_volume := by decide +kernel
  once := by decide +kernel
  size_le := by decide

/-- When the whole double indirect range is cut off, its array stays in use. -/
theorem array_never_freed : twoRuns.Stored recordingVolume twoRunsDirect [⟨0, 120, 1⟩]
      [⟨0, 160, 4⟩, ⟨0, 164, 4⟩] [⟨0, 150, 4⟩] ∧ 13312 < twoRuns.size ∧
    ¬FreesTail cover recordingVolume twoRuns twoRunsDirect [⟨0, 120, 1⟩]
      [⟨0, 160, 4⟩, ⟨0, 164, 4⟩] [⟨0, 150, 4⟩] 13312 []
      (twoRuns.ShrinkStream recordingVolume 13312 []) :=
  ⟨twoRuns_stored, by decide, twoRuns_stored.not_freed recordingVolume_counts (by decide) (by decide)
    (by decide) (by decide) []⟩

/-- Cutting the file within its first run of the range frees the second. -/
theorem second_run_freed : FreesTail cover recordingVolume twoRuns twoRunsDirect [⟨0, 120, 1⟩]
    [⟨0, 160, 4⟩, ⟨0, 164, 4⟩] [⟨0, 150, 4⟩] 17000 []
    (twoRuns.ShrinkStream recordingVolume 17000 []) :=
  (twoRuns_stored.shrink_frees_tail_iff recordingVolume_counts (by decide) (by decide) (by decide)
    []).2 ⟨by decide, by decide⟩

end BFS
