import OpenBeOS.BFS.ShrinkDouble

/-! # What shrinking frees of the double indirect range

`FreeStaticStreamArray()` passes the runs of the double indirect range in their order, from the one
with `size` in it on. `Swept` describes the state in between by how many arrays and how many runs it
has passed.
-/

namespace BFS

open List

variable {σ : Type}

/-- `frees` counts how often each block has been freed. -/
def Allocator.Counts (volume : Allocator σ) (frees : σ → Int → Nat → Nat) : Prop :=
  ∀ s run group i, frees (volume.Free s run) group i =
    frees s group i + if run.Contains group i then 1 else 0

/-! ## Runs that have no block in common -/

/-- The runs have no block in common. -/
def block_run.Apart (run run' : block_run) : Prop :=
  ∀ group i, run.Contains group i → ¬run'.Contains group i

variable {runs : List block_run} {run run' : block_run}

theorem block_run.Apart.symm (h : run.Apart run') : run'.Apart run :=
  fun group i h' hrun => h group i hrun h'

theorem pairwise_apart (h : (blockList runs).Nodup) : runs.Pairwise block_run.Apart := by
  rw [blockList, nodup_flatMap] at h
  refine h.2.imp fun {run run'} hdisjoint group i hrun hrun' => ?_
  exact hdisjoint (mem_runBlocks.2 hrun) (mem_runBlocks.2 hrun')

theorem apart_of_getElem? (h : runs.Pairwise block_run.Apart) {u u' : Nat} (hrun : runs[u]? = some run) (hrun' : runs[u']? = some run')
    (hne : u ≠ u') : run.Apart run' := by
  obtain ⟨hu, rfl⟩ := List.getElem?_eq_some_iff.1 hrun
  obtain ⟨hu', rfl⟩ := List.getElem?_eq_some_iff.1 hrun'
  have hpair := pairwise_iff_getElem.1 h
  rcases Nat.lt_or_gt_of_ne hne with hlt | hlt
  · exact hpair u u' hu hu' hlt
  · exact (hpair u' u hu' hu hlt).symm

theorem cover_eq_zero {group : Int} {i : Nat}
    (h : ∀ run ∈ runs, ¬run.Contains group i) : cover runs group i = 0 := by
  rw [cover, countP_eq_zero]
  intro run hrun
  simpa using h run hrun

/-! ## Block numbers -/

theorem ToBlock_of_valid {volume : BlockVolume σ} {run : block_run}
    (h : volume.IsValidBlockRun run = .B_OK) :
    volume.ToBlock run = run.allocation_group * 2 ^ volume.AllocationGroupShift + run.start ∧
      run.start + run.length ≤ 2 ^ volume.AllocationGroupShift := by
  unfold BlockVolume.IsValidBlockRun at h
  split at h
  · cases h
  · rename_i hvalid
    obtain ⟨group, hgroup⟩ := Int.eq_ofNat_of_zero_le (show 0 ≤ run.allocation_group by omega)
    refine ⟨?_, by omega⟩
    have hor : 2 ^ volume.AllocationGroupShift * group + run.start =
        2 ^ volume.AllocationGroupShift * group ||| run.start :=
      Nat.two_pow_add_eq_or_of_lt (by omega) group
    unfold BlockVolume.ToBlock
    rw [hgroup, Int.mul_comm]
    have hcast : (2 : Int) ^ volume.AllocationGroupShift * group =
        ((2 ^ volume.AllocationGroupShift * group : Nat) : Int) := by push_cast; rfl
    rw [hcast, ← Nat.cast_add, hor]
    rfl

/-- Runs apart lie in different blocks of the volume. -/
theorem ToBlock_ne {volume : BlockVolume σ}
    (h : volume.IsValidBlockRun run = .B_OK) (h' : volume.IsValidBlockRun run' = .B_OK)
    (hapart : run.Apart run') {x y : Nat} (hx : x < run.length) (hy : y < run'.length) :
    volume.ToBlock run + x ≠ volume.ToBlock run' + y := by
  obtain ⟨heq, hle⟩ := ToBlock_of_valid h
  obtain ⟨heq', hle'⟩ := ToBlock_of_valid h'
  intro hsame
  rw [heq, heq', Int.add_assoc, Int.add_assoc] at hsame
  have hlt : (run.start : Int) + x < 2 ^ volume.AllocationGroupShift := by
    exact_mod_cast (show run.start + x < 2 ^ volume.AllocationGroupShift by omega)
  have hlt' : (run'.start : Int) + y < 2 ^ volume.AllocationGroupShift := by
    exact_mod_cast (show run'.start + y < 2 ^ volume.AllocationGroupShift by omega)
  generalize (2 : Int) ^ volume.AllocationGroupShift = size at *
  have hgroup : run.allocation_group = run'.allocation_group := by
    have hdiv := congrArg (· / size) hsame
    rw [Int.mul_comm, Int.mul_comm run'.allocation_group, Int.mul_add_ediv_left _ _ (by omega),
      Int.mul_add_ediv_left _ _ (by omega), Int.ediv_eq_zero_of_lt (by omega) hlt,
      Int.ediv_eq_zero_of_lt (by omega) hlt'] at hdiv
    omega
  rw [hgroup] at hsame
  exact hapart run.allocation_group (run.start + x) ⟨rfl, by omega, by omega⟩
    ⟨hgroup.symm, by omega, by omega⟩

/-! ## Well-formed streams -/

/-- The entries of the array are these runs, and behind them there are only unused ones. -/
def BlockVolume.Stores (volume : BlockVolume σ) (table : block_run) (runs : List block_run) : Prop :=
  ∀ k < table.length * volume.numberOfRuns, tableEntry volume.runsAt volume.numberOfRuns
    (volume.ToBlock table) k = some (runs.getD k block_run.zero)

/-- A well-formed stream that uses its double indirect range: the runs in it are stored in
`arrays`, which are as many as needed, and these in the blocks of `double_indirect`. No block is
used twice. -/
structure file_stream.Stored (volume : BlockVolume σ) (data : file_stream)
    (ds is runs arrays : List block_run) : Prop where
  wellFormed : data.WellFormed volume ds is runs
  runs_ne : runs ≠ []
  arrays_four : ∀ array ∈ arrays, array.length = 4
  runs_le : runs.length ≤ arrays.length * volume.runsPerEntry
  arrays_needed : (arrays.length - 1) * volume.runsPerEntry < runs.length
  top : volume.Stores data.double_indirect arrays
  second : ∀ j array, arrays[j]? = some array →
    volume.Stores array ((runs.drop (j * volume.runsPerEntry)).take volume.runsPerEntry)
  on_volume : ∀ run ∈ data.indirect :: data.double_indirect :: arrays,
    volume.IsValidBlockRun run = .B_OK
  once : (blockList (ds ++ is ++ runs ++ data.indirect :: data.double_indirect :: arrays)).Nodup
  size_le : data.size ≤ data.max_double_indirect_range

section

variable {volume : BlockVolume σ} {data : file_stream} {ds is runs arrays : List block_run}

theorem file_stream.Stored.apart_arrays (h : data.Stored volume ds is runs arrays) {u u' : Nat}
    {array array' : block_run} (harray : arrays[u]? = some array)
    (harray' : arrays[u']? = some array') (hne : u ≠ u') : array.Apart array' := by
  have hpair := (pairwise_append.1 (pairwise_apart h.once)).2.1
  exact apart_of_getElem? (pairwise_cons.1 (pairwise_cons.1 hpair).2).2 harray harray' hne

variable {array : block_run}

theorem file_stream.Stored.apart_double (h : data.Stored volume ds is runs arrays) (harray : array ∈ arrays) : data.double_indirect.Apart array := by
  have hpair := (pairwise_append.1 (pairwise_apart h.once)).2.1
  exact (pairwise_cons.1 (pairwise_cons.1 hpair).2).1 array harray

theorem file_stream.Stored.arrays_ne (h : data.Stored volume ds is runs arrays) : arrays ≠ [] := by
  rintro rfl
  have hle := h.runs_le
  rw [length_nil, Nat.zero_mul] at hle
  exact h.runs_ne (length_eq_zero_iff.1 (by omega))

theorem getD_isZero {runs : List block_run} (hfour : ∀ run ∈ runs, run.length = 4) (k : Nat) :
    (runs.getD k block_run.zero).IsZero = true ↔ runs.length ≤ k := by
  rw [getD_eq_getElem?_getD]
  constructor
  · intro hzero
    by_contra hlt
    rw [List.getElem?_eq_getElem (by omega), Option.getD_some] at hzero
    have := hfour _ (getElem_mem (show k < runs.length by omega))
    simp only [block_run.IsZero, decide_eq_true_eq] at hzero
    omega
  · intro hle
    rw [List.getElem?_eq_none hle]
    rfl

/-! ## The runs that are kept -/

/-- The number of the run of the double indirect range with `size` in it. -/
def firstRun (volume : BlockVolume σ) (data : file_stream) (size : Nat) : Nat :=
  (size - data.max_indirect_range) / volume.directSize

/-- How many runs of the double indirect range begin below `size`. -/
def keptRuns (volume : BlockVolume σ) (data : file_stream) (size : Nat) : Nat :=
  (size - data.max_indirect_range + volume.directSize - 1) / volume.directSize

theorem keptRuns_le_iff (hpos : 0 < volume.directSize) (size k : Nat) :
    keptRuns volume data size ≤ k ↔ size ≤ data.max_indirect_range + k * volume.directSize := by
  rw [keptRuns, ← Nat.lt_add_one_iff, Nat.div_lt_iff_lt_mul hpos, Nat.add_mul, Nat.one_mul]
  omega

theorem firstRun_le_keptRuns (hpos : 0 < volume.directSize) (size : Nat) :
    firstRun volume data size ≤ keptRuns volume data size ∧
      keptRuns volume data size ≤ firstRun volume data size + 1 := by
  refine ⟨Nat.div_le_div_right (by omega), ?_⟩
  rw [keptRuns_le_iff hpos]
  have hdiv := Nat.div_add_mod (size - data.max_indirect_range) volume.directSize
  have hmod := Nat.mod_lt (size - data.max_indirect_range) hpos
  rw [firstRun, Nat.add_mul, Nat.one_mul, Nat.mul_comm]
  omega

theorem firstRun_lt_keptRuns (hpos : 0 < volume.directSize) (size : Nat) :
    firstRun volume data size < keptRuns volume data size ↔
      ¬volume.directSize ∣ size - data.max_indirect_range := by
  have hiff := @keptRuns_le_iff _ volume data hpos size (firstRun volume data size)
  have hdiv := Nat.div_add_mod (size - data.max_indirect_range) volume.directSize
  rw [Nat.dvd_iff_mod_eq_zero, ← Nat.not_le, hiff, firstRun, Nat.mul_comm]
  omega

/-! ## The state in between -/

variable {frees : σ → Int → Nat → Nat} {size : Nat} {s : σ} {j k : Nat} {st : FreeState σ}

/-- `j` arrays and `k` runs of the double indirect range have been passed: those behind `size` are
cleared, and their runs are freed. -/
structure Swept (volume : BlockVolume σ) (data : file_stream) (runs arrays : List block_run)
    (frees : σ → Int → Nat → Nat) (size : Nat) (s : σ) (j k : Nat) (st : FreeState σ) : Prop where
  top : ∀ u < data.double_indirect.length * volume.numberOfRuns,
    tableEntry st.blocks volume.numberOfRuns (volume.ToBlock data.double_indirect) u =
      some (if keptRuns volume data size ≤ u * volume.runsPerEntry ∧ u < j then block_run.zero
        else arrays.getD u block_run.zero)
  second : ∀ u array, arrays[u]? = some array → ∀ t < volume.runsPerEntry,
    tableEntry st.blocks volume.numberOfRuns (volume.ToBlock array) t =
      some (if keptRuns volume data size ≤ u * volume.runsPerEntry + t ∧
          u * volume.runsPerEntry + t < k then block_run.zero
        else runs.getD (u * volume.runsPerEntry + t) block_run.zero)
  freed : ∀ group i, frees st.allocator group i =
    frees s group i + cover ((runs.take k).drop (keptRuns volume data size)) group i
  max : st.max =
    if firstRun volume data size < keptRuns volume data size ∧ keptRuns volume data size ≤ k then
      data.max_indirect_range + keptRuns volume data size * volume.directSize
    else data.max_double_indirect_range

theorem Swept.beyond (h : Swept volume data runs arrays frees size s j k st) (hk : runs.length ≤ k)
    (hkept : keptRuns volume data size ≤ runs.length) {k' : Nat} (hle : k ≤ k') :
    Swept volume data runs arrays frees size s j k' st where
  top := h.top
  second u array harray t ht := by
    rw [h.second u array harray t ht]
    by_cases hbehind : runs.length ≤ u * volume.runsPerEntry + t
    · rw [getD_eq_getElem?_getD, List.getElem?_eq_none hbehind, Option.getD_none]
      simp
    · simp only [show u * volume.runsPerEntry + t < k by omega,
        show u * volume.runsPerEntry + t < k' by omega]
  freed group i := by
    rw [h.freed, take_of_length_le hk, take_of_length_le (by omega)]
  max := by
    rw [h.max]
    congr 1
    simp only [show keptRuns volume data size ≤ k by omega,
      show keptRuns volume data size ≤ k' by omega]

theorem Swept.run_below (h : Swept volume data runs arrays frees size s j k st)
    (hpos : 0 < volume.directSize) (hfirst : firstRun volume data size ≤ k)
    (hk : k < keptRuns volume data size) :
    Swept volume data runs arrays frees size s j (k + 1)
      { st with max := data.max_indirect_range + k * volume.directSize + volume.directSize } where
  top := h.top
  second u array harray t ht := by
    rw [h.second u array harray t ht, if_neg (by omega), if_neg (by omega)]
  freed group i := by
    rw [h.freed, drop_eq_nil_of_le (by rw [length_take]; omega),
      drop_eq_nil_of_le (by rw [length_take]; omega)]
  max := by
    have := (@firstRun_le_keptRuns _ volume data hpos size).2
    rw [if_pos (by omega), show keptRuns volume data size = k + 1 by omega, Nat.add_mul,
      Nat.one_mul, Nat.add_assoc]

/-- A run behind `size` is passed: it is freed, and its entry cleared. -/
theorem Swept.run_behind (h : Swept volume data runs arrays frees size s j k st)
    (hs : data.Stored volume ds is runs arrays) (hcounts : volume.Counts frees)
    (hk : keptRuns volume data size ≤ k) {u t : Nat}
    (harray : arrays[u]? = some array) (ht : t < volume.runsPerEntry)
    (hplace : k = u * volume.runsPerEntry + t) {run : block_run} (hrun : runs[k]? = some run) :
    Swept volume data runs arrays frees size s j (k + 1)
      { st with
        blocks := clearEntry st.blocks
          (volume.ToBlock array + (t / volume.numberOfRuns : Nat)) (t % volume.numberOfRuns)
        allocator := volume.Free st.allocator run } := by
  have hnumber : 0 < volume.numberOfRuns := Nat.pos_of_mul_pos_left (Nat.zero_lt_of_lt ht)
  have hblock : ∀ {x}, x < volume.runsPerEntry → x / volume.numberOfRuns < 4 := fun hx =>
    (Nat.div_lt_iff_lt_mul hnumber).2 hx
  have hmem := mem_of_getElem? harray
  have hfour := hs.arrays_four array hmem
  have hvalid := hs.on_volume array (by simp [hmem])
  constructor
  · intro v hv
    have hdouble := hs.on_volume data.double_indirect (by simp)
    have hne := ToBlock_ne hdouble hvalid (hs.apart_double hmem)
      ((Nat.div_lt_iff_lt_mul hnumber).2 hv) (hfour ▸ hblock ht)
    rw [tableEntry_clearEntry, if_neg fun hsame => hne hsame.1]
    exact h.top v hv
  · intro v array' harray' x hx
    have hmem' := mem_of_getElem? harray'
    have hfour' := hs.arrays_four array' hmem'
    rw [tableEntry_clearEntry, h.second v array' harray' x hx]
    by_cases hv : v = u
    · -- the same array
      subst hv
      obtain rfl : array' = array := Option.some.inj (harray'.symm.trans harray)
      by_cases hx' : x = t
      · rw [if_pos ⟨by rw [hx'], by rw [hx']⟩, Option.map_some, if_pos (by omega)]
      · have hne : ¬(volume.ToBlock array' + (x / volume.numberOfRuns : Nat) =
            volume.ToBlock array' + (t / volume.numberOfRuns : Nat) ∧
            x % volume.numberOfRuns = t % volume.numberOfRuns) := by
          rintro ⟨hblock, hindex⟩
          exact hx' (Nat.ext_div_mod (by omega) hindex)
        rw [if_neg hne]
        congr 2
        simp only [eq_iff_iff, and_congr_right_iff]
        omega
    · have hne := ToBlock_ne (hs.on_volume array' (by simp [hmem'])) hvalid
        (hs.apart_arrays harray' harray hv) (hfour' ▸ hblock hx) (hfour ▸ hblock ht)
      rw [if_neg fun hsame => hne hsame.1]
      congr 2
      have hother : v * volume.runsPerEntry + x ≠ k := by
        rw [hplace]
        intro heq
        have hv' := congrArg (· / volume.runsPerEntry) heq
        rw [Nat.mul_comm, Nat.mul_comm u, Nat.mul_add_div (by omega), Nat.mul_add_div (by omega),
          Nat.div_eq_of_lt hx, Nat.div_eq_of_lt ht] at hv'
        exact hv hv'
      simp only [eq_iff_iff, and_congr_right_iff]
      omega
  · intro group i
    rw [hcounts, h.freed, take_add_one, hrun, Option.toList_some, drop_append,
      cover_append, length_take]
    obtain ⟨hlt, -⟩ := List.getElem?_eq_some_iff.1 hrun
    rw [show keptRuns volume data size - min k runs.length = 0 by omega, drop_zero,
      cover_cons, cover_nil, Nat.zero_add, Nat.add_assoc]
  · rw [h.max]
    congr 1
    simp only [hk, show keptRuns volume data size ≤ k + 1 by omega]

theorem Swept.array_below (h : Swept volume data runs arrays frees size s j k st)
    (hj : j * volume.runsPerEntry < keptRuns volume data size) :
    Swept volume data runs arrays frees size s (j + 1) k st where
  top u hu := by
    rw [h.top u hu]
    congr 2
    have : u = j → ¬keptRuns volume data size ≤ u * volume.runsPerEntry := by
      rintro rfl
      omega
    simp only [eq_iff_iff, and_congr_right_iff]
    omega
  second := h.second
  freed := h.freed
  max := h.max

/-- An array without a run below `size` is passed: its entry is cleared. -/
theorem Swept.array_behind (h : Swept volume data runs arrays frees size s j k st)
    (hs : data.Stored volume ds is runs arrays)
    (hj : keptRuns volume data size ≤ j * volume.runsPerEntry)
    (hlt : j < data.double_indirect.length * volume.numberOfRuns) :
    Swept volume data runs arrays frees size s (j + 1) k
      { st with
        blocks := clearEntry st.blocks (volume.ToBlock data.double_indirect +
          (j / volume.numberOfRuns : Nat)) (j % volume.numberOfRuns) } := by
  have hnumber : 0 < volume.numberOfRuns := Nat.pos_of_mul_pos_left (Nat.zero_lt_of_lt hlt)
  have hdouble := hs.on_volume data.double_indirect (by simp)
  constructor
  · intro u hu
    rw [tableEntry_clearEntry, h.top u hu]
    by_cases hu' : u = j
    · rw [if_pos ⟨by rw [hu'], by rw [hu']⟩, Option.map_some, if_pos (by rw [hu']; omega)]
    · have hne : ¬(volume.ToBlock data.double_indirect + (u / volume.numberOfRuns : Nat) =
          volume.ToBlock data.double_indirect + (j / volume.numberOfRuns : Nat) ∧
          u % volume.numberOfRuns = j % volume.numberOfRuns) := by
        rintro ⟨hblock, hindex⟩
        exact hu' (Nat.ext_div_mod (by omega) hindex)
      rw [if_neg hne]
      congr 2
      simp only [eq_iff_iff, and_congr_right_iff]
      omega
  · intro u array harray t ht
    have hmem := mem_of_getElem? harray
    have hfour := hs.arrays_four array hmem
    have hne := ToBlock_ne hdouble (hs.on_volume array (by simp [hmem])) (hs.apart_double hmem)
      ((Nat.div_lt_iff_lt_mul hnumber).2 hlt) (hfour ▸ (Nat.div_lt_iff_lt_mul hnumber).2 ht)
    rw [tableEntry_clearEntry, if_neg fun hsame => hne hsame.1.symm]
    exact h.second u array harray t ht
  · exact h.freed
  · exact h.max

/-! ## The two levels -/

theorem keptRuns_le_length (hpos : 0 < volume.directSize)
    (h : data.DoubleRange volume runs) (hdirect : volume.directSize = 4 * volume.BlockSize)
    (hne : runs ≠ []) (hsize : size < data.max_double_indirect_range) :
    keptRuns volume data size ≤ runs.length ∧ firstRun volume data size < runs.length := by
  have hrange := h.range
  rw [blocksOf_four h.length_four, Nat.mul_comm 4, Nat.mul_assoc, ← hdirect] at hrange
  have hlength := Nat.mul_pos (length_pos_iff.2 hne) hpos
  refine ⟨(keptRuns_le_iff hpos size runs.length).2 (by omega), ?_⟩
  rw [firstRun, Nat.div_lt_iff_lt_mul hpos]
  omega

section

variable (hs : data.Stored volume ds is runs arrays)
include hs

/-- **Level 1.** All the runs of an array are passed. -/
theorem file_stream.Stored.sweepArray
    (hcounts : volume.Counts frees) (hlow : 10 ≤ volume.BlockShift) (hhigh : volume.BlockShift ≤ 13)
    (hkept : keptRuns volume data size ≤ runs.length)
    (harray : arrays[j]? = some array)
    (hfirst : firstRun volume data size < (j + 1) * volume.runsPerEntry)
    (h : Swept volume data runs arrays frees size s j
      (max (j * volume.runsPerEntry) (firstRun volume data size)) st) :
    ∃ st', FreeStaticStreamArrayRuns volume size array
        (data.max_indirect_range + j * volume.indirectSize) st = (.B_OK, st') ∧
      Swept volume data runs arrays frees size s j ((j + 1) * volume.runsPerEntry) st' := by
  obtain ⟨hdirect, hindirect, hnumber, hnumber_le, -, -⟩ := indirectSize_eq hlow hhigh
  have hb := volume.BlockSize_pos
  have hpos : 0 < volume.directSize := by omega
  have hentry : array.length * volume.numberOfRuns = volume.runsPerEntry := by
    rw [hs.arrays_four array (mem_of_getElem? harray), BlockVolume.runsPerEntry]
  have hentry_le : volume.runsPerEntry ≤ 4 * 1024 := Nat.mul_le_mul_left 4 hnumber_le
  have hentry_pos : 0 < volume.runsPerEntry := Nat.mul_pos (by decide) hnumber
  rw [Nat.add_mul, Nat.one_mul] at hfirst ⊢
  -- the offset of an entry is that of its run
  have hoffset : ∀ t, data.max_indirect_range + j * volume.indirectSize + t * volume.directSize =
      data.max_indirect_range + (j * volume.runsPerEntry + t) * volume.directSize := by
    intro t
    rw [hindirect]
    ring
  have hstart : (size - (data.max_indirect_range + j * volume.indirectSize)) / volume.directSize =
      firstRun volume data size - j * volume.runsPerEntry := by
    rw [← Nat.sub_sub, hindirect, Nat.mul_left_comm, Nat.sub_mul_div, firstRun]
  have hlen := hs.wellFormed.double.length_four
  have hrule : LoopRule volume (freeRun volume size) volume.directSize size
      (data.max_indirect_range + j * volume.indirectSize) (array.length * volume.numberOfRuns)
      (volume.ToBlock array)
      (fun t st => Swept volume data runs arrays frees size s j (j * volume.runsPerEntry + t) st ∧
        firstRun volume data size ≤ j * volume.runsPerEntry + t)
      (Swept volume data runs arrays frees size s j
        (j * volume.runsPerEntry + volume.runsPerEntry)) := by
    rw [hentry]
    refine ⟨?_, fun st h => h.1⟩
    rintro t st ⟨h, hpast⟩ ht
    have hread := h.second j array harray t ht
    rw [if_neg (by omega)] at hread
    refine ⟨_, hread, fun hzero => ?_, fun hused => ?_⟩
    · rw [getD_isZero hlen] at hzero
      exact h.beyond hzero hkept (by omega)
    · have hlt : j * volume.runsPerEntry + t < runs.length := by
        by_contra hbehind
        rw [(getD_isZero hlen _).2 (by omega)] at hused
        cases hused
      have hrun : runs[j * volume.runsPerEntry + t]? =
          some (runs.getD (j * volume.runsPerEntry + t) block_run.zero) := by
        rw [getD_eq_getElem?_getD, List.getElem?_eq_getElem hlt, Option.getD_some]
      have hiff := @keptRuns_le_iff _ volume data hpos size (j * volume.runsPerEntry + t)
      rw [hoffset, freeRun]
      by_cases hbehind : size ≤
          data.max_indirect_range + (j * volume.runsPerEntry + t) * volume.directSize
      · rw [if_pos hbehind]
        refine ⟨_, rfl, ?_, by omega⟩
        rw [FreeState.leave, if_pos hbehind]
        exact h.run_behind hs hcounts (hiff.2 hbehind) harray ht rfl hrun
      · rw [if_neg hbehind]
        refine ⟨_, rfl, ?_, by omega⟩
        rw [FreeState.leave, if_neg hbehind]
        exact h.run_below hpos hpast (by omega)
  refine hrule.overArray (by rw [hstart]; omega) (by rw [hstart]; omega) ?_
  have hmax : j * volume.runsPerEntry + (firstRun volume data size - j * volume.runsPerEntry) =
      max (j * volume.runsPerEntry) (firstRun volume data size) := by omega
  rw [hstart, hmax]
  exact ⟨h, by omega⟩

/-- Before the first entry nothing has changed. -/
theorem file_stream.Stored.sweptStart
    (hpos : 0 < volume.directSize) (hnumber : 0 < volume.numberOfRuns) :
    Swept volume data runs arrays frees size s (firstRun volume data size / volume.runsPerEntry)
      (firstRun volume data size) ⟨volume.runsAt, data.max_double_indirect_range, s⟩ := by
  have hentry_pos : 0 < volume.runsPerEntry := Nat.mul_pos (by decide) hnumber
  have hle := (@firstRun_le_keptRuns _ volume data hpos size).1
  constructor
  · intro u hu
    rw [if_neg, hs.top u hu]
    rintro ⟨hbehind, hlt⟩
    have hmul := Nat.div_mul_le_self (firstRun volume data size) volume.runsPerEntry
    have hmul' := Nat.mul_le_mul_right volume.runsPerEntry (show u + 1 ≤ _ from hlt)
    rw [Nat.add_mul] at hmul'
    omega
  · intro u array harray t ht
    rw [if_neg (by omega)]
    have hfour := hs.arrays_four array (mem_of_getElem? harray)
    rw [hs.second u array harray t (by rw [hfour]; exact ht), getD_eq_getElem?_getD,
      getD_eq_getElem?_getD, List.getElem?_take_of_lt ht, List.getElem?_drop]
  · intro group i
    rw [drop_eq_nil_of_le (by rw [length_take]; omega), cover_nil, Nat.add_zero]
  · rw [if_neg (by omega)]

/-- **Level 0.** All the runs of the double indirect range are passed. -/
theorem file_stream.Stored.sweep
    (hcounts : volume.Counts frees) (hlow : 10 ≤ volume.BlockShift) (hhigh : volume.BlockShift ≤ 13)
    (hsize : size < data.max_double_indirect_range) (s : σ) :
    ∃ st, FreeStaticStreamArray volume size data.double_indirect data.max_indirect_range
        ⟨volume.runsAt, data.max_double_indirect_range, s⟩ = (.B_OK, st) ∧
      ∃ j k, runs.length ≤ k ∧ Swept volume data runs arrays frees size s j k st := by
  obtain ⟨hdirect, hindirect, hnumber, hnumber_le, -, -⟩ := indirectSize_eq hlow hhigh
  have hb := volume.BlockSize_pos
  have hpos : 0 < volume.directSize := by omega
  have hentry_pos : 0 < volume.runsPerEntry := Nat.mul_pos (by decide) hnumber
  obtain ⟨hkept, hfirst⟩ := keptRuns_le_length hpos hs.wellFormed.double hdirect hs.runs_ne hsize
  have hneeded := hs.arrays_needed
  have hle := hs.runs_le
  -- there is an entry for every array
  have harrays : arrays.length ≤ data.double_indirect.length * volume.numberOfRuns := by
    have hlength := hs.wellFormed.double.length_le
    by_contra hmore
    have := Nat.mul_le_mul_right volume.runsPerEntry (show
      data.double_indirect.length * volume.numberOfRuns ≤ arrays.length - 1 by omega)
    omega
  have hindex : (size - data.max_indirect_range) / volume.indirectSize =
      firstRun volume data size / volume.runsPerEntry := by
    rw [firstRun, Nat.div_div_eq_div_mul, hindirect]
  have hindex_lt : firstRun volume data size / volume.runsPerEntry < arrays.length :=
    (Nat.div_lt_iff_lt_mul hentry_pos).2 (by omega)
  have hsmall : data.double_indirect.length * volume.numberOfRuns < 2 ^ 31 := by
    have := Nat.mul_le_mul (Nat.le_of_lt hs.wellFormed.double.length_lt) hnumber_le
    omega
  have hrule : LoopRule volume (FreeStaticStreamArrayRuns volume size) volume.indirectSize size
      data.max_indirect_range (data.double_indirect.length * volume.numberOfRuns)
      (volume.ToBlock data.double_indirect)
      (fun j st => Swept volume data runs arrays frees size s j
          (max (j * volume.runsPerEntry) (firstRun volume data size)) st ∧
        firstRun volume data size < (j + 1) * volume.runsPerEntry)
      (fun st => ∃ j k, runs.length ≤ k ∧ Swept volume data runs arrays frees size s j k st) := by
    constructor
    · rintro j st ⟨h, hnext⟩ hj
      have hread := h.top j hj
      rw [if_neg (by omega)] at hread
      have hbehind : (arrays.getD j block_run.zero).IsZero = true ↔ arrays.length ≤ j :=
        getD_isZero hs.arrays_four j
      refine ⟨_, hread, fun hzero => ?_, fun hused => ?_⟩
      · have := Nat.mul_le_mul_right volume.runsPerEntry (hbehind.1 hzero)
        exact ⟨j, _, by omega, h⟩
      · have hlt : j < arrays.length := by
          by_contra hend
          rw [hbehind.2 (by omega)] at hused
          cases hused
        have harray : arrays[j]? = some (arrays.getD j block_run.zero) := by
          rw [getD_eq_getElem?_getD, List.getElem?_eq_getElem hlt, Option.getD_some]
        obtain ⟨st', heq, h'⟩ := hs.sweepArray hcounts hlow hhigh hkept harray hnext h
        refine ⟨st', heq, ?_, ?_⟩
        · have hmax : max ((j + 1) * volume.runsPerEntry) (firstRun volume data size) =
              (j + 1) * volume.runsPerEntry := by omega
          have hiff := @keptRuns_le_iff _ volume data hpos size (j * volume.runsPerEntry)
          rw [Nat.mul_assoc, Nat.mul_comm volume.runsPerEntry, ← hindirect] at hiff
          rw [hmax, FreeState.leave]
          by_cases hall : size ≤ data.max_indirect_range + j * volume.indirectSize
          · rw [if_pos hall]
            exact h'.array_behind hs (hiff.2 hall) hj
          · rw [if_neg hall]
            exact h'.array_below (by omega)
        · have := Nat.mul_le_mul_right volume.runsPerEntry (show j + 1 ≤ j + 1 + 1 by omega)
          omega
    · rintro st ⟨h, -⟩
      have := Nat.mul_le_mul_right volume.runsPerEntry harrays
      exact ⟨_, _, by omega, h⟩
  refine hrule.overArray (by omega) (by omega) ?_
  rw [hindex]
  have hmod := Nat.div_add_mod (firstRun volume data size) volume.runsPerEntry
  have hlt := Nat.mod_lt (firstRun volume data size) hentry_pos
  rw [Nat.mul_comm] at hmod
  have hmax : max (firstRun volume data size / volume.runsPerEntry * volume.runsPerEntry)
      (firstRun volume data size) = firstRun volume data size := by omega
  rw [hmax, Nat.add_mul, Nat.one_mul]
  exact ⟨hs.sweptStart hpos hnumber, by omega⟩

end

end

end BFS
