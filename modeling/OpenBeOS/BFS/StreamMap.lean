import OpenBeOS.BFS.StreamCalls

/-! # The blocks of a stream in their order

`blockList` is the list of the blocks of a stream's runs, in the order of the file. Growing a stream
puts the blocks of each new run behind it. Unlike in `StreamCalls.lean`, calls may lose a run here:
all that is needed is that merged lengths fit, and then the blocks of the streams stay distinct.
-/

namespace BFS

open Function List

/-! ## Blocks in their order -/

/-- The blocks of a run. -/
def runBlocks (run : block_run) : List (Int × Nat) :=
  (List.range run.length).map fun j => (run.allocation_group, run.start + j)

/-- The blocks of the runs. -/
def blockList (runs : List block_run) : List (Int × Nat) := runs.flatMap runBlocks

theorem length_runBlocks (run : block_run) : (runBlocks run).length = run.length := by
  rw [runBlocks, length_map, length_range]

theorem blockList_cons (run : block_run) (runs : List block_run) :
    blockList (run :: runs) = runBlocks run ++ blockList runs := flatMap_cons

theorem blockList_append (runs runs' : List block_run) :
    blockList (runs ++ runs') = blockList runs ++ blockList runs' := flatMap_append

theorem length_blockList (runs : List block_run) : (blockList runs).length = blocksOf runs := by
  induction runs with
  | nil => rfl
  | cons run runs ih => rw [blockList_cons, length_append, length_runBlocks, ih, blocksOf_cons]

theorem runBlocks_merge (group : Int) (start n m : Nat) :
    runBlocks ⟨group, start, n + m⟩ = runBlocks ⟨group, start, n⟩ ++ runBlocks ⟨group, start + n, m⟩ := by
  simp only [runBlocks]
  rw [range_add, map_append, map_map]
  congr 1
  refine map_congr_left fun j _ => ?_
  show (group, start + (n + j)) = (group, start + n + j)
  rw [Nat.add_assoc]

theorem getElem?_runBlocks {run : block_run} {j : Nat} (h : j < run.length) :
    (runBlocks run)[j]? = some (run.allocation_group, run.start + j) := by
  rw [runBlocks, List.getElem?_map, List.getElem?_range h]
  rfl

theorem nodup_runBlocks (run : block_run) : (runBlocks run).Nodup := by
  refine List.Nodup.map (fun a b hab => ?_) nodup_range
  have := congrArg Prod.snd hab
  simpa using this

theorem mem_runBlocks {run : block_run} {group : Int} {i : Nat} :
    (group, i) ∈ runBlocks run ↔ run.Contains group i := by
  simp only [runBlocks, mem_map, mem_range, Prod.mk.injEq, block_run.Contains]
  constructor
  · rintro ⟨j, hj, hgroup, hi⟩
    exact ⟨hgroup, by omega, by omega⟩
  · rintro ⟨hgroup, hle, hlt⟩
    exact ⟨i - run.start, by omega, hgroup, by omega⟩

theorem count_runBlocks (run : block_run) (group : Int) (i : Nat) :
    (runBlocks run).count (group, i) = if run.Contains group i then 1 else 0 := by
  by_cases hin : run.Contains group i
  · rw [if_pos hin]
    exact count_eq_one_of_mem (nodup_runBlocks run) (mem_runBlocks.2 hin)
  · rw [if_neg hin]
    exact count_eq_zero_of_not_mem fun h => hin (mem_runBlocks.1 h)

theorem count_blockList (runs : List block_run) (group : Int) (i : Nat) :
    (blockList runs).count (group, i) = cover runs group i := by
  induction runs with
  | nil => rfl
  | cons run runs ih =>
    rw [blockList_cons, count_append, count_runBlocks, ih, cover_cons]
    omega

theorem nodup_blockList {runs : List block_run} (h : ∀ group i, cover runs group i ≤ 1) :
    (blockList runs).Nodup := by
  rw [nodup_iff_count_le_one]
  rintro ⟨group, i⟩
  rw [count_blockList]
  exact h group i

/-! ## Growing, with runs that get lost -/

section

variable {σ : Type} {volume : Allocator σ} {used : σ → Int → Nat → Prop}
  {others : Int → Nat → Prop}

/-- If the stream has room for the run, its bytes are a `uint32`, and a merged length a `uint16`. -/
def RunFits (volume : Allocator σ) (data : data_stream) (run : block_run) : Prop :=
  run.length * volume.BlockSize < 2 ^ 32 ∧
    if findFree data.direct < NUM_DIRECT_BLOCKS then MergeFits data.direct run
    else data.indirect.IsZero = false →
      ∀ array, arrayWithRoom data.arrays = some array → MergeFits array run

theorem insertIndirect_none (run : block_run) :
    ∀ {arrays : List (List block_run)}, arrayWithRoom arrays = none →
      insertIndirect run arrays = none
  | [], _ => rfl
  | array :: arrays, h => by
    rw [arrayWithRoom, List.find?_cons] at h
    by_cases hroom : findFree array < array.length
    · rw [decide_eq_true hroom] at h
      cases h
    · rw [decide_eq_false hroom] at h
      rw [insertIndirect, if_neg hroom, insertIndirect_none run h]
      rfl

/-- A run that cannot be put into the stream is lost, and the stream stays as it was. -/
theorem distribute_lost {data : data_stream} {ds is : List block_run} {run : block_run} {s : σ}
    (h : data.Valid volume ds is) (hfits : RunFits volume data run)
    (hcan : ¬ CanDistribute volume data run s) (size : Nat) (blocksNeeded : Int) :
    ∃ status, status ≠ .B_OK ∧ distribute volume size blocksNeeded run data s = (status, data, s) := by
  obtain ⟨hbytes, hfits⟩ := hfits
  rw [CanDistribute] at hcan
  by_cases hdirect : findFree data.direct < NUM_DIRECT_BLOCKS
  · rw [if_pos hdirect] at hfits hcan
    exact absurd ⟨hbytes, hfits⟩ hcan
  rw [if_neg hdirect] at hfits hcan
  rw [distribute, if_neg fun hd => hdirect hd.2]
  by_cases hzero : data.indirect.IsZero = true
  · rw [if_pos hzero] at hcan
    have his : is = [] := by
      by_contra his
      rw [h.indirect_not_zero his] at hzero
      cases hzero
    have hnone : volume.Allocate s data 4 4 = none := by
      cases halloc : volume.Allocate s data 4 4 with
      | none => rfl
      | some r => exact absurd ⟨hbytes, by rw [halloc]; rfl⟩ hcan
    rw [if_pos (Or.inr (h.no_indirect his).2), if_pos hzero, hnone]
    exact ⟨.B_DEVICE_FULL, nofun, rfl⟩
  · rw [if_neg hzero] at hcan
    have hnone : arrayWithRoom data.arrays = none := by
      cases harray : arrayWithRoom data.arrays with
      | none => rfl
      | some array =>
        exact absurd ⟨hbytes, array, harray, hfits (by simpa using hzero) array harray⟩ hcan
    rw [insertIndirect_none run hnone, if_neg hzero]
    split
    · exact ⟨.EFBIG, nofun, rfl⟩
    · exact ⟨.EFBIG, nofun, rfl⟩

theorem Owns.lose {s : σ} {run : block_run} {runs : List block_run}
    (h : Owns used others s (run :: runs)) :
    Owns used (fun group i => others group i ∨ run.Contains group i) s runs := by
  intro group i
  have heq := h group i
  obtain ⟨hone, -, hothers⟩ := h.blocks group i
  rw [cover_cons] at heq hothers hone
  rw [heq]
  by_cases hin : run.Contains group i
  · rw [if_pos hin] at hone hothers ⊢
    rw [indicator_of_not (fun ho => by have := hothers ho; omega),
      indicator_of (Or.inr hin : others group i ∨ run.Contains group i)]
    omega
  · rw [if_neg hin, Nat.add_zero]
    congr 2
    exact propext ⟨Or.inl, fun ho => ho.resolve_right hin⟩

/-- Every run that `growLoop` allocates fits where there is room for it. -/
def LoopFits (volume : Allocator σ) (size : Nat) : Nat → Int → Int → data_stream → σ → Prop
  | 0, _, _, _, _ => True
  | fuel + 1, blocks, blocksNeeded, data, s =>
    blocksNeeded > 0 → ∀ run s', volume.Allocate s data blocks 1 = some (run, s') →
      RunFits volume data run ∧
        ∀ data' s'', distribute volume size (blocksNeeded - run.length) run data s' =
            (.B_OK, data', s'') →
          LoopFits volume size fuel (blocksNeeded - run.length) (blocksNeeded - run.length)
            data' s''

/-- The stream has grown as it should, or the run it could not take belongs to others. -/
def GrownOrLost (volume : Allocator σ) (used : σ → Int → Nat → Prop) (others : Int → Nat → Prop)
    (ds is : List block_run) (r : Status × data_stream × σ) (size : Nat) : Prop :=
  ∃ ds' is' bytes others', (∀ group i, others group i → others' group i) ∧
    Grown volume used others' ds is r.2.1 r.2.2 bytes ds' is' ∧
    (r.1 = .B_OK → r.2.1.size = size ∧ size ≤ capacity volume ds' is')

theorem growLoop_lost (hcorrect : volume.Correct used) (size fuel : Nat) :
    ∀ (blocks blocksNeeded : Int) (data : data_stream) (ds is : List block_run) (s : σ),
      data.Valid volume ds is → data.size ≤ capacity volume ds is →
      blocksNeeded.toNat ≤ fuel →
      size ≤ capacity volume ds is + blocksNeeded.toNat * volume.BlockSize →
      LoopFits volume size fuel blocks blocksNeeded data s →
      Owns used others s (ownedRuns data) →
      GrownOrLost volume used others ds is (growLoop volume size fuel blocks blocksNeeded data s)
        size := by
  induction fuel with
  | zero =>
    intro blocks blocksNeeded data ds is s h hsize hfuel htarget hclean ho
    refine ⟨ds, is, 0, others, fun _ _ h => h, .done h ho size, fun _ => ⟨rfl, ?_⟩⟩
    rw [Nat.le_zero.1 hfuel, Nat.zero_mul] at htarget
    exact htarget
  | succ fuel ih =>
    intro blocks blocksNeeded data ds is s h hsize hfuel htarget hclean ho
    rw [growLoop]
    by_cases hneeded : blocksNeeded > 0
    swap
    · rw [if_neg hneeded]
      refine ⟨ds, is, 0, others, fun _ _ h => h, .done h ho size, fun _ => ⟨rfl, ?_⟩⟩
      rw [show blocksNeeded.toNat = 0 by omega, Nat.zero_mul] at htarget
      exact htarget
    rw [if_pos hneeded]
    cases halloc : volume.Allocate s data blocks 1 with
    | none => exact ⟨ds, is, 0, others, fun _ _ h => h, ⟨h, ho, rfl⟩, fun hs => by cases hs⟩
    | some r =>
      obtain ⟨run, s'⟩ := r
      obtain ⟨hdist, hrest⟩ := hclean hneeded run s' halloc
      obtain ⟨hpos, -, -, hlt, hfits⟩ := hcorrect.allocate_length _ _ _ _ _ _ halloc
      have howned := ho.allocate hcorrect halloc
      by_cases hcan : CanDistribute volume data run s'
      swap
      · obtain ⟨status, hstatus, heq⟩ := distribute_lost h hdist hcan size
          (blocksNeeded - run.length)
        simp only [heq]
        cases status <;> first
          | exact absurd rfl hstatus
          | exact ⟨ds, is, 0, fun group i => others group i ∨ run.Contains group i,
              fun _ _ h => Or.inl h, ⟨h, howned.lose, rfl⟩, fun hs => by cases hs⟩
      obtain ⟨data', s'', ds', is', heq, hgrown, hsize'⟩ :=
        distribute_spec hcorrect size (blocksNeeded - run.length) run ⟨hpos, hlt, hfits⟩
          data ds is h hsize s' hcan howned
      obtain ⟨hle, hnext⟩ := hgrown.next hsize' htarget
      obtain ⟨ds'', is'', bytes, others', hothers, hgrown', hok⟩ := ih
        (blocksNeeded - run.length) (blocksNeeded - run.length) data' ds' is' s''
        hgrown.valid hle (by omega) hnext (hrest data' s'' heq) hgrown.owns
      simp only [heq]
      exact ⟨ds'', is'', run.length * volume.BlockSize + bytes, others', hothers,
        ⟨hgrown'.valid, hgrown'.owns, by rw [hgrown'.room, hgrown.room]; omega⟩, hok⟩

/-- The runs that a growing `SetFileSize()` allocates fit. -/
def StreamFits (volume : Allocator σ) (data : data_stream) (size : Nat) (s : σ) : Prop :=
  ¬(size < data.max_direct_range ∨ size < data.max_indirect_range) →
    ¬(volume.missingBlocks data size : Int) > volume.FreeBlocks s →
      LoopFits volume size (volume.missingBlocks data size)
        (volume.wantedBlocks (volume.missingBlocks data size) s) (volume.missingBlocks data size)
        data s

theorem GrowStream_lost (hcorrect : volume.Correct used) {data : data_stream}
    {ds is : List block_run} (h : data.Valid volume ds is)
    (hsize : data.size ≤ capacity volume ds is) {size : Nat} {s : σ}
    (hfits : StreamFits volume data size s) (ho : Owns used others s (ownedRuns data)) :
    GrownOrLost volume used others ds is (GrowStream volume data size s) size := by
  unfold GrowStream
  by_cases hlarge : size < data.max_direct_range ∨ size < data.max_indirect_range
  · rw [if_pos hlarge]
    exact ⟨ds, is, 0, others, fun _ _ h => h, .done h ho size,
      fun _ => ⟨rfl, le_capacity_of_range h hlarge⟩⟩
  · rw [if_neg hlarge]
    by_cases hfull : (volume.missingBlocks data size : Int) > volume.FreeBlocks s
    · simp only [if_pos hfull]
      exact ⟨ds, is, 0, others, fun _ _ h => h, ⟨h, ho, rfl⟩, fun hs => by cases hs⟩
    · simp only [if_neg hfull]
      refine growLoop_lost hcorrect size _ _ _ data ds is s h hsize (by omega) ?_
        (hfits hlarge hfull) ho
      rw [Int.toNat_natCast]
      exact missingBlocks_enough hcorrect h hsize size

theorem SetFileSize_lost (hcorrect : volume.Correct used) {data : data_stream}
    (h : data.Good volume) {size : Int} {s : σ}
    (hfits : size > data.size → StreamFits volume data size.toNat s)
    (ho : Owns used others s (ownedRuns data)) :
    (SetFileSize volume data size s).2.1.Good volume ∧
      ∃ others', (∀ group i, others group i → others' group i) ∧
        Owns used others' (SetFileSize volume data size s).2.2
          (ownedRuns (SetFileSize volume data size s).2.1) := by
  by_cases hgrow : size > data.size
  swap
  · -- nothing is allocated
    obtain ⟨hgood, ho', -⟩ := SetFileSize_good hcorrect data h size s (fun hs => absurd hs hgrow) ho
    exact ⟨hgood, others, fun _ _ h => h, ho'⟩
  obtain ⟨ds, is, hv, hsize, -⟩ := h
  obtain ⟨ds', is', bytes, others', hothers, hgrown, hok⟩ :=
    GrowStream_lost hcorrect hv hsize (hfits hgrow) ho
  rw [SetFileSize, if_neg (by omega)]
  simp only
  rw [if_neg (by omega), if_pos (by omega)]
  generalize GrowStream volume data size.toNat s = r at *
  obtain ⟨status, data', s'⟩ := r
  by_cases hstatus : status = .B_OK
  · subst hstatus
    obtain ⟨hsize', hcap⟩ := hok rfl
    exact ⟨⟨ds', is', hgrown.valid, by rw [hsize']; exact hcap,
      fun hs => by simp only at hs hsize'; omega⟩, others', hothers, hgrown.owns⟩
  · -- the stream is shrunk to its former size
    obtain ⟨hshrunk, howns, -⟩ := ShrinkStream_good hcorrect data' ds' is' hgrown.valid
      data.size (by rw [hgrown.room]; omega) s' hgrown.owns
    cases status <;> first
      | exact absurd rfl hstatus
      | exact ⟨hshrunk, others', hothers, howns⟩

/-! ## The order of the blocks -/

/-- The blocks of the file, in their order; unused entries have none. -/
def streamBlocks (data : data_stream) : List (Int × Nat) :=
  blockList (data.direct ++ if data.indirect.IsZero then [] else data.arrays.flatten)

theorem blockList_zeros (k : Nat) : blockList (List.replicate k block_run.zero) = [] := by
  induction k with
  | zero => rfl
  | succ k ih => rw [replicate_succ, blockList_cons, ih]; rfl

theorem data_stream.Valid.streamBlocks_eq {data : data_stream} {ds is : List block_run}
    (h : data.Valid volume ds is) : streamBlocks data = blockList (ds ++ is) := by
  rw [streamBlocks, blockList_append, h.direct_eq, blockList_append, blockList_zeros,
    append_nil, blockList_append]
  by_cases his : is = []
  · rw [if_pos (h.no_indirect his).1, his]
  · obtain ⟨k, hk⟩ := (h.has_indirect his).2.2.2
    rw [h.indirect_not_zero his, if_neg nofun, hk, blockList_append, blockList_zeros, append_nil]

/-- The blocks of an inserted run are behind those of the array. -/
theorem insertRun_blocks {runs : List block_run} (hruns : ∀ r ∈ runs, r.Ok) (k : Nat)
    {run : block_run} (hfits : MergeFits (runs ++ List.replicate (k + 1) block_run.zero) run) :
    blockList (insertRun (runs ++ List.replicate (k + 1) block_run.zero)
        (findFree (runs ++ List.replicate (k + 1) block_run.zero)) run) =
      blockList runs ++ runBlocks run := by
  rcases insertRun_cases hruns k hfits with ⟨before, last, rfl, hgroup, hstart, -, hset⟩ | hset
  · -- the run is merged with the last one
    rw [hset, blockList_append, blockList_zeros, append_nil, blockList_append,
      blockList_append, blockList_cons, runBlocks_merge, hgroup, hstart, append_assoc,
      blockList_cons]
    have hlast' : (⟨run.allocation_group, last.start, last.length⟩ : block_run) = last := by
      rw [← hgroup]
    rw [hlast']
    simp [blockList]
  · rw [hset, blockList_append, blockList_cons, blockList_zeros, append_nil]

theorem insertIndirect_blocks {run : block_run} {arrays : List (List block_run)} :
    ∀ {arrays' : List (List block_run)} {runs : List block_run}, (∀ r ∈ runs, r.Ok) →
      Holds arrays runs →
      (∀ array, arrayWithRoom arrays = some array → MergeFits array run) →
      insertIndirect run arrays = some arrays' →
      blockList arrays'.flatten = blockList arrays.flatten ++ runBlocks run := by
  induction arrays with
  | nil => simp [insertIndirect]
  | cons first arrays ih =>
    intro arrays' runs hruns h hfits hins
    rw [insertIndirect] at hins
    by_cases hroom : findFree first < first.length
    · rw [if_pos hroom, Option.some.injEq] at hins
      subst hins
      have hfits' := hfits first (by
        rw [arrayWithRoom, List.find?_cons, decide_eq_true hroom])
      rcases h.cons with ⟨rest, rfl, -⟩ | ⟨k, hfirst, n, hn⟩
      · -- an array that is full of runs has no room
        have hfull := findFree_eq first (fun r hr => (hruns r (mem_append_left _ hr)).not_zero) 0
        rw [replicate_zero, append_nil] at hfull
        omega
      · rw [nil_append] at hn
        rw [hfirst] at hfits'
        rw [flatten_cons, flatten_cons, blockList_append, blockList_append, hn,
          blockList_zeros, append_nil, append_nil, hfirst,
          insertRun_blocks hruns k hfits', blockList_append, blockList_zeros, append_nil]
    · rw [if_neg hroom] at hins
      obtain ⟨arrays'', hins', rfl⟩ := Option.map_eq_some_iff.1 hins
      have hfits' : ∀ array, arrayWithRoom arrays = some array → MergeFits array run := by
        intro array harray
        refine hfits array ?_
        rw [arrayWithRoom, List.find?_cons, decide_eq_false hroom]
        exact harray
      obtain ⟨rest, hok, hrest⟩ : ∃ rest : List block_run, (∀ r ∈ rest, r.Ok) ∧
          Holds arrays rest := by
        rcases h.cons with ⟨rest, rfl, hrest⟩ | ⟨k, -, hnone⟩
        · exact ⟨rest, fun r hr => hruns r (mem_append_right _ hr), hrest⟩
        · exact ⟨[], by simp, hnone⟩
      rw [flatten_cons, flatten_cons, blockList_append, blockList_append,
        ih hok hrest hfits' hins', append_assoc]

section

variable (hcorrect : volume.Correct used)
include hcorrect

/-- The blocks of a distributed run are behind those of the stream. -/
theorem distribute_blocks {data data' : data_stream}
    {ds is : List block_run} {run : block_run} {s s' : σ} {size : Nat} {blocksNeeded : Int}
    (h : data.Valid volume ds is) (hfits : RunFits volume data run)
    (hok : distribute volume size blocksNeeded run data s = (.B_OK, data', s')) :
    streamBlocks data' = streamBlocks data ++ runBlocks run := by
  have hfits' := hfits.2
  rw [distribute] at hok
  have hfree := h.findFree_direct
  have hindirect : is ≠ [] → ¬findFree data.direct < NUM_DIRECT_BLOCKS := by
    intro his
    have := (h.has_indirect his).2.1
    omega
  by_cases hdirect : data.size ≤ data.max_direct_range ∧ findFree data.direct < NUM_DIRECT_BLOCKS
  · -- the direct range
    rw [if_pos hdirect.2] at hfits'
    simp only [if_pos hdirect, Prod.mk.injEq, true_and] at hok
    obtain ⟨rfl, rfl⟩ := hok
    have his : is = [] := by
      by_contra his
      exact hindirect his hdirect.2
    obtain ⟨k, hk⟩ : ∃ k, NUM_DIRECT_BLOCKS - ds.length = k + 1 :=
      ⟨NUM_DIRECT_BLOCKS - ds.length - 1, by omega⟩
    have heq := h.direct_eq
    rw [hk] at heq
    rw [heq] at hfits'
    have hins := insertRun_blocks h.direct_ok k hfits'
    rw [h.streamBlocks_eq, streamBlocks]
    simp only
    rw [if_pos (h.no_indirect his).1, his, append_nil, append_nil, heq, hins]
  rw [if_neg hdirect] at hok
  by_cases hrange : data.size ≤ data.max_indirect_range ∨ data.max_indirect_range = 0
  swap
  · rw [if_neg hrange] at hok
    cases hok
  rw [if_pos hrange] at hok
  by_cases hzero : data.indirect.IsZero = true
  · -- the first indirect run
    rw [if_pos hzero] at hok
    cases halloc : volume.Allocate s data 4 4 with
    | none =>
      rw [halloc] at hok
      cases hok
    | some r =>
      obtain ⟨indirect, s''⟩ := r
      rw [halloc] at hok
      simp only [Prod.mk.injEq, true_and] at hok
      obtain ⟨rfl, rfl⟩ := hok
      obtain ⟨hpos, hmin, -⟩ := hcorrect.allocate_length _ _ _ _ _ _ halloc
      have hnew : indirect.IsZero = false := by
        simp only [block_run.IsZero, decide_eq_false_iff_not]
        omega
      have hnumber : 0 < volume.numberOfRuns := Nat.div_pos hcorrect.block_size (by omega)
      obtain ⟨n, hn⟩ : ∃ n, volume.numberOfRuns = n + 1 := ⟨_, (Nat.sub_add_cancel hnumber).symm⟩
      have hfirst : insertRun (List.replicate volume.numberOfRuns block_run.zero) 0 run =
          run :: List.replicate n block_run.zero := by
        rw [hn]
        simp [insertRun, replicate_succ]
      rw [streamBlocks, streamBlocks]
      simp only
      rw [hnew, if_neg (by simp), if_pos hzero, append_nil, blockList_append, hfirst,
        flatten_cons, flatten_replicate_replicate, cons_append, blockList_cons,
        blockList_append, blockList_zeros, blockList_zeros, append_nil, append_nil]
  · -- a run of the indirect range
    rw [if_neg hzero] at hok
    have his : is ≠ [] := fun his => hzero (h.no_indirect his).1
    rw [if_neg (hindirect his)] at hfits'
    cases hins : insertIndirect run data.arrays with
    | none =>
      rw [hins] at hok
      cases hok
    | some arrays =>
      rw [hins] at hok
      simp only [Prod.mk.injEq, true_and] at hok
      obtain ⟨rfl, rfl⟩ := hok
      have hblocks := insertIndirect_blocks h.indirect_ok (h.has_indirect his).2.2.2
        (hfits' (by simpa using hzero)) hins
      rw [streamBlocks, streamBlocks]
      simp only
      rw [if_neg hzero, if_neg hzero, blockList_append, blockList_append, hblocks, append_assoc]

theorem distribute_ok {data data' : data_stream}
    {ds is : List block_run} {run : block_run} {s s' : σ} {size : Nat} {blocksNeeded : Int}
    (h : data.Valid volume ds is) (hrun : run.Ok) (hsize : data.size ≤ capacity volume ds is)
    (hfits : RunFits volume data run) (ho : Owns used others s (run :: ownedRuns data))
    (hok : distribute volume size blocksNeeded run data s = (.B_OK, data', s')) :
    ∃ ds' is', Grown volume used others ds is data' s' (run.length * volume.BlockSize) ds' is' ∧
      data'.size = grownSize blocksNeeded (capacity volume ds' is') size := by
  by_cases hcan : CanDistribute volume data run s
  · obtain ⟨data'', s'', ds', is', heq, hgrown, hsize'⟩ :=
      distribute_spec hcorrect size blocksNeeded run hrun data ds is h hsize s hcan ho
    rw [hok] at heq
    simp only [Prod.mk.injEq, true_and] at heq
    obtain ⟨rfl, rfl⟩ := heq
    exact ⟨ds', is', hgrown, hsize'⟩
  · obtain ⟨status, hstatus, heq⟩ := distribute_lost h hfits hcan size blocksNeeded
    rw [hok] at heq
    exact absurd (congrArg Prod.fst heq).symm hstatus

/-- Growing keeps the blocks of the file in front. -/
theorem growLoop_blocks (size fuel : Nat) :
    ∀ (blocks blocksNeeded : Int) (data data' : data_stream) (ds is : List block_run) (s s' : σ),
      data.Valid volume ds is → data.size ≤ capacity volume ds is →
      size ≤ capacity volume ds is + blocksNeeded.toNat * volume.BlockSize →
      LoopFits volume size fuel blocks blocksNeeded data s →
      Owns used others s (ownedRuns data) →
      growLoop volume size fuel blocks blocksNeeded data s = (.B_OK, data', s') →
      streamBlocks data <+: streamBlocks data' := by
  induction fuel with
  | zero =>
    intro blocks blocksNeeded data data' ds is s s' _ _ _ _ _ hok
    obtain ⟨-, rfl, -⟩ := Prod.mk.injEq .. ▸ hok
    exact prefix_rfl
  | succ fuel ih =>
    intro blocks blocksNeeded data data' ds is s s' h hsize htarget hclean ho hok
    rw [growLoop] at hok
    by_cases hneeded : blocksNeeded > 0
    swap
    · rw [if_neg hneeded, Prod.mk.injEq, Prod.mk.injEq] at hok
      obtain ⟨-, rfl, -⟩ := hok
      exact prefix_rfl
    rw [if_pos hneeded] at hok
    cases halloc : volume.Allocate s data blocks 1 with
    | none =>
      rw [halloc] at hok
      cases hok
    | some r =>
      obtain ⟨run, s₁⟩ := r
      rw [halloc] at hok
      simp only at hok
      obtain ⟨hdist, hrest⟩ := hclean hneeded run s₁ halloc
      obtain ⟨hpos, -, -, hlt, hfits⟩ := hcorrect.allocate_length _ _ _ _ _ _ halloc
      have howned := ho.allocate hcorrect halloc
      rcases hd : distribute volume size (blocksNeeded - run.length) run data s₁ with
        ⟨status, data₁, s₂⟩
      rw [hd] at hok
      by_cases hstatus : status = .B_OK
      swap
      · cases status <;> first
          | exact absurd rfl hstatus
          | cases hok
      subst hstatus
      simp only at hok
      obtain ⟨ds₁, is₁, hgrown, hsize₁⟩ := distribute_ok hcorrect h ⟨hpos, hlt, hfits⟩ hsize
        hdist howned hd
      have hblocks := distribute_blocks hcorrect h hdist hd
      obtain ⟨hle, henough⟩ := hgrown.next hsize₁ htarget
      have hnext := ih (blocksNeeded - run.length) (blocksNeeded - run.length) data₁ data' ds₁
        is₁ s₂ s' hgrown.valid hle henough (hrest data₁ s₂ hd) hgrown.owns hok
      refine List.IsPrefix.trans ?_ hnext
      rw [hblocks]
      exact prefix_append _ _

theorem GrowStream_blocks {data data' : data_stream}
    {ds is : List block_run} (h : data.Valid volume ds is)
    (hsize : data.size ≤ capacity volume ds is) {size : Nat} {s s' : σ}
    (hfits : StreamFits volume data size s) (ho : Owns used others s (ownedRuns data))
    (hok : GrowStream volume data size s = (.B_OK, data', s')) :
    streamBlocks data <+: streamBlocks data' := by
  unfold GrowStream at hok
  by_cases hlarge : size < data.max_direct_range ∨ size < data.max_indirect_range
  · rw [if_pos hlarge, Prod.mk.injEq, Prod.mk.injEq] at hok
    obtain ⟨-, rfl, -⟩ := hok
    exact prefix_rfl
  · rw [if_neg hlarge] at hok
    by_cases hfull : (volume.missingBlocks data size : Int) > volume.FreeBlocks s
    · simp only [if_pos hfull] at hok
      cases hok
    · simp only [if_neg hfull] at hok
      refine growLoop_blocks hcorrect size _ _ _ data data' ds is s s' h hsize ?_
        (hfits hlarge hfull) ho hok
      rw [Int.toNat_natCast]
      exact missingBlocks_enough hcorrect h hsize size

end

/-! ## Runs of calls -/

section Calls

variable {ι : Type}

/-- The blocks of the inodes are in use, and each belongs to one run of one inode. -/
structure BlocksUsed (used : σ → Int → Nat → Prop) (streams : ι → data_stream) (s : σ) : Prop where
  used : ∀ k, ∀ run ∈ ownedRuns (streams k), ∀ group i, run.Contains group i → used s group i
  once : ∀ k group i, cover (ownedRuns (streams k)) group i ≤ 1
  disjoint : ∀ k k', k ≠ k' → ∀ run ∈ ownedRuns (streams k), ∀ run' ∈ ownedRuns (streams k'),
    ∀ group i, run.Contains group i → ¬run'.Contains group i

variable {streams : ι → data_stream} {s : σ}

/-- Used blocks that no inode owns. -/
def strayBlocks (used : σ → Int → Nat → Prop) (streams : ι → data_stream) (s : σ) (group : Int)
    (i : Nat) : Prop :=
  used s group i ∧ ¬ ∃ k, ∃ run ∈ ownedRuns (streams k), run.Contains group i

theorem BlocksUsed.owned (h : BlocksUsed used streams s) :
    BlocksOwned used (strayBlocks used streams s) streams s where
  used_iff group i := by
    constructor
    · intro hu
      by_cases hk : ∃ k, ∃ run ∈ ownedRuns (streams k), run.Contains group i
      · exact Or.inr hk
      · exact Or.inl ⟨hu, hk⟩
    · rintro (hstray | ⟨k, run, hrun, hin⟩)
      · exact hstray.1
      · exact h.used k run hrun group i hin
  not_base k run hrun group i hin hstray := hstray.2 ⟨k, run, hrun, hin⟩
  once := h.once
  disjoint := h.disjoint

/-- One inode's stream changes, and the blocks of the others stay theirs. -/
theorem BlocksUsed.update [DecidableEq ι] (h : BlocksUsed used streams s) (k : ι)
    {data : data_stream} {s' : σ} {others' : Int → Nat → Prop}
    (hothers : ∀ group i, othersOf (strayBlocks used streams s) streams k group i → others' group i)
    (ho : Owns used others' s' (ownedRuns data)) :
    BlocksUsed used (update streams k data) s' := by
  have hkeep : ∀ k', k' ≠ k → ∀ run ∈ ownedRuns (streams k'), ∀ group i, run.Contains group i →
      others' group i :=
    fun k' hne run hrun group i hin =>
      hothers group i (Or.inr ⟨k', hne, cover_pos.2 ⟨run, hrun, hin⟩⟩)
  have hown : ∀ run ∈ ownedRuns data, ∀ group i, run.Contains group i → ¬ others' group i := by
    intro run hrun group i hin hother
    have hzero := (ho.blocks group i).2.2 hother
    have hpos := cover_pos.2 ⟨run, hrun, hin⟩
    omega
  refine ⟨fun k' run hrun group i hin => ?_, fun k' group i => ?_, ?_⟩
  · rw [(ho.blocks group i).2.1]
    by_cases hne : k' = k
    · subst hne
      rw [update_self] at hrun
      exact Or.inr (cover_pos.2 ⟨run, hrun, hin⟩)
    · rw [update_of_ne hne] at hrun
      exact Or.inl (hkeep k' hne run hrun group i hin)
  · by_cases hne : k' = k
    · subst hne
      rw [update_self]
      exact (ho.blocks group i).1
    · rw [update_of_ne hne]
      exact h.once k' group i
  · intro k₁ k₂ hne run hrun run' hrun' group i hin hin'
    by_cases h₁ : k₁ = k
    · subst h₁
      rw [update_self] at hrun
      rw [update_of_ne (Ne.symm hne)] at hrun'
      exact hown run hrun group i hin (hkeep k₂ (Ne.symm hne) run' hrun' group i hin')
    · rw [update_of_ne h₁] at hrun
      by_cases h₂ : k₂ = k
      · subst h₂
        rw [update_self] at hrun'
        exact hown run' hrun' group i hin' (hkeep k₁ h₁ run hrun group i hin)
      · rw [update_of_ne h₂] at hrun'
        exact h.disjoint k₁ k₂ hne run hrun run' hrun' group i hin hin'

/-- The runs that the call allocates fit: only growing a stream allocates some. -/
def StreamCall.Fits (volume : Allocator σ) (streams : ι → data_stream) (s : σ) : StreamCall ι → Prop
  | .SetFileSize k size => size > (streams k).size → StreamFits volume (streams k) size.toNat s
  | .Trim _ => True

variable [DecidableEq ι]

/-- The runs that the calls allocate fit. -/
def CallsFit (volume : Allocator σ) : List (StreamCall ι) → (ι → data_stream) → σ → Prop
  | [], _, _ => True
  | call :: calls, streams, s =>
    call.Fits volume streams s ∧
      CallsFit volume calls (call.apply volume streams s).1 (call.apply volume streams s).2

theorem StreamCall.apply_used (hcorrect : volume.Correct used) (call : StreamCall ι)
    (hgood : ∀ k, (streams k).Good volume) (h : BlocksUsed used streams s)
    (hfits : call.Fits volume streams s) :
    (∀ k, ((call.apply volume streams s).1 k).Good volume) ∧
      BlocksUsed used (call.apply volume streams s).1 (call.apply volume streams s).2 := by
  cases call with
  | SetFileSize k size =>
    obtain ⟨hdata, others', hothers, ho⟩ := SetFileSize_lost hcorrect (hgood k) hfits
      (h.owned.owns k)
    exact ⟨good_update hgood k hdata, h.update k hothers ho⟩
  | Trim k =>
    obtain ⟨hdata, ho⟩ := Trim_good hcorrect (streams k) (hgood k) s (h.owned.owns k)
    exact ⟨good_update hgood k hdata, h.update k (fun _ _ h => h) ho⟩

/-- **The streams that can be reached** are well-formed, and have distinct blocks. -/
theorem applyCalls_used (hcorrect : volume.Correct used) (calls : List (StreamCall ι))
    (hgood : ∀ k, (streams k).Good volume) (h : BlocksUsed used streams s)
    (hfits : CallsFit volume calls streams s) :
    (∀ k, ((applyCalls volume calls streams s).1 k).Good volume) ∧
      BlocksUsed used (applyCalls volume calls streams s).1 (applyCalls volume calls streams s).2 := by
  induction calls generalizing streams s with
  | nil => exact ⟨hgood, h⟩
  | cons call calls ih =>
    obtain ⟨hgood', h'⟩ := call.apply_used hcorrect hgood h hfits.1
    exact ih hgood' h' hfits.2

end Calls

end

end BFS
