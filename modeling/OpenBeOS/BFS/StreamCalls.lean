import OpenBeOS.BFS.StreamOwnership

/-! # Growing a stream, and runs of calls

`GrowStream()` keeps the ownership of `StreamOwnership.lean` as long as it can put each run it
allocates into the stream (`CanDistribute`): where it bails out with a run in its hands, that
run stays used and belongs to no one. `ownership_of_run` puts growing and shrinking together
for all runs of `SetFileSize()` and `Trim()` on several inodes.
-/

namespace BFS

open Function List

section

variable {σ : Type} {volume : Allocator σ} {used : σ → Int → Nat → Prop}
  {others : Int → Nat → Prop}

/-! ## Growing -/

/-- `GrowStream()` can put the run it has just allocated into the stream: its bytes are a
`uint32`, a merged length a `uint16`, and there is a free entry for it, or there are four blocks
for the indirect array. -/
def CanDistribute (volume : Allocator σ) (data : data_stream) (run : block_run) (s : σ) : Prop :=
  run.length * volume.BlockSize < 2 ^ 32 ∧
    if findFree data.direct < NUM_DIRECT_BLOCKS then MergeFits data.direct run
    else if data.indirect.IsZero then (volume.Allocate s data 4 4).isSome = true
    else ∃ array, arrayWithRoom data.arrays = some array ∧ MergeFits array run

variable {data : data_stream}

theorem data_stream.Valid.findFree_direct {ds is : List block_run}
    (h : data.Valid volume ds is) : findFree data.direct = ds.length := by
  rw [h.direct_eq]
  exact findFree_eq ds (fun r hr => (h.direct_ok r hr).not_zero) _

theorem data_stream.Valid.range_eq {ds is : List block_run}
    (h : data.Valid volume ds is) (his : is ≠ []) :
    data.max_indirect_range = capacity volume ds is := by
  rw [(h.has_indirect his).2.2.1, h.direct_range, capacity, Nat.add_mul]

/-- The outcome of growing: the stream is still well-formed, and owns what it owned and the
blocks it was given. -/
structure Grown (volume : Allocator σ) (used : σ → Int → Nat → Prop)
    (others : Int → Nat → Prop) (ds is : List block_run) (data : data_stream) (s : σ)
    (bytes : Nat) (ds' is' : List block_run) : Prop where
  valid : data.Valid volume ds' is'
  owns : Owns used others s (ownedRuns data)
  room : capacity volume ds' is' = capacity volume ds is + bytes

/-- One run more in the stream. -/
theorem distribute_spec (hcorrect : volume.Correct used) (size : Nat) (blocksNeeded : Int)
    (run : block_run) (hrun : run.Ok) (data : data_stream) (ds is : List block_run)
    (h : data.Valid volume ds is) (hsize : data.size ≤ capacity volume ds is) (s : σ)
    (hclean : CanDistribute volume data run s)
    (ho : Owns used others s (run :: ownedRuns data)) :
    ∃ data' s' ds' is', distribute volume size blocksNeeded run data s = (.B_OK, data', s') ∧
      Grown volume used others ds is data' s' (run.length * volume.BlockSize) ds' is' ∧
      data'.size = grownSize blocksNeeded (capacity volume ds' is') size := by
  obtain ⟨hbytes, hclean⟩ := hclean
  have hrunBytes : volume.runBytes run = run.length * volume.BlockSize := Nat.mod_eq_of_lt hbytes
  have hfree := h.findFree_direct
  rw [hfree] at hclean
  unfold distribute
  rw [hfree, hrunBytes]
  by_cases hdirect : ds.length < NUM_DIRECT_BLOCKS
  · -- the direct array has a free entry, so there are no indirect runs
    rw [if_pos hdirect] at hclean
    have his : is = [] := by
      by_contra his
      have := (h.has_indirect his).2.1
      omega
    subst his
    have hrange : data.max_direct_range = capacity volume ds [] := by
      rw [h.direct_range, capacity, blocksOf_nil, Nat.add_zero]
    rw [if_pos ⟨by omega, hdirect⟩]
    obtain ⟨k, hk⟩ : ∃ k, NUM_DIRECT_BLOCKS - ds.length = k + 1 :=
      ⟨NUM_DIRECT_BLOCKS - ds.length - 1, by omega⟩
    have heq := h.direct_eq
    rw [hk] at heq
    rw [heq] at hclean
    obtain ⟨ds', k', hins, hlen, hne, hok, -, hblocks, hcover⟩ :=
      insertRun_spec ds h.direct_ok k run hrun hclean
    rw [← heq, hfree] at hins
    have hroom : capacity volume ds' [] =
        capacity volume ds [] + run.length * volume.BlockSize := by
      unfold capacity
      rw [blocksOf_nil, Nat.add_zero, Nat.add_zero, hblocks, Nat.add_mul]
    have hv : ({ data with
        direct := insertRun data.direct ds.length run
        max_direct_range := data.max_direct_range + run.length * volume.BlockSize
        size := grownSize blocksNeeded
          (data.max_direct_range + run.length * volume.BlockSize) size } : data_stream).Valid
          volume ds' [] := by
      refine ⟨hok, by simp, by omega, ?_, ?_, fun _ => h.no_indirect rfl, fun hne => absurd rfl hne⟩
      · rw [hins, show k' = NUM_DIRECT_BLOCKS - ds'.length by omega]
      · rw [h.direct_range, hblocks, Nat.add_mul]
    refine ⟨_, _, ds', [], rfl, ⟨hv, ?_, hroom⟩, by rw [hroom, hrange]⟩
    refine ho.congr fun group i => ?_
    have hc := h.cover_eq group i
    rw [if_pos rfl] at hc
    rw [hv.cover_eq, if_pos rfl, hcover, cover_cons run (ownedRuns data), hc, cover_cons, cover_nil]
    omega
  · -- the run goes to the indirect range
    rw [if_neg hdirect] at hclean
    rw [if_neg fun hd => hdirect hd.2]
    have hfull : ds.length = NUM_DIRECT_BLOCKS := by
      have := h.direct_le
      omega
    by_cases his : is = []
    · subst his
      obtain ⟨hzero, hindirect⟩ := h.no_indirect rfl
      rw [if_pos hzero] at hclean
      obtain ⟨⟨indirect, s'⟩, halloc⟩ := Option.isSome_iff_exists.1 hclean
      rw [if_pos (.inr hindirect), if_pos hzero, halloc]
      obtain ⟨hpos, hmin, hmax, -, -⟩ := hcorrect.allocate_length _ _ _ _ _ _ halloc
      have hlength : indirect.length = 4 := by omega
      have hruns : insertRun (List.replicate volume.numberOfRuns block_run.zero) 0 run ::
          List.replicate (indirect.length - 1)
            (List.replicate volume.numberOfRuns block_run.zero) =
          (run :: List.replicate (volume.numberOfRuns - 1) block_run.zero) ::
          List.replicate 3 (List.replicate volume.numberOfRuns block_run.zero) := by
        have : 0 < volume.numberOfRuns := Nat.div_pos hcorrect.block_size (by omega)
        obtain ⟨n, hn⟩ : ∃ n, volume.numberOfRuns = n + 1 := ⟨_, (Nat.sub_add_cancel this).symm⟩
        rw [hn, hlength]
        simp [insertRun, replicate_succ]
      have hv : ({ data with
          indirect := indirect
          arrays := insertRun (List.replicate volume.numberOfRuns block_run.zero) 0 run ::
            List.replicate (indirect.length - 1)
              (List.replicate volume.numberOfRuns block_run.zero)
          max_indirect_range := data.max_direct_range + run.length * volume.BlockSize
          size := grownSize blocksNeeded
            (data.max_direct_range + run.length * volume.BlockSize) size } : data_stream).Valid
            volume ds [run] := by
        refine ⟨h.direct_ok, by simpa using hrun, h.direct_le, h.direct_eq, h.direct_range,
          fun hne => absurd hne (by simp), fun _ => ⟨hlength, hfull, by simp, ?_⟩⟩
        refine ⟨volume.numberOfRuns - 1 + 3 * volume.numberOfRuns, ?_⟩
        simp only [hruns, flatten_cons, flatten_replicate_replicate, cons_append,
          nil_append, replicate_append_replicate]
      have hroom : capacity volume ds [run] =
          capacity volume ds [] + run.length * volume.BlockSize := by
        unfold capacity
        rw [blocksOf_cons, blocksOf_nil, Nat.add_zero, Nat.add_zero, Nat.add_mul]
      refine ⟨_, _, ds, [run], rfl, ⟨hv, ?_, hroom⟩, ?_⟩
      · refine (Owns.allocate hcorrect ho halloc).congr fun group i => ?_
        have hc := hv.cover_eq group i
        rw [if_neg (cons_ne_nil run [])] at hc
        rw [hc]
        simp only [cover_cons, cover_nil, h.cover_eq, if_pos]
        omega
      · rw [hroom, show data.max_direct_range = capacity volume ds [] by
          rw [h.direct_range, capacity, blocksOf_nil, Nat.add_zero]]
    · have hzero := h.indirect_not_zero his
      rw [if_neg (by simp [hzero])] at hclean
      obtain ⟨array, harray, hfits⟩ := hclean
      have hrange := h.range_eq his
      obtain ⟨hlength, -, hmax, hholds⟩ := h.has_indirect his
      obtain ⟨arrays, is', hins, hholds', hne, hok, hblocks, hcover⟩ :=
        insertIndirect_spec run hrun data.arrays is h.indirect_ok hholds array harray hfits
      rw [if_pos (.inl (by omega)), if_neg (by simp [hzero]), hins]
      have hroom : capacity volume ds is' =
          capacity volume ds is + run.length * volume.BlockSize := by
        unfold capacity
        rw [hblocks, ← Nat.add_assoc, Nat.add_mul]
      have hv : ({ data with
          arrays := arrays
          max_indirect_range := data.max_indirect_range + run.length * volume.BlockSize
          size := grownSize blocksNeeded
            (data.max_indirect_range + run.length * volume.BlockSize) size } :
            data_stream).Valid volume ds is' := by
        refine ⟨h.direct_ok, hok, h.direct_le, h.direct_eq, h.direct_range,
          fun hn => absurd hn hne, fun _ => ⟨hlength, hfull, ?_, hholds'⟩⟩
        rw [hmax, hblocks, Nat.add_mul, Nat.add_assoc]
      refine ⟨_, _, ds, is', rfl, ⟨hv, ?_, hroom⟩, by rw [hroom, hrange]⟩
      refine ho.congr fun group i => ?_
      have hc := hv.cover_eq group i
      rw [if_neg hne] at hc
      rw [hc]
      simp only [cover_cons, cover_nil, h.cover_eq, if_neg his, hcover]
      omega

/-- Only the size changes. -/
theorem Grown.done {ds is : List block_run} {s : σ} (h : data.Valid volume ds is)
    (ho : Owns used others s (ownedRuns data)) (size : Nat) :
    Grown volume used others ds is { data with size := size } s 0 ds is :=
  ⟨⟨h.direct_ok, h.indirect_ok, h.direct_le, h.direct_eq, h.direct_range, h.no_indirect,
    h.has_indirect⟩, ho, rfl⟩

/-- Behind a run, the blocks that are still needed are enough again. -/
theorem Grown.next {ds is ds' is' : List block_run} {s : σ} {run : block_run} {size : Nat}
    {blocksNeeded : Int}
    (h : Grown volume used others ds is data s (run.length * volume.BlockSize) ds' is')
    (hsize : data.size = grownSize (blocksNeeded - run.length) (capacity volume ds' is') size)
    (htarget : size ≤ capacity volume ds is + blocksNeeded.toNat * volume.BlockSize) :
    data.size ≤ capacity volume ds' is' ∧
      size ≤ capacity volume ds' is' + (blocksNeeded - run.length).toNat * volume.BlockSize := by
  have hroom := h.room
  have hsplit : blocksNeeded.toNat * volume.BlockSize ≤
      (blocksNeeded - run.length).toNat * volume.BlockSize + run.length * volume.BlockSize := by
    rw [← Nat.add_mul]
    exact Nat.mul_le_mul_right _ (by omega)
  refine ⟨?_, by omega⟩
  rw [hsize, grownSize]
  split
  · exact Nat.le_refl _
  · rename_i hnot
    rw [show (blocksNeeded - run.length).toNat = 0 by omega, Nat.zero_mul] at hsplit
    omega

/-- Every run that `growLoop` allocates can be put into the stream. -/
def CanGrow (volume : Allocator σ) (size : Nat) : Nat → Int → Int → data_stream → σ → Prop
  | 0, _, _, _, _ => True
  | fuel + 1, blocks, blocksNeeded, data, s =>
    blocksNeeded > 0 → ∀ run s', volume.Allocate s data blocks 1 = some (run, s') →
      CanDistribute volume data run s' ∧
        ∀ data' s'', distribute volume size (blocksNeeded - run.length) run data s' =
            (.B_OK, data', s'') →
          CanGrow volume size fuel (blocksNeeded - run.length) (blocksNeeded - run.length)
            data' s''

/-- Enough fuel: as much as there are blocks needed. Whether the loop ends with success or not,
the stream owns its blocks. -/
theorem growLoop_spec (hcorrect : volume.Correct used) (size fuel : Nat) :
    ∀ (blocks blocksNeeded : Int) (data : data_stream) (ds is : List block_run) (s : σ),
      data.Valid volume ds is → data.size ≤ capacity volume ds is →
      blocksNeeded.toNat ≤ fuel →
      size ≤ capacity volume ds is + blocksNeeded.toNat * volume.BlockSize →
      CanGrow volume size fuel blocks blocksNeeded data s →
      Owns used others s (ownedRuns data) →
      ∃ ds' is' bytes,
        Grown volume used others ds is (growLoop volume size fuel blocks blocksNeeded data s).2.1
          (growLoop volume size fuel blocks blocksNeeded data s).2.2 bytes ds' is' ∧
        ((growLoop volume size fuel blocks blocksNeeded data s).1 = .B_OK →
          (growLoop volume size fuel blocks blocksNeeded data s).2.1.size = size ∧
            size ≤ capacity volume ds' is') := by
  induction fuel with
  | zero =>
    intro blocks blocksNeeded data ds is s h hsize hfuel htarget hclean ho
    refine ⟨ds, is, 0, .done h ho size, fun _ => ⟨rfl, ?_⟩⟩
    rw [Nat.le_zero.1 hfuel, Nat.zero_mul] at htarget
    exact htarget
  | succ fuel ih =>
    intro blocks blocksNeeded data ds is s h hsize hfuel htarget hclean ho
    rw [growLoop]
    by_cases hneeded : blocksNeeded > 0
    · rw [if_pos hneeded]
      cases halloc : volume.Allocate s data blocks 1 with
      | none => exact ⟨ds, is, 0, ⟨h, ho, rfl⟩, fun hs => by cases hs⟩
      | some r =>
        obtain ⟨run, s'⟩ := r
        obtain ⟨hdist, hrest⟩ := hclean hneeded run s' halloc
        obtain ⟨hpos, -, -, hlt, hfits⟩ := hcorrect.allocate_length _ _ _ _ _ _ halloc
        obtain ⟨data', s'', ds', is', heq, hgrown, hsize'⟩ :=
          distribute_spec hcorrect size (blocksNeeded - run.length) run ⟨hpos, hlt, hfits⟩
            data ds is h hsize s' hdist (ho.allocate hcorrect halloc)
        obtain ⟨hle, hnext⟩ := hgrown.next hsize' htarget
        obtain ⟨ds'', is'', bytes, hgrown', hok⟩ := ih (blocksNeeded - run.length)
          (blocksNeeded - run.length) data' ds' is' s'' hgrown.valid hle (by omega) hnext
          (hrest data' s'' heq) hgrown.owns
        simp only [heq]
        exact ⟨ds'', is'', run.length * volume.BlockSize + bytes,
          ⟨hgrown'.valid, hgrown'.owns, by rw [hgrown'.room, hgrown.room]; omega⟩, hok⟩
    · rw [if_neg hneeded]
      refine ⟨ds, is, 0, .done h ho size, fun _ => ⟨rfl, ?_⟩⟩
      rw [show blocksNeeded.toNat = 0 by omega, Nat.zero_mul] at htarget
      exact htarget

theorem missingBytes_eq (data : data_stream) (ds is : List block_run)
    (h : data.Valid volume ds is) (hsize : data.size ≤ capacity volume ds is) (size : Nat) :
    missingBytes data size = size - capacity volume ds is := by
  have hdirect : is = [] → data.max_direct_range = capacity volume ds is := by
    intro his
    rw [h.direct_range, his, capacity, blocksOf_nil, Nat.add_zero]
  unfold missingBytes
  by_cases his : is = []
  · have hrange := (h.no_indirect his).2
    have := hdirect his
    rw [if_neg (by omega)]
    split
    · rw [this]
    · rw [show data.size = capacity volume ds is by omega]
  · have hrange := h.range_eq his
    split
    · rw [hrange]
    · have := (h.has_indirect his).2.2.1
      rw [if_neg (by omega), show data.size = capacity volume ds is by omega]

theorem missingBlocks_enough (hcorrect : volume.Correct used) {data : data_stream}
    {ds is : List block_run} (h : data.Valid volume ds is)
    (hsize : data.size ≤ capacity volume ds is) (size : Nat) :
    size ≤ capacity volume ds is + volume.missingBlocks data size * volume.BlockSize := by
  have hb : 0 < volume.BlockSize := by have := hcorrect.block_size; omega
  have hblocks : missingBytes data size ≤ volume.missingBlocks data size * volume.BlockSize := by
    unfold Allocator.missingBlocks
    have hdiv := Nat.div_add_mod (missingBytes data size + volume.BlockSize - 1) volume.BlockSize
    have hmod := Nat.mod_lt (missingBytes data size + volume.BlockSize - 1) hb
    rw [Nat.mul_comm] at hdiv
    omega
  rw [missingBytes_eq data ds is h hsize] at hblocks
  omega

theorem le_capacity_of_range {data : data_stream} {ds is : List block_run}
    (h : data.Valid volume ds is) {size : Nat}
    (hlarge : size < data.max_direct_range ∨ size < data.max_indirect_range) :
    size ≤ capacity volume ds is := by
  have hdirect := h.direct_range
  have hle : blocksOf ds * volume.BlockSize ≤ capacity volume ds is :=
    Nat.mul_le_mul_right _ (Nat.le_add_right _ _)
  by_cases his : is = []
  · have := (h.no_indirect his).2
    omega
  · have := h.range_eq his
    omega

/-- The branches of `GrowStream()` that lose a run are not taken. -/
def CanGrowStream (volume : Allocator σ) (data : data_stream) (size : Nat) (s : σ) : Prop :=
  ¬(size < data.max_direct_range ∨ size < data.max_indirect_range) →
    ¬(volume.missingBlocks data size : Int) > volume.FreeBlocks s →
      CanGrow volume size (volume.missingBlocks data size)
        (volume.wantedBlocks (volume.missingBlocks data size) s) (volume.missingBlocks data size)
        data s

/-- **`GrowStream()`**, successful or not. -/
theorem GrowStream_spec (hcorrect : volume.Correct used) (data : data_stream)
    (ds is : List block_run) (h : data.Valid volume ds is)
    (hsize : data.size ≤ capacity volume ds is) (size : Nat) (s : σ)
    (hclean : CanGrowStream volume data size s) (ho : Owns used others s (ownedRuns data)) :
    ∃ ds' is' bytes, Grown volume used others ds is (GrowStream volume data size s).2.1
        (GrowStream volume data size s).2.2 bytes ds' is' ∧
      ((GrowStream volume data size s).1 = .B_OK →
        (GrowStream volume data size s).2.1.size = size ∧ size ≤ capacity volume ds' is') := by
  unfold GrowStream
  by_cases hlarge : size < data.max_direct_range ∨ size < data.max_indirect_range
  · rw [if_pos hlarge]
    exact ⟨ds, is, 0, .done h ho size, fun _ => ⟨rfl, le_capacity_of_range h hlarge⟩⟩
  · rw [if_neg hlarge]
    by_cases hfull : (volume.missingBlocks data size : Int) > volume.FreeBlocks s
    · simp only [if_pos hfull]
      exact ⟨ds, is, 0, ⟨h, ho, rfl⟩, fun hs => by cases hs⟩
    · simp only [if_neg hfull]
      refine growLoop_spec hcorrect size _ _ _ data ds is s h hsize (by omega) ?_
        (hclean hlarge hfull) ho
      rw [Int.toNat_natCast]
      exact missingBlocks_enough hcorrect h hsize size

/-! ## SetFileSize and Trim -/

/-- What holds of every stream between the calls: its size fits into its blocks, and an empty
stream has none. -/
def data_stream.Good (volume : Allocator σ) (data : data_stream) : Prop :=
  ∃ ds is, data.Valid volume ds is ∧ data.size ≤ capacity volume ds is ∧
    (data.size = 0 → ds = [] ∧ is = [])

theorem data_stream.empty_good (volume : Allocator σ) : data_stream.empty.Good volume :=
  ⟨[], [], ⟨by simp, by simp, by simp, rfl, by simp [data_stream.empty], fun _ => ⟨rfl, rfl⟩,
    fun h => absurd rfl h⟩, Nat.zero_le _, fun _ => ⟨rfl, rfl⟩⟩

theorem data_stream.Good.no_blocks (h : data.Good volume)
    (hsize : data.size = 0) (group : Int) (i : Nat) : cover (ownedRuns data) group i = 0 := by
  obtain ⟨ds, is, hv, -, hzero⟩ := h
  obtain ⟨rfl, rfl⟩ := hzero hsize
  rw [hv.cover_eq, if_pos rfl, cover_nil]

section

variable (hcorrect : volume.Correct used) (data : data_stream)
include hcorrect

theorem ShrinkStream_good
    (ds is : List block_run) (h : data.Valid volume ds is) (size : Nat)
    (hsize : size ≤ capacity volume ds is) (s : σ) (ho : Owns used others s (ownedRuns data)) :
    (ShrinkStream volume data size s).1.Good volume ∧
      Owns used others (ShrinkStream volume data size s).2
        (ownedRuns (ShrinkStream volume data size s).1) ∧
      (ShrinkStream volume data size s).1.size = size := by
  obtain ⟨ds', is', hv, ho', hsize', hzero, hcap⟩ := ShrinkStream_spec hcorrect data ds is h size s ho
  exact ⟨⟨ds', is', hv, hsize' ▸ hcap hsize, fun hs => hzero (hsize' ▸ hs)⟩, ho', hsize'⟩

/-- **`SetFileSize()`**, successful or not, keeps the ownership, unless growing the stream loses
a run. -/
theorem SetFileSize_good
    (h : data.Good volume) (size : Int) (s : σ)
    (hclean : size > data.size → CanGrowStream volume data size.toNat s)
    (ho : Owns used others s (ownedRuns data)) :
    (SetFileSize volume data size s).2.1.Good volume ∧
      Owns used others (SetFileSize volume data size s).2.2
        (ownedRuns (SetFileSize volume data size s).2.1) ∧
      (size = 0 → (SetFileSize volume data size s).2.1.size = 0) := by
  have hgood := h
  obtain ⟨ds, is, hv, hsize, hzero⟩ := h
  unfold SetFileSize
  by_cases hneg : size < 0
  · rw [if_pos hneg]
    exact ⟨hgood, ho, fun hs => by omega⟩
  · rw [if_neg hneg]
    simp only
    by_cases heq : size.toNat = data.size
    · rw [if_pos heq]
      exact ⟨hgood, ho, fun hs => by simp only; omega⟩
    · rw [if_neg heq]
      by_cases hgrow : size.toNat > data.size
      · rw [if_pos hgrow]
        obtain ⟨ds', is', bytes, hgrown, hok⟩ := GrowStream_spec hcorrect data ds is hv hsize
          size.toNat s (hclean (by omega)) ho
        generalize GrowStream volume data size.toNat s = r at *
        obtain ⟨status, data', s'⟩ := r
        by_cases hstatus : status = .B_OK
        · subst hstatus
          obtain ⟨hsize', hcap⟩ := hok rfl
          simp only at hsize'
          exact ⟨⟨ds', is', hgrown.valid, by simp only; omega, fun hs => by simp only at hs; omega⟩,
            hgrown.owns, fun hs => by omega⟩
        · -- the stream is shrunk to its former size
          obtain ⟨hshrunk, howns, hold⟩ := ShrinkStream_good hcorrect data' ds' is' hgrown.valid
            data.size (by rw [hgrown.room]; omega) s' hgrown.owns
          cases status <;> first
            | exact absurd rfl hstatus
            | exact ⟨hshrunk, howns, fun hs => by omega⟩
      · rw [if_neg hgrow]
        obtain ⟨hshrunk, howns, hold⟩ := ShrinkStream_good hcorrect data ds is hv size.toNat
          (by omega) s ho
        exact ⟨hshrunk, howns, fun hs => by simp only [hold]; omega⟩

theorem Trim_good
    (h : data.Good volume) (s : σ) (ho : Owns used others s (ownedRuns data)) :
    (Trim volume data s).2.1.Good volume ∧
      Owns used others (Trim volume data s).2.2 (ownedRuns (Trim volume data s).2.1) := by
  obtain ⟨ds, is, hv, hsize, hzero⟩ := h
  obtain ⟨hshrunk, howns, -⟩ := ShrinkStream_good hcorrect data ds is hv data.size hsize s ho
  exact ⟨hshrunk, howns⟩

end

/-! ## The inodes of a volume -/

/-- The used blocks are those that belong to others (`base`), and the disjoint union of the
blocks the inodes own. -/
structure BlocksOwned {ι : Type} (used : σ → Int → Nat → Prop) (base : Int → Nat → Prop)
    (streams : ι → data_stream) (s : σ) : Prop where
  used_iff : ∀ group i, used s group i ↔
    base group i ∨ ∃ k, ∃ run ∈ ownedRuns (streams k), run.Contains group i
  not_base : ∀ k, ∀ run ∈ ownedRuns (streams k), ∀ group i, run.Contains group i → ¬base group i
  once : ∀ k group i, cover (ownedRuns (streams k)) group i ≤ 1
  disjoint : ∀ k k', k ≠ k' → ∀ run ∈ ownedRuns (streams k), ∀ run' ∈ ownedRuns (streams k'),
    ∀ group i, run.Contains group i → ¬run'.Contains group i

theorem cover_pos {runs : List block_run} {group : Int} {i : Nat} :
    0 < cover runs group i ↔ ∃ run ∈ runs, run.Contains group i := by
  simp [cover, countP_pos_iff]

theorem data_stream.Good.owns_nothing (h : data.Good volume) (hsize : data.size = 0) :
    ∀ run ∈ ownedRuns data, ∀ group i, ¬run.Contains group i := by
  intro run hrun group i hin
  have hpos := cover_pos.2 ⟨run, hrun, hin⟩
  rw [h.no_blocks hsize] at hpos
  exact absurd hpos (Nat.lt_irrefl 0)

section

variable {ι : Type}

/-- What does not belong to the inode `k`. -/
def othersOf (base : Int → Nat → Prop) (streams : ι → data_stream) (k : ι) (group : Int)
    (i : Nat) : Prop :=
  base group i ∨ ∃ k', k' ≠ k ∧ 0 < cover (ownedRuns (streams k')) group i

variable {base : Int → Nat → Prop} {streams : ι → data_stream} {s : σ}

theorem BlocksOwned.owns (h : BlocksOwned used base streams s) (k : ι) :
    Owns used (othersOf base streams k) s (ownedRuns (streams k)) := by
  intro group i
  have hused := h.used_iff group i
  by_cases hk : 0 < cover (ownedRuns (streams k)) group i
  · have hone := h.once k group i
    obtain ⟨run, hrun, hin⟩ := cover_pos.1 hk
    have hothers : ¬othersOf base streams k group i := by
      rintro (hbase | ⟨k', hne, hk'⟩)
      · exact h.not_base k run hrun group i hin hbase
      · obtain ⟨run', hrun', hin'⟩ := cover_pos.1 hk'
        exact h.disjoint k k' (Ne.symm hne) run hrun run' hrun' group i hin hin'
    rw [indicator_of (hused.2 (.inr ⟨k, run, hrun, hin⟩)), indicator_of_not hothers]
    omega
  · rw [Nat.eq_zero_of_not_pos hk, Nat.add_zero]
    congr 1
    refine propext (hused.trans (or_congr_right ⟨?_, ?_⟩))
    · rintro ⟨k', hk'⟩
      refine ⟨k', ?_, cover_pos.2 hk'⟩
      rintro rfl
      exact hk (cover_pos.2 hk')
    · rintro ⟨k', -, hk'⟩
      exact ⟨k', cover_pos.1 hk'⟩

theorem Owns.blocks {others : Int → Nat → Prop} {runs : List block_run}
    (h : Owns used others s runs) (group : Int) (i : Nat) :
    cover runs group i ≤ 1 ∧ (used s group i ↔ others group i ∨ 0 < cover runs group i) ∧
      (others group i → cover runs group i = 0) := by
  have heq := h group i
  by_cases hu : used s group i <;> by_cases ho : others group i <;>
    simp only [hu, ho, indicator_of, indicator_of_not, not_false_eq_true] at heq ⊢ <;>
    simp <;> omega

/-- When one inode's stream changes and it owns its blocks beside those of the others, all do. -/
theorem BlocksOwned.update [DecidableEq ι] (h : BlocksOwned used base streams s) (k : ι)
    (data : data_stream) (s' : σ)
    (ho : Owns used (othersOf base streams k) s' (ownedRuns data)) :
    BlocksOwned used base (update streams k data) s' where
  used_iff group i := by
    rw [(ho.blocks group i).2.1]
    constructor
    · rintro ((hbase | ⟨k', hne, hk'⟩) | hk)
      · exact .inl hbase
      · refine .inr ⟨k', ?_⟩
        rw [update_of_ne hne]
        exact cover_pos.1 hk'
      · refine .inr ⟨k, ?_⟩
        rw [update_self]
        exact cover_pos.1 hk
    · rintro (hbase | ⟨k', hk'⟩)
      · exact .inl (.inl hbase)
      · by_cases hne : k' = k
        · subst hne
          rw [update_self] at hk'
          exact .inr (cover_pos.2 hk')
        · rw [update_of_ne hne] at hk'
          exact .inl (.inr ⟨k', hne, cover_pos.2 hk'⟩)
  not_base k' run hrun group i hin hbase := by
    by_cases hne : k' = k
    · subst hne
      rw [update_self] at hrun
      have := (ho.blocks group i).2.2 (.inl hbase)
      have := cover_pos.2 ⟨run, hrun, hin⟩
      omega
    · rw [update_of_ne hne] at hrun
      exact h.not_base k' run hrun group i hin hbase
  once k' group i := by
    by_cases hne : k' = k
    · subst hne
      rw [update_self]
      exact (ho.blocks group i).1
    · rw [update_of_ne hne]
      exact h.once k' group i
  disjoint := by
    -- the changed inode against another one
    have hone : ∀ k', k' ≠ k → ∀ run ∈ ownedRuns data, ∀ run' ∈ ownedRuns (streams k'),
        ∀ group i, run.Contains group i → ¬run'.Contains group i := by
      intro k' hne run hrun run' hrun' group i hin hin'
      have := (ho.blocks group i).2.2 (.inr ⟨k', hne, cover_pos.2 ⟨run', hrun', hin'⟩⟩)
      have := cover_pos.2 ⟨run, hrun, hin⟩
      omega
    intro k₁ k₂ hne run hrun run' hrun' group i hin hin'
    by_cases h₁ : k₁ = k
    · subst h₁
      rw [update_self] at hrun
      rw [update_of_ne (Ne.symm hne)] at hrun'
      exact hone k₂ (Ne.symm hne) run hrun run' hrun' group i hin hin'
    · rw [update_of_ne h₁] at hrun
      by_cases h₂ : k₂ = k
      · subst h₂
        rw [update_self] at hrun'
        exact hone k₁ h₁ run' hrun' run hrun group i hin' hin
      · rw [update_of_ne h₂] at hrun'
        exact h.disjoint k₁ k₂ hne run hrun run' hrun' group i hin hin'

/-! ## Runs of calls -/

/-- A call on one of the inodes. -/
inductive StreamCall (ι : Type) where
  | SetFileSize (inode : ι) (size : Int)
  | Trim (inode : ι)
  deriving DecidableEq

variable [DecidableEq ι]

/-- The streams and the allocator after a call. -/
def StreamCall.apply (volume : Allocator σ) (streams : ι → data_stream) (s : σ) :
    StreamCall ι → (ι → data_stream) × σ
  | .SetFileSize k size =>
    let r := BFS.SetFileSize volume (streams k) size s
    (update streams k r.2.1, r.2.2)
  | .Trim k =>
    let r := BFS.Trim volume (streams k) s
    (update streams k r.2.1, r.2.2)

/-- The streams and the allocator after a sequence of calls. -/
def applyCalls (volume : Allocator σ) :
    List (StreamCall ι) → (ι → data_stream) → σ → (ι → data_stream) × σ
  | [], streams, s => (streams, s)
  | call :: calls, streams, s =>
    let r := call.apply volume streams s
    applyCalls volume calls r.1 r.2

/-- The call does not lose a run it allocates: only growing a stream can. -/
def StreamCall.CanGrow (volume : Allocator σ) (streams : ι → data_stream) (s : σ) :
    StreamCall ι → Prop
  | .SetFileSize k size => size > (streams k).size → CanGrowStream volume (streams k) size.toNat s
  | .Trim _ => True

/-- No call of the sequence loses a run. -/
def CallsCanGrow (volume : Allocator σ) : List (StreamCall ι) → (ι → data_stream) → σ → Prop
  | [], _, _ => True
  | call :: calls, streams, s =>
    call.CanGrow volume streams s ∧
      CallsCanGrow volume calls (call.apply volume streams s).1 (call.apply volume streams s).2

theorem good_update (hgood : ∀ k, (streams k).Good volume) (k : ι) {data : data_stream}
    (hdata : data.Good volume) : ∀ k', (update streams k data k').Good volume :=
  (forall_update_iff streams fun _ data => data.Good volume).mpr ⟨hdata, fun k' _ => hgood k'⟩

/-- One call. -/
theorem StreamCall.apply_owned (hcorrect : volume.Correct used) (call : StreamCall ι)
    (hgood : ∀ k, (streams k).Good volume) (h : BlocksOwned used base streams s)
    (hclean : call.CanGrow volume streams s) :
    (∀ k, ((call.apply volume streams s).1 k).Good volume) ∧
      BlocksOwned used base (call.apply volume streams s).1 (call.apply volume streams s).2 := by
  cases call with
  | SetFileSize k size =>
    obtain ⟨hdata, ho, -⟩ := SetFileSize_good hcorrect (streams k) (hgood k) size s hclean
      (h.owns k)
    exact ⟨good_update hgood k hdata, h.update k _ _ ho⟩
  | Trim k =>
    obtain ⟨hdata, ho⟩ := Trim_good hcorrect (streams k) (hgood k) s (h.owns k)
    exact ⟨good_update hgood k hdata, h.update k _ _ ho⟩

theorem applyCalls_owned (hcorrect : volume.Correct used) (calls : List (StreamCall ι))
    (hgood : ∀ k, (streams k).Good volume) (h : BlocksOwned used base streams s)
    (hclean : CallsCanGrow volume calls streams s) :
    (∀ k, ((applyCalls volume calls streams s).1 k).Good volume) ∧
      BlocksOwned used base (applyCalls volume calls streams s).1
        (applyCalls volume calls streams s).2 := by
  induction calls generalizing streams s with
  | nil => exact ⟨hgood, h⟩
  | cons call calls ih =>
    obtain ⟨hgood', h'⟩ := call.apply_owned hcorrect hgood h hclean.1
    exact ih hgood' h' hclean.2

/-- **Block ownership.** In every run of calls in which growing loses no run, the used blocks
are exactly the disjoint union of those of the inodes (and of the others), and an inode owns no
block after `SetFileSize(0)`. -/
theorem ownership_of_run (hcorrect : volume.Correct used) (calls : List (StreamCall ι))
    (hgood : ∀ k, (streams k).Good volume) (h : BlocksOwned used base streams s)
    (hclean : CallsCanGrow volume calls streams s) :
    let r := applyCalls volume calls streams s
    BlocksOwned used base r.1 r.2 ∧
      ∀ k : ι, let r' := StreamCall.apply volume r.1 r.2 (StreamCall.SetFileSize k 0)
        BlocksOwned used base r'.1 r'.2 ∧
          ∀ run ∈ ownedRuns (r'.1 k), ∀ group i, ¬run.Contains group i := by
  intro r
  obtain ⟨hgood', h'⟩ := applyCalls_owned hcorrect calls hgood h hclean
  refine ⟨h', fun k => ?_⟩
  have hzero : (StreamCall.SetFileSize k 0).CanGrow volume r.1 r.2 :=
    fun hsize => absurd hsize (by omega)
  obtain ⟨-, howned⟩ := StreamCall.apply_owned hcorrect _ hgood' h' hzero
  obtain ⟨hdata, -, hsize⟩ := SetFileSize_good hcorrect _ (hgood' k) 0 _ hzero (h'.owns k)
  refine ⟨howned, fun run hrun group i hin => ?_⟩
  have hcover := hdata.no_blocks (hsize rfl) group i
  simp only [StreamCall.apply, update_self] at hrun
  have hpos := cover_pos.2 ⟨run, hrun, hin⟩
  exact absurd hcover (Nat.ne_of_gt hpos)

end

end

/-! ## A fragmented volume -/

/-- The block behind the used ones, with a gap of one block. -/
def nextBlock (s : List Nat) : Nat := s.foldr (fun i n => max n (i + 2)) 0

/-- One group in which only every second block is free, so that there are single blocks only. -/
def fragmented : Allocator (List Nat) where
  BlockShift := 10
  FreeBlocks s := 32768 - s.length
  Allocate s _ numBlocks minimum :=
    if minimum ≤ 1 ∧ 1 ≤ numBlocks ∧ nextBlock s < 65536 then
      some (⟨1, nextBlock s, 1⟩, nextBlock s :: s)
    else none
  Free s run := s.filter fun i => ¬run.Contains 1 i

def fragmentedUsed (s : List Nat) (group : Int) (i : Nat) : Prop := group = 1 ∧ i ∈ s

theorem nextBlock_free {s : List Nat} {i : Nat} (h : i ∈ s) : i < nextBlock s := by
  induction s with
  | nil => cases h
  | cons j s ih =>
    simp only [nextBlock, foldr_cons] at ih ⊢
    rcases mem_cons.1 h with rfl | h
    · omega
    · have := ih h
      omega

theorem fragmented_allocate {s : List Nat} {data : data_stream} {numBlocks : Int}
    {minimum : Nat} {run : block_run} {s' : List Nat}
    (h : fragmented.Allocate s data numBlocks minimum = some (run, s')) :
    (minimum ≤ 1 ∧ 1 ≤ numBlocks ∧ nextBlock s < 65536) ∧ run = ⟨1, nextBlock s, 1⟩ ∧
      s' = nextBlock s :: s := by
  simp only [fragmented] at h
  split at h
  · rename_i hcond
    simp only [Option.some.injEq, Prod.mk.injEq] at h
    exact ⟨hcond, h.1.symm, h.2.symm⟩
  · cases h

theorem fragmented_correct : fragmented.Correct fragmentedUsed where
  block_size := by decide
  allocate_length s data numBlocks minimum run s' h := by
    obtain ⟨⟨hmin, hmax, hlt⟩, rfl, -⟩ := fragmented_allocate h
    simp only
    omega
  allocate_free s data numBlocks minimum run s' h group i hin hused := by
    obtain ⟨-, rfl, -⟩ := fragmented_allocate h
    obtain ⟨-, hlow, hhigh⟩ := hin
    have := nextBlock_free hused.2
    simp only at hlow
    omega
  allocate_used s data numBlocks minimum run s' h group i := by
    obtain ⟨-, rfl, rfl⟩ := fragmented_allocate h
    simp only [fragmentedUsed, block_run.Contains, mem_cons]
    constructor
    · rintro ⟨rfl, rfl | hi⟩
      · exact .inr ⟨rfl, by omega, by omega⟩
      · exact .inl ⟨rfl, hi⟩
    · rintro (⟨rfl, hi⟩ | ⟨hgroup, hlow, hhigh⟩)
      · exact ⟨rfl, .inr hi⟩
      · exact ⟨hgroup.symm, .inl (by omega)⟩
  free_used s run hpos hused group i := by
    simp only [fragmentedUsed, fragmented, mem_filter, decide_eq_true_eq]
    constructor
    · rintro ⟨rfl, hi, hin⟩
      exact ⟨⟨rfl, hi⟩, hin⟩
    · rintro ⟨⟨rfl, hi⟩, hin⟩
      exact ⟨rfl, hi, hin⟩

theorem fragmented_blocksOwned : BlocksOwned fragmentedUsed (fun _ _ => False)
    (fun _ : Unit => data_stream.empty) [] := by
  have hnone := (data_stream.empty_good fragmented).owns_nothing rfl
  refine ⟨fun group i => ⟨fun hu => absurd hu.2 not_mem_nil, ?_⟩, fun _ _ _ _ _ _ => id,
    fun _ group i => ?_, fun k k' hne => absurd rfl hne⟩
  · rintro (h | ⟨-, run, hrun, hin⟩)
    · exact h.elim
    · exact absurd hin (hnone run hrun group i)
  · rw [(data_stream.empty_good fragmented).no_blocks rfl]
    omega

/-- A file of one block is created, trimmed, and removed. -/
theorem ownership_of_run_one_block :
    let calls := [.SetFileSize () 1024, .Trim (), .SetFileSize () 0]
    let r := applyCalls fragmented calls (fun _ => data_stream.empty) []
    BlocksOwned fragmentedUsed (fun _ _ => False) r.1 r.2 :=
  (ownership_of_run fragmented_correct [.SetFileSize () 1024, .Trim (), .SetFileSize () 0]
    (fun _ => data_stream.empty_good fragmented) fragmented_blocksOwned
    ⟨fun _ _ _ _ run s' halloc => by
      obtain ⟨-, rfl, rfl⟩ := fragmented_allocate halloc
      refine ⟨⟨by decide, ?_⟩, fun _ _ _ => trivial⟩
      rw [if_pos (by decide)]
      exact fun hlast => absurd hlast.1 (by decide),
     trivial, fun hsize => absurd hsize (by omega), trivial⟩).1

/-- The thirteenth block needs an indirect array, for which four blocks cannot be found: the
other twelve are freed, this one stays used. -/
theorem setFileSize_no_indirect_not_owned :
    let calls := [StreamCall.SetFileSize () (13 * 1024)]
    let r := applyCalls fragmented calls (fun _ => data_stream.empty) []
    ¬BlocksOwned fragmentedUsed (fun _ _ => False) r.1 r.2 := by
  intro calls r h
  have hend : SetFileSize fragmented data_stream.empty (13 * 1024) [] =
      (.B_DEVICE_FULL, data_stream.empty, [24]) := by decide +kernel
  have hstream : r.1 () = data_stream.empty ∧ r.2 = [24] := by
    simp only [r, calls, applyCalls, StreamCall.apply, hend, update_self, and_self]
  have hused : fragmentedUsed r.2 1 24 := ⟨rfl, by rw [hstream.2]; simp⟩
  rcases (h.used_iff 1 24).1 hused with hbase | ⟨⟨⟩, run, hrun, hin⟩
  · exact hbase
  · have hpos := cover_pos.2 ⟨run, hrun, hin⟩
    rw [hstream.1, (data_stream.empty_good fragmented).no_blocks rfl] at hpos
    omega

end BFS
