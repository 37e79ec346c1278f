import OpenBeOS.BFS.FindBlockRun

/-! # Shrinking the double indirect range (`Inode::FreeStaticStreamArray()`)

The runs of the double indirect range are stored in arrays of four blocks, and the runs of these
in the blocks of `double_indirect`. `FreeStaticStreamArray()` goes over the entries of both levels
from the one with `size` in it on, and ends at the first unused entry. The blocks are those of the
cache, so a cleared entry is seen at once.

Reading a block may fail; freeing a run does not.
-/

namespace BFS

/-- The volume's blocks seen as arrays of runs. -/
abbrev RunBlocks := Int → Option (List block_run)

/-- What `FreeStaticStreamArray()` changes: the blocks, `max` and the allocator's state. -/
structure FreeState (σ : Type) where
  blocks : RunBlocks
  max : Nat
  allocator : σ

variable {σ : Type}

/-- `array[index]`, for the array in a block. -/
def readEntry (blocks : RunBlocks) (block : Int) (index : Nat) : block_run :=
  ((blocks block).getD []).getD index block_run.zero

/-- `array[index].SetTo(0,0,0)`. -/
def clearEntry (blocks : RunBlocks) (block : Int) (index : Nat) : RunBlocks := fun n =>
  if n = block then (blocks n).map fun array => array.set index block_run.zero else blocks n

/-- What a level does with an entry, at its file offset. -/
abbrev EntryAction (σ : Type) := block_run → Nat → FreeState σ → Status × FreeState σ

/-- The inner loop, over the remaining entries of a block: whether the first unused entry was met,
and `offset`. -/
def freeEntries (action : EntryAction σ) (indirectSize size : Nat) (block : Int) :
    Nat → Nat → Nat → FreeState σ → Status × Bool × Nat × FreeState σ
  | 0, _, offset, st => (.B_OK, false, offset, st)
  | count + 1, index, offset, st =>
    let run := readEntry st.blocks block index
    -- we also want to break out of the outer loop
    if run.IsZero then (.B_OK, true, offset, st)
    else
      match action run offset st with
      | (.B_OK, st) =>
        let st := if offset ≥ size then { st with blocks := clearEntry st.blocks block index }
          else st
        freeEntries action indirectSize size block count (index + 1) (offset + indirectSize) st
      | (status, st) => (status, false, offset, st)

/-- The outer loop, over the remaining blocks of the array. -/
def freeArrayBlocks (volume : BlockVolume σ) (action : EntryAction σ) (indirectSize size : Nat) :
    Nat → Int → Nat → Nat → FreeState σ → Status × FreeState σ
  | 0, _, _, _, st => (.B_OK, st)
  | count + 1, block, index, offset, st =>
    match st.blocks block with
    | none => (.B_ERROR, st)
    | some _ =>
      match freeEntries action indirectSize size block (volume.numberOfRuns - index) index
          offset st with
      | (.B_OK, false, offset, st) =>
        freeArrayBlocks volume action indirectSize size count (block + 1) 0 offset st
      | (status, _, _, st) => (status, st)

section

variable (volume : BlockVolume σ)

/-- The body of `FreeStaticStreamArray()`, for a level with entries of `indirectSize` bytes.
`index` is an `int32`. -/
def freeStaticArray (action : EntryAction σ) (indirectSize : Nat)
    (run : block_run) (size offset : Nat) (st : FreeState σ) : Status × FreeState σ :=
  let start := if size > offset then size - offset else 0
  let index := wrapInt32 (start / indirectSize : Nat)
  let runsPerBlock := volume.numberOfRuns
  let i := index.tdiv runsPerBlock
  -- set the file offset to the current block run
  freeArrayBlocks volume action indirectSize size (run.length - i).toNat (volume.ToBlock run + i)
    (index.tmod runsPerBlock).toNat (offset + index * indirectSize).toNat st

/-- What level 1 does with an entry, a run of the file: free it, or note that it ends the stream. -/
def freeRun (size : Nat) : EntryAction σ := fun run offset st =>
  if offset ≥ size then (.B_OK, { st with allocator := volume.Free st.allocator run })
  else (.B_OK, { st with max := offset + volume.directSize })

/-- `FreeStaticStreamArray()` at level 1: the entries are the runs of the file. -/
def FreeStaticStreamArrayRuns (size : Nat) : EntryAction σ :=
  fun run offset st =>
    freeStaticArray volume (freeRun volume size) volume.directSize run size offset st

/-- `Inode::FreeStaticStreamArray()` at level 0: the entries are the arrays of level 1. -/
def FreeStaticStreamArray (size : Nat) : EntryAction σ :=
  fun run offset st =>
    freeStaticArray volume (FreeStaticStreamArrayRuns volume size) volume.indirectSize run size
      offset st

/-- The part of `ShrinkStream()` for the double indirect range. Its status is not looked at. -/
def shrinkDouble (data : file_stream) (size : Nat) (s : σ) :
    RunBlocks × file_stream × σ :=
  if data.max_double_indirect_range > size then
    let st := (FreeStaticStreamArray volume size data.double_indirect data.max_indirect_range
      ⟨volume.runsAt, data.max_double_indirect_range, s⟩).2
    if size ≤ data.max_indirect_range then
      (st.blocks, { data with double_indirect := block_run.zero, max_double_indirect_range := 0 },
        volume.Free st.allocator data.double_indirect)
    else (st.blocks, { data with max_double_indirect_range := st.max }, st.allocator)
  else (volume.runsAt, data, s)

/-- `Inode::ShrinkStream()` with the double indirect range: the volume with the changed blocks, the
stream and the allocator's state. -/
def file_stream.ShrinkStream (data : file_stream) (size : Nat) (s : σ) :
    BlockVolume σ × file_stream × σ :=
  let r := shrinkDouble volume data size s
  let r' := BFS.ShrinkStream volume.toAllocator r.2.1.todata_stream size r.2.2
  ({ volume with runsAt := r.1 }, { r.2.1 with todata_stream := r'.1 }, r'.2)

end

/-! ## The entries of an array -/

/-- The entry of an array that starts at a block, counted through its blocks. -/
def tableEntry (blocks : RunBlocks) (runsPerBlock : Nat) (first : Int) (k : Nat) :
    Option block_run :=
  (blocks (first + (k / runsPerBlock : Nat))).bind fun array => array[k % runsPerBlock]?

/-- The entry is cleared, if it is stored in that block at that index. -/
theorem tableEntry_clearEntry (blocks : RunBlocks) (runsPerBlock : Nat) (first : Int) (k : Nat)
    (block : Int) (index : Nat) :
    tableEntry (clearEntry blocks block index) runsPerBlock first k =
      if first + (k / runsPerBlock : Nat) = block ∧ k % runsPerBlock = index then
        (tableEntry blocks runsPerBlock first k).map fun _ => block_run.zero
      else tableEntry blocks runsPerBlock first k := by
  unfold tableEntry clearEntry
  by_cases hblock : first + (k / runsPerBlock : Nat) = block
  · rw [if_pos hblock]
    cases blocks (first + (k / runsPerBlock : Nat)) with
    | none => simp
    | some array =>
      simp only [Option.map_some, Option.bind_some, hblock, true_and, List.getElem?_set]
      by_cases hindex : index = k % runsPerBlock
      · subst hindex
        rw [if_pos rfl, if_pos rfl]
        split
        · rename_i hlt
          rw [List.getElem?_eq_getElem hlt]
          rfl
        · rename_i hlt
          rw [List.getElem?_eq_none (by omega)]
          rfl
      · rw [if_neg hindex, if_neg (Ne.symm hindex)]
  · rw [if_neg hblock, if_neg fun h => hblock h.1]

theorem block_of_tableEntry {blocks : RunBlocks} {runsPerBlock : Nat} {first : Int} {i index : Nat}
    {run : block_run} (hindex : index < runsPerBlock)
    (h : tableEntry blocks runsPerBlock first (i * runsPerBlock + index) = some run) :
    ∃ array, blocks (first + i) = some array ∧ array[index]? = some run := by
  have hdiv : (i * runsPerBlock + index) / runsPerBlock = i := by
    rw [Nat.mul_comm, Nat.mul_add_div (by omega), Nat.div_eq_of_lt hindex, Nat.add_zero]
  have hmod : (i * runsPerBlock + index) % runsPerBlock = index := by
    rw [Nat.mul_comm, Nat.mul_add_mod, Nat.mod_eq_of_lt hindex]
  rw [tableEntry, hdiv, hmod] at h
  exact Option.bind_eq_some_iff.1 h

/-- The state behind an entry: it is cleared, if it lies at or behind `size`. -/
def FreeState.leave (st : FreeState σ) (size offset : Nat) (block : Int) (index : Nat) :
    FreeState σ :=
  if offset ≥ size then { st with blocks := clearEntry st.blocks block index } else st

/-! ## A rule for the loops

`Inv k` holds before the entry `k` of the array, counted through its blocks, is looked at. -/

section

variable {volume : BlockVolume σ} {action : EntryAction σ} {indirectSize size base count : Nat}
  {first : Int} {Inv : Nat → FreeState σ → Prop} {Post : FreeState σ → Prop}

/-- Before each of the `count` entries the invariant holds, and the loops end where it holds behind
the last one, or at an unused entry. -/
structure LoopRule (volume : BlockVolume σ) (action : EntryAction σ)
    (indirectSize size base count : Nat) (first : Int) (Inv : Nat → FreeState σ → Prop)
    (Post : FreeState σ → Prop) : Prop where
  entry : ∀ k st, Inv k st → k < count → ∃ run,
    tableEntry st.blocks volume.numberOfRuns first k = some run ∧ (run.IsZero = true → Post st) ∧
      (run.IsZero = false → ∃ st', action run (base + k * indirectSize) st = (.B_OK, st') ∧
        Inv (k + 1) (st'.leave size (base + k * indirectSize)
          (first + (k / volume.numberOfRuns : Nat)) (k % volume.numberOfRuns)))
  last : ∀ st, Inv count st → Post st

theorem LoopRule.overEntries {blocks i : Nat}
    (h : LoopRule volume action indirectSize size base (blocks * volume.numberOfRuns) first Inv Post)
    (hi : i < blocks) :
    ∀ (n index : Nat) (st : FreeState σ), index + n = volume.numberOfRuns →
      Inv (i * volume.numberOfRuns + index) st →
      (∃ offset st', freeEntries action indirectSize size (first + i) n index
          (base + (i * volume.numberOfRuns + index) * indirectSize) st = (.B_OK, true, offset, st') ∧
        Post st') ∨
      ∃ st', freeEntries action indirectSize size (first + i) n index
          (base + (i * volume.numberOfRuns + index) * indirectSize) st =
            (.B_OK, false, base + (i + 1) * volume.numberOfRuns * indirectSize, st') ∧
        Inv ((i + 1) * volume.numberOfRuns) st' := by
  have hnext : (i + 1) * volume.numberOfRuns = i * volume.numberOfRuns + volume.numberOfRuns := by
    rw [Nat.add_mul, Nat.one_mul]
  have hle := Nat.mul_le_mul_right volume.numberOfRuns (show i + 1 ≤ blocks from hi)
  intro n
  induction n with
  | zero =>
    intro index st hindex hinv
    have hend : i * volume.numberOfRuns + index = (i + 1) * volume.numberOfRuns := by omega
    rw [hend] at hinv ⊢
    exact .inr ⟨st, rfl, hinv⟩
  | succ n ih =>
    intro index st hindex hinv
    obtain ⟨run, hrun, hzero, hused⟩ := h.entry _ st hinv (by omega)
    obtain ⟨array, harray, hget⟩ := block_of_tableEntry (by omega) hrun
    have hread : readEntry st.blocks (first + i) index = run := by
      rw [readEntry, harray, Option.getD_some, List.getD_eq_getElem?_getD, hget, Option.getD_some]
    rw [freeEntries]
    simp only [hread]
    by_cases hz : run.IsZero = true
    · rw [if_pos hz]
      exact .inl ⟨_, st, rfl, hzero hz⟩
    · rw [if_neg hz]
      obtain ⟨st', haction, hinv'⟩ := hused (by simpa using hz)
      have hdiv : (i * volume.numberOfRuns + index) / volume.numberOfRuns = i := by
        rw [Nat.mul_comm, Nat.mul_add_div (by omega), Nat.div_eq_of_lt (by omega), Nat.add_zero]
      have hmod : (i * volume.numberOfRuns + index) % volume.numberOfRuns = index := by
        rw [Nat.mul_comm, Nat.mul_add_mod, Nat.mod_eq_of_lt (by omega)]
      rw [hdiv, hmod] at hinv'
      have hoffset : base + (i * volume.numberOfRuns + index) * indirectSize + indirectSize =
          base + (i * volume.numberOfRuns + (index + 1)) * indirectSize := by
        rw [← Nat.add_assoc (i * _), Nat.add_mul _ 1, Nat.one_mul, Nat.add_assoc]
      rw [haction]
      simp only
      rw [hoffset]
      exact ih (index + 1) _ (by omega) hinv'

theorem LoopRule.overBlocks {blocks : Nat}
    (h : LoopRule volume action indirectSize size base (blocks * volume.numberOfRuns) first Inv
      Post) :
    ∀ (n i index : Nat) (st : FreeState σ), i + n = blocks → index < volume.numberOfRuns →
      (n = 0 → index = 0) → Inv (i * volume.numberOfRuns + index) st →
      ∃ st', freeArrayBlocks volume action indirectSize size n (first + i) index
        (base + (i * volume.numberOfRuns + index) * indirectSize) st = (.B_OK, st') ∧ Post st' := by
  intro n
  induction n with
  | zero =>
    intro i index st hi hindex hzero hinv
    rw [hzero rfl, Nat.add_zero, show i = blocks by omega] at hinv
    exact ⟨st, rfl, h.last st hinv⟩
  | succ n ih =>
    intro i index st hi hindex _ hinv
    have hle := Nat.mul_le_mul_right volume.numberOfRuns (show i + 1 ≤ blocks by omega)
    rw [Nat.add_mul, Nat.one_mul] at hle
    obtain ⟨run, hrun, -, -⟩ := h.entry _ st hinv (by omega)
    obtain ⟨array, harray, -⟩ := block_of_tableEntry hindex hrun
    rw [freeArrayBlocks, harray]
    simp only
    rcases h.overEntries (show i < blocks by omega) (volume.numberOfRuns - index) index st
      (by omega) hinv with ⟨offset, st', heq, hpost⟩ | ⟨st', heq, hinv'⟩
    · rw [heq]
      exact ⟨st', rfl, hpost⟩
    · rw [heq]
      simp only
      obtain ⟨st'', heq', hpost⟩ := ih (i + 1) 0 st' (by omega) (by omega) (fun _ => rfl)
        (by rwa [Nat.add_zero])
      refine ⟨st'', ?_, hpost⟩
      rw [Nat.add_zero, Nat.cast_add, Nat.cast_one, ← Int.add_assoc] at heq'
      exact heq'

/-- **The rule.** From the entry with `size` in it on, the loops keep the invariant. -/
theorem LoopRule.overArray {run : block_run}
    (h : LoopRule volume action indirectSize size base (run.length * volume.numberOfRuns)
      (volume.ToBlock run) Inv Post)
    (hstart : (size - base) / indirectSize < run.length * volume.numberOfRuns)
    (hlt : (size - base) / indirectSize < 2 ^ 31) {st : FreeState σ}
    (hinv : Inv ((size - base) / indirectSize) st) :
    ∃ st', freeStaticArray volume action indirectSize run size base st = (.B_OK, st') ∧
      Post st' := by
  have hstart_eq : (if size > base then size - base else 0) = size - base := by
    split <;> omega
  simp only [freeStaticArray, hstart_eq]
  generalize (size - base) / indirectSize = k at *
  have hpos : 0 < volume.numberOfRuns := Nat.pos_of_mul_pos_left (Nat.zero_lt_of_lt hstart)
  have hdiv := Nat.div_add_mod k volume.numberOfRuns
  have hmod := Nat.mod_lt k hpos
  rw [Nat.mul_comm] at hdiv
  have hi : k / volume.numberOfRuns < run.length := (Nat.div_lt_iff_lt_mul hpos).2 hstart
  have hwrap : wrapInt32 (k : Int) = k := wrapInt32_of_lt (by omega) (by omega)
  obtain ⟨st', heq, hpost⟩ := h.overBlocks (run.length - k / volume.numberOfRuns)
    (k / volume.numberOfRuns) (k % volume.numberOfRuns) st (by omega) hmod (by omega)
    (by rwa [hdiv])
  refine ⟨st', ?_, hpost⟩
  rw [hdiv] at heq
  simp only [hwrap, ← Int.ofNat_tdiv, ← Int.ofNat_tmod, Int.toNat_natCast]
  rw [show ((run.length : Int) - (k / volume.numberOfRuns : Nat)).toNat =
      run.length - k / volume.numberOfRuns by omega,
    show ((base : Int) + (k : Int) * (indirectSize : Int)).toNat = base + k * indirectSize by
      rw [← Nat.cast_mul, ← Nat.cast_add, Int.toNat_natCast]]
  exact heq

end

end BFS
