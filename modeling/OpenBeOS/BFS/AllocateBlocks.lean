import OpenBeOS.BFS.BlockAllocator

/-! # `AllocateBlocks()` allocates exactly what it returns

`searchGroups_found` says what the search promises about the range it stops at. From it
`allocatesExactly_iff` decides exactly when the whole call does what it should: the range must
lie in one bitmap block (`AllocatesInPlace`), and where the group keeps its bits.
-/

namespace BFS

open Bitmap

/-! ## The bits of a group -/

/-- The bit `i` of a group: it lies in the group's bitmap block `i / blockBits`. -/
def BlockAllocator.groupBit (a : BlockAllocator) (group i : Nat) : Bool :=
  bit (a.blocks ((a.fGroups group).fStart + i / a.blockBits)) (i % a.blockBits)

/-- The bit `j` of the device block `b` is one of the bits `[start, start + length)` of a
group. -/
def BlockAllocator.InRun (a : BlockAllocator) (group start length b j : Nat) : Prop :=
  ∃ i, start ≤ i ∧ i < start + length ∧ b = (a.fGroups group).fStart + i / a.blockBits ∧
    j = i % a.blockBits

theorem BlockAllocator.NumBlockBits_pos (a : BlockAllocator) (group : Nat)
    (h : 0 < a.BlockSize) : 0 < a.NumBlockBits group := by
  unfold NumBlockBits blockBits
  split <;> omega

theorem BlockAllocator.NumBlockBits_le (a : BlockAllocator) (group : Nat)
    (h : 0 < a.BlockSize) : a.NumBlockBits group ≤ a.blockBits := by
  have hpos : 0 < a.blockBits := by unfold blockBits; omega
  unfold NumBlockBits
  split
  · exact Nat.le_of_lt (Nat.mod_lt _ hpos)
  · exact Nat.le_refl _

/-! ## Marking the bits of a bitmap block -/

theorem AllocationBlock.runLength_le (fNumBits start numBlocks : Nat) (h : numBlocks < 65536) :
    runLength fNumBits start numBlocks ≤ numBlocks := by
  unfold runLength toUint16
  split
  · omega
  · split <;> omega

theorem AllocationBlock.runLength_eq_iff {fNumBits start numBlocks : Nat} (h : numBlocks < 65536)
    (hs : start < fNumBits) :
    runLength fNumBits start numBlocks = numBlocks ↔ start + numBlocks ≤ fNumBits ∧
        (numBlocks = 65535 → (fNumBits - start) % 65536 = 65535) := by
  unfold runLength toUint16
  split
  · omega
  · split <;> omega

theorem AllocationBlock.bit_Allocate (w : Words) (fNumBits start numBlocks j : Nat) :
    bit (Allocate w fNumBits start numBlocks) j =
      if start % fNumBits ≤ j ∧
          j < start % fNumBits + runLength fNumBits (start % fNumBits) numBlocks then true
      else bit w j := by
  simp only [Allocate]
  rw [bit_markLoop writes_or _ _ _ _ _ (Nat.le_refl _)]
  have : 32 * (start % fNumBits / 32) + start % fNumBits % 32 = start % fNumBits := by omega
  rw [this]

theorem AllocationBlock.bit_Free (w : Words) (fNumBits start numBlocks j : Nat) :
    bit (Free w fNumBits start numBlocks) j =
      if start % fNumBits ≤ j ∧
          j < start % fNumBits + runLength fNumBits (start % fNumBits) numBlocks then false
      else bit w j := by
  simp only [Free]
  rw [bit_markLoop writes_andNot _ _ _ _ _ (Nat.le_refl _)]
  have : 32 * (start % fNumBits / 32) + start % fNumBits % 32 = start % fNumBits := by omega
  rw [this]

/-! ## The search -/

/-- The range was started in this bitmap block: it covers unused bits of it up to `limit`. -/
def Range.Covers (used : Nat → Bool) (numBits block limit : Nat) (r : Range) : Prop :=
  r.rangeBlock = block ∧ ∃ first, r.rangeStart = block * numBits + first ∧
    first + r.range ≤ limit ∧ ∀ i, i < r.range → used (toUint16 (first + i)) = false

/-- The range covers unused bits of this bitmap block up to the bit before `bit`. -/
def Range.Reaches (used : Nat → Bool) (numBits block bit : Nat) (r : Range) : Prop :=
  r.rangeBlock = block ∧ ∃ first, r.rangeStart = block * numBits + first ∧
    first + r.range = bit ∧ ∀ i, i < r.range → used (toUint16 (first + i)) = false

variable {a : BlockAllocator} {maximum minimum group block numBlocks : Nat} {dev : Device}
  {r : Range} {run : block_run} {used : Nat → Bool}

theorem Range.Reaches.covers {numBits block bit limit : Nat}
    (h : r.Reaches used numBits block bit) (hle : bit ≤ limit) :
    r.Covers used numBits block limit := by
  obtain ⟨hb, first, hs, he, hu⟩ := h
  exact ⟨hb, first, hs, by omega, hu⟩

theorem Range.extend_range (r : Range) (numBits block bit : Nat) :
    (r.extend numBits block bit).range = r.range + 1 := by
  unfold extend
  split
  · simp only; omega
  · rfl

/-- An unused bit extends the range in this bitmap block, or one carried over from an earlier
block (`Carried`). -/
theorem Range.extend_reaches {numBits block bit : Nat} {Carried : Prop} (hused : used (toUint16 bit) = false)
    (hr : r.range = 0 ∨ (r.rangeBlock < block ∧ Carried) ∨ r.Reaches used numBits block bit) :
    ((r.extend numBits block bit).rangeBlock < block ∧ Carried) ∨
      (r.extend numBits block bit).Reaches used numBits block (bit + 1) := by
  by_cases h0 : r.range = 0
  · right
    rw [extend, if_pos h0]
    refine ⟨rfl, bit, rfl, rfl, fun i hi => ?_⟩
    have : i = 0 := by simp only at hi; omega
    subst this
    exact hused
  · rw [extend, if_neg h0]
    rcases hr with h | h | ⟨hb, first, hs, he, hu⟩
    · exact absurd h h0
    · exact .inl h
    · refine .inr ⟨hb, first, hs, by simp only; omega, fun i hi => ?_⟩
      simp only at hi
      by_cases hlt : i < r.range
      · exact hu i hlt
      · have : first + i = bit := by omega
        rw [this]
        exact hused

theorem searchBits_range_le (used : Nat → Bool) (numBits block maximum minimum : Nat)
    (secondPass : Bool) (fuel bit : Nat) (r : Range) (hr : r.range < maximum) :
    (searchBits used numBits block maximum minimum secondPass fuel bit r).range ≤ maximum := by
  induction fuel generalizing bit r with
  | zero => exact Nat.le_of_lt hr
  | succ fuel ih =>
    have hext := r.extend_range numBits block bit
    simp only [searchBits]
    split
    · split
      · omega
      · exact ih _ _ (by omega)
    · split
      · omega
      · exact ih _ _ (by simp only; omega)

/-- The range the search of a bitmap block ends with is empty, comes from an earlier block, or
covers unused bits of this block. -/
theorem searchBits_covers (used : Nat → Bool) (numBits block maximum minimum : Nat)
    (secondPass : Bool) {Carried : Prop} (fuel bit : Nat) (r : Range)
    (hr : r.range = 0 ∨ (r.rangeBlock < block ∧ Carried) ∨ r.Reaches used numBits block bit) :
    let r' := searchBits used numBits block maximum minimum secondPass fuel bit r
    r'.range = 0 ∨ (r'.rangeBlock < block ∧ Carried) ∨
      r'.Covers used numBits block (bit + fuel) := by
  induction fuel generalizing bit r with
  | zero =>
    rcases hr with h | h | h
    · exact .inl h
    · exact .inr (.inl h)
    · exact .inr (.inr (h.covers (Nat.le_refl _)))
  | succ fuel ih =>
    have hend : bit + 1 + fuel = bit + (fuel + 1) := by omega
    simp only [searchBits]
    split
    · rename_i hused
      have hext := Range.extend_reaches hused hr
      split
      · rcases hext with h | h
        · exact .inr (.inl h)
        · exact .inr (.inr (h.covers (by omega)))
      · rw [← hend]
        exact ih _ _ (.inr hext)
    · split
      · rcases hr with h | h | h
        · exact .inl h
        · exact .inr (.inl h)
        · exact .inr (.inr (h.covers (by omega)))
      · rw [← hend]
        exact ih _ _ (.inl rfl)

/-- What the search promises about the range it stops at. -/
structure Found (dev : Device) (a : BlockAllocator) (maximum minimum group block numBlocks : Nat)
    (r : Range) : Prop where
  group_lt : group < a.fNumGroups
  range_eq : numBlocks = r.range
  minimum_le : minimum ≤ numBlocks
  le_maximum : numBlocks ≤ maximum
  /-- The range crosses into this block from an earlier one, or lies in it. -/
  place : (r.rangeBlock < block ∧ dev.read ((a.fGroups group).fStart + block - 1) = true) ∨
    r.Covers (AllocationBlock.IsUsed (a.blocks ((a.fGroups group).fStart + block))
      (a.NumBlockBits group)) (a.NumBlockBits group) block (a.NumBlockBits group)

theorem searchBlocks_found
    {group maximum minimum numBlocks : Nat} {secondPass : Bool} (hsize : 0 < a.BlockSize)
    (hgroup : group < a.fNumGroups) (hmin : 0 < minimum) (hmax : maximum < 65536)
    (hnum : minimum ≤ numBlocks) (hnum' : numBlocks ≤ maximum) (fuel block start : Nat)
    (r : Range) (hlt : r.range < numBlocks)
    (hr : r.range = 0 ∨
      (r.rangeBlock < block ∧ dev.read ((a.fGroups group).fStart + block - 1) = true))
    {group' block' numBlocks' : Nat} {r' : Range}
    (h : searchBlocks dev a group maximum minimum numBlocks secondPass fuel block start r =
      .found group' block' numBlocks' r') :
    group' = group ∧ Found dev a maximum minimum group block' numBlocks' r' := by
  induction fuel generalizing block start r with
  | zero => cases h
  | succ fuel ih =>
    have hbits := a.NumBlockBits_pos group hsize
    have hbit := Nat.mod_lt start hbits
    simp only [searchBlocks] at h
    split at h
    · cases h
    · rename_i hread
      have hle := searchBits_range_le
        (AllocationBlock.IsUsed (a.blocks ((a.fGroups group).fStart + block))
          (a.NumBlockBits group)) (a.NumBlockBits group) block maximum minimum secondPass
        (a.NumBlockBits group - start % a.NumBlockBits group)
        (start % a.NumBlockBits group) r (Nat.lt_of_lt_of_le hlt hnum')
      have hcov := searchBits_covers
        (AllocationBlock.IsUsed (a.blocks ((a.fGroups group).fStart + block))
          (a.NumBlockBits group)) (a.NumBlockBits group) block maximum minimum secondPass
        (a.NumBlockBits group - start % a.NumBlockBits group)
        (start % a.NumBlockBits group) r (hr.imp_right .inl)
      have hend : start % a.NumBlockBits group +
          (a.NumBlockBits group - start % a.NumBlockBits group) = a.NumBlockBits group := by
        omega
      rw [hend] at hcov
      generalize searchBits _ _ _ _ _ _ _ _ r = r₁ at h hle hcov
      split at h
      · rename_i hge
        cases h
        have hrange : (if numBlocks < maximum then toUint16 r'.range else numBlocks) =
            r'.range := by
          split
          · exact toUint16_of_lt (by omega)
          · omega
        rw [hrange]
        refine ⟨rfl, hgroup, rfl, by omega, hle, ?_⟩
        rcases hcov with h0 | h | h
        · omega
        · exact .inl h
        · exact .inr h
      · rename_i hge
        refine ih (block + 1) 0 r₁ (by omega) ?_ h
        have hread' : dev.read ((a.fGroups group).fStart + (block + 1) - 1) = true := by
          rw [Nat.add_sub_assoc (by omega)]
          simpa using hread
        rcases hcov with h0 | h | h
        · exact .inl h0
        · exact .inr ⟨by omega, hread'⟩
        · exact .inr ⟨by have := h.1; omega, hread'⟩

theorem searchGroups_found {maximum minimum : Nat}
    (hsize : 0 < a.BlockSize) (hmin : 0 < minimum) (hle : minimum ≤ maximum)
    (hmax : maximum < 65536) (fuel i group start : Nat) (hgroups : 0 < a.fNumGroups)
    {group' block numBlocks : Nat}
    (h : searchGroups dev a maximum minimum fuel i group start = .found group' block numBlocks r) :
    Found dev a maximum minimum group' block numBlocks r := by
  induction fuel generalizing i group start with
  | zero => cases h
  | succ fuel ih =>
    simp only [searchGroups] at h
    split at h
    · exact ih _ _ _ h
    · split at h
      · cases h
      · split at h
        · exact ih _ _ _ h
        · have hnum : minimum ≤ (if i ≥ a.fNumGroups then minimum else maximum) := by
            split <;> omega
          have hnum' : (if i ≥ a.fNumGroups then minimum else maximum) ≤ maximum := by
            split <;> omega
          obtain ⟨rfl, hfound⟩ := searchBlocks_found hsize (Nat.mod_lt group hgroups) hmin hmax
            hnum hnum' _ _ _ ⟨0, 0, 0⟩ (by simp only; omega) (.inl rfl) h
          exact hfound

/-! ## What a call should do -/

/-- The geometries the volume accepts: the block size is a power of two
(`IsValidSuperBlock()`), and no group has more bits than its bitmap blocks. -/
structure BlockAllocator.ValidGeometry (a : BlockAllocator) : Prop where
  block_size : ∃ shift, a.BlockSize = 2 ^ shift
  groups_pos : 0 < a.fNumGroups
  blocks_pos : 0 < a.fBlocksPerGroup
  numBits_le : ∀ group, group < a.fNumGroups →
    (a.fGroups group).fNumBits ≤ a.fBlocksPerGroup * a.blockBits

theorem BlockAllocator.ValidGeometry.size_pos (h : a.ValidGeometry) : 0 < a.BlockSize := by
  obtain ⟨shift, hs⟩ := h.block_size
  rw [hs]
  exact Nat.pos_of_ne_zero (by simp)

/-- The summary of a group agrees with its bits. -/
structure BlockAllocator.GroupConsistent (a : BlockAllocator) (group : Nat) : Prop where
  free_bits : (a.fGroups group).fFreeBits =
    Nat.count (fun i => a.groupBit group i = false) (a.fGroups group).fNumBits
  first_free : ∀ i : Nat, (i : Int) < (a.fGroups group).fFirstFree →
    i < (a.fGroups group).fNumBits → a.groupBit group i = true

/-- A successful call returns a run of free blocks of one group, of a length in the wanted
bounds, and takes exactly these; a failed one changes nothing. -/
structure AllocatesExactly (a : BlockAllocator) (maximum minimum : Nat) (status : Status)
    (run : block_run) (a' : BlockAllocator) : Prop where
  ok : status = .B_OK → ∃ group : Nat, run.allocation_group = group ∧ group < a.fNumGroups ∧
    minimum ≤ run.length ∧ run.length ≤ maximum ∧
    run.start + run.length ≤ (a.fGroups group).fNumBits ∧
    (∀ i, run.start ≤ i → i < run.start + run.length → a.groupBit group i = false) ∧
    (∀ b j, bit (a'.blocks b) j = true ↔
      bit (a.blocks b) j = true ∨ a.InRun group run.start run.length b j) ∧
    (a'.fGroups group).fFreeBits = (a.fGroups group).fFreeBits - run.length ∧
    (∀ g, g ≠ group → a'.fGroups g = a.fGroups g) ∧
    a'.used_blocks = a.used_blocks + run.length
  error : status ≠ .B_OK → a' = a

/-- The range the search has stopped at can be allocated as it is: it lies in one bitmap block,
which can be written, the returned `uint16` start is a bit of just this block (of a group that
has bits there), and the length is not mistaken for the magic `0xffff`. The search itself
looks at the bits of a block modulo `2^16`, so for larger bitmap blocks the bits must also be
free. -/
structure AllocatesInPlace (dev : Device) (a : BlockAllocator) (group block numBlocks : Nat)
    (r : Range) : Prop where
  one_block : r.rangeBlock = block
  written : dev.write ((a.fGroups group).fStart + block) = true
  in_group : toUint16 r.rangeStart + numBlocks ≤ (a.fGroups group).fNumBits
  block_eq : toUint16 r.rangeStart / a.blockBits = block
  bit_eq : toUint16 r.rangeStart % a.blockBits = toUint16 r.rangeStart % a.NumBlockBits group
  not_magic : numBlocks = 65535 →
    (a.NumBlockBits group - toUint16 r.rangeStart % a.NumBlockBits group) % 65536 = 65535
  wide : 65536 < a.blockBits →
    toUint16 r.rangeStart % a.NumBlockBits group + numBlocks ≤ a.NumBlockBits group ∧
      ∀ i, toUint16 r.rangeStart ≤ i → i < toUint16 r.rangeStart + numBlocks →
        a.groupBit group i = false

/-! ## When it does -/

/-- Bits in one bitmap block are consecutive bits of the group. -/
theorem BlockAllocator.inRun_of_block (a : BlockAllocator) (group start length : Nat) {block : Nat}
    (hpos : 0 < a.blockBits) (hblock : start / a.blockBits = block)
    (hfit : start % a.blockBits + length ≤ a.blockBits) (b j : Nat) :
    a.InRun group start length b j ↔ b = (a.fGroups group).fStart + block ∧
      start % a.blockBits ≤ j ∧ j < start % a.blockBits + length := by
  have hsplit := Nat.div_add_mod start a.blockBits
  rw [hblock] at hsplit
  have hdiv : ∀ k, k < a.blockBits → (a.blockBits * block + k) / a.blockBits = block := by
    intro k hk
    rw [Nat.mul_add_div hpos, Nat.div_eq_of_lt hk, Nat.add_zero]
  have hmod : ∀ k, k < a.blockBits → (a.blockBits * block + k) % a.blockBits = k := by
    intro k hk
    rw [Nat.mul_add_mod, Nat.mod_eq_of_lt hk]
  constructor
  · rintro ⟨i, hi, hi', rfl, rfl⟩
    obtain ⟨k, rfl⟩ := Nat.exists_eq_add_of_le (show a.blockBits * block ≤ i by omega)
    rw [hdiv k (by omega), hmod k (by omega)]
    exact ⟨rfl, by omega, by omega⟩
  · rintro ⟨rfl, hj, hj'⟩
    refine ⟨a.blockBits * block + j, by omega, by omega, ?_, ?_⟩
    · rw [hdiv j (by omega)]
    · rw [hmod j (by omega)]

/-- The bits of the range are unused bits of the block they were found in, unless the block
has more bits than a `uint16` can count. -/
theorem Range.Covers.place_eq {group block : Nat} (hgeo : a.ValidGeometry)
    (hcov : r.Covers used (a.NumBlockBits group) block (a.NumBlockBits group))
    (hpos : 0 < r.range) (hnarrow : a.blockBits ≤ 65536)
    (hblock : toUint16 r.rangeStart / a.blockBits = block)
    (hbit : toUint16 r.rangeStart % a.blockBits = toUint16 r.rangeStart % a.NumBlockBits group) :
    toUint16 r.rangeStart % a.NumBlockBits group + r.range ≤ a.NumBlockBits group ∧
      ∀ i, i < r.range → used (toUint16 r.rangeStart % a.NumBlockBits group + i) = false := by
  obtain ⟨-, first, hstart, hfit, hused⟩ := hcov
  have hle := a.NumBlockBits_le group hgeo.size_pos
  have hfirst : toUint16 r.rangeStart % a.NumBlockBits group = first := by
    by_cases hnb : a.NumBlockBits group = a.blockBits
    · -- the power of two divides 2^16, so the cut to `uint16` does not change the bit
      obtain ⟨shift, hshift⟩ := hgeo.block_size
      have hbits : a.blockBits = 2 ^ (shift + 3) := by
        rw [BlockAllocator.blockBits, hshift, Nat.pow_add]
      have hdvd : a.blockBits ∣ 65536 := by
        rw [hbits] at hnarrow ⊢
        have : shift + 3 ≤ 16 := (Nat.pow_le_pow_iff_right (by decide)).1
          (show 2 ^ (shift + 3) ≤ 2 ^ 16 from hnarrow)
        exact Nat.pow_dvd_pow 2 this
      rw [hnb, toUint16, Nat.mod_mod_of_dvd _ hdvd, hstart, hnb, Nat.mul_add_mod_self_right,
        Nat.mod_eq_of_lt (by omega)]
    · have hsplit := Nat.div_add_mod (toUint16 r.rangeStart) a.blockBits
      rw [hblock] at hsplit
      have hcut := Nat.div_add_mod r.rangeStart 65536
      change 65536 * (r.rangeStart / 65536) + toUint16 r.rangeStart = _ at hcut
      have hq := Nat.mod_lt (toUint16 r.rangeStart) (a.NumBlockBits_pos group hgeo.size_pos)
      rcases Nat.eq_zero_or_pos block with rfl | hb
      · have hsmall : toUint16 r.rangeStart = first := by
          rw [hstart, Nat.zero_mul, Nat.zero_add, toUint16_of_lt (by omega)]
        rw [hsmall, Nat.mod_eq_of_lt (by omega)]
      · exfalso
        have hmul : a.NumBlockBits group * block + block ≤ a.blockBits * block := by
          have := Nat.mul_le_mul_right block (show a.NumBlockBits group + 1 ≤ a.blockBits by omega)
          rwa [Nat.add_mul, Nat.one_mul] at this
        rw [Nat.mul_comm] at hstart
        rcases Nat.eq_zero_or_pos (r.rangeStart / 65536) with hk | hk
        · have hmod : toUint16 r.rangeStart % a.NumBlockBits group = first := by
            have : toUint16 r.rangeStart = a.NumBlockBits group * block + first := by omega
            rw [this, Nat.mul_add_mod, Nat.mod_eq_of_lt (by omega)]
          omega
        · omega
  rw [hfirst]
  refine ⟨hfit, fun i hi => ?_⟩
  have := hused i hi
  rwa [toUint16_of_lt (by omega)] at this

/-- The allocator after a range in one bitmap block was taken. -/
def BlockAllocator.takeRange (a : BlockAllocator) (group block numBlocks rangeStart : Nat) :
    BlockAllocator :=
  let cached := (a.fGroups group).fStart + block
  { (a.setGroup group ((a.fGroups group).take rangeStart numBlocks)).setBlock cached
      (AllocationBlock.Allocate (a.blocks cached) (a.NumBlockBits group) (toUint16 rangeStart)
        numBlocks) with
    used_blocks := a.used_blocks + numBlocks }

theorem BlockAllocator.allocateRange_one_block
    {group block numBlocks : Nat} (h : r.rangeBlock = block) :
    a.allocateRange dev group block numBlocks r run =
      (if dev.write ((a.fGroups group).fStart + block) then .B_OK else .B_ERROR,
        ⟨group, toUint16 r.rangeStart, numBlocks⟩,
        a.takeRange group block numBlocks r.rangeStart) := by
  unfold allocateRange takeRange
  simp only
  rw [if_neg (by omega)]
  rfl

theorem BlockAllocator.allocateRange_crossing
    {group block numBlocks : Nat} (h : r.rangeBlock < block)
    (hread : dev.read ((a.fGroups group).fStart + block - 1) = true) :
    (a.allocateRange dev group block numBlocks r run).1 = .B_ERROR := by
  unfold allocateRange
  simp only
  rw [if_pos (by omega)]
  split
  · rfl
  · rfl

theorem BlockAllocator.allocateRange_freeBits (dev : Device) (a : BlockAllocator)
    (group block numBlocks : Nat) (r : Range) (run : block_run) :
    ((a.allocateRange dev group block numBlocks r run).2.2.fGroups group).fFreeBits =
      (a.fGroups group).fFreeBits - numBlocks := by
  have hgroup : (a.allocateRange dev group block numBlocks r run).2.2.fGroups =
      (a.setGroup group ((a.fGroups group).take r.rangeStart numBlocks)).fGroups := by
    unfold allocateRange
    simp only
    split
    · split
      · rfl
      · split <;> rfl
    · rfl
  rw [hgroup]
  simp [setGroup, AllocationGroup.take]

theorem BlockAllocator.bit_takeRange (a : BlockAllocator) (group block numBlocks rangeStart b j : Nat) :
    bit ((a.takeRange group block numBlocks rangeStart).blocks b) j = true ↔
      bit (a.blocks b) j = true ∨ (b = (a.fGroups group).fStart + block ∧
        toUint16 rangeStart % a.NumBlockBits group ≤ j ∧
        j < toUint16 rangeStart % a.NumBlockBits group +
          AllocationBlock.runLength (a.NumBlockBits group)
            (toUint16 rangeStart % a.NumBlockBits group) numBlocks) := by
  simp only [takeRange, setBlock, setGroup]
  by_cases hb : b = (a.fGroups group).fStart + block
  · rw [if_pos hb, AllocationBlock.bit_Allocate, hb]
    split
    · rename_i h
      simp only [true_and, true_iff]
      exact .inr h
    · rename_i h
      simp only [true_and]
      exact ⟨.inl, fun h' => h'.resolve_right h⟩
  · rw [if_neg hb]
    simp [hb]

section

variable (hgeo : a.ValidGeometry) (hmin : 0 < minimum)
include hgeo hmin

/-- The bits of the range are free in the bitmap. -/
theorem Found.free (hf : Found dev a maximum minimum group block numBlocks r)
    (hp : AllocatesInPlace dev a group block numBlocks r) :
    toUint16 r.rangeStart % a.NumBlockBits group + numBlocks ≤ a.NumBlockBits group ∧
      ∀ i, toUint16 r.rangeStart ≤ i → i < toUint16 r.rangeStart + numBlocks →
        a.groupBit group i = false := by
  by_cases hwide : 65536 < a.blockBits
  · exact hp.wide hwide
  · have hcov := hf.place.resolve_left (fun h => by have := hp.one_block; omega)
    have hrange := hf.range_eq
    have hpos : 0 < r.range := by have := hf.minimum_le; omega
    obtain ⟨hfit, hused⟩ := hcov.place_eq hgeo hpos (by omega) hp.block_eq hp.bit_eq
    rw [hrange]
    refine ⟨hfit, fun i hi hi' => ?_⟩
    have hle := a.NumBlockBits_le group hgeo.size_pos
    have hpos : 0 < a.blockBits := by
      have := a.NumBlockBits_pos group hgeo.size_pos
      omega
    obtain ⟨hb, hj, hj'⟩ := (BlockAllocator.inRun_of_block a group
      (toUint16 r.rangeStart) r.range hpos hp.block_eq (by rw [hp.bit_eq]; omega) _ _).1 ⟨i, hi, hi', rfl, rfl⟩
    rw [hp.bit_eq] at hj hj'
    have hu := hused (i % a.blockBits - toUint16 r.rangeStart % a.NumBlockBits group) (by omega)
    rw [Nat.add_sub_cancel' hj] at hu
    simp only [AllocationBlock.IsUsed] at hu
    split at hu
    · cases hu
    · rw [BlockAllocator.groupBit, hb]
      exact hu

theorem Found.exact_of_inPlace (hmax : maximum < 65536)
    (hf : Found dev a maximum minimum group block numBlocks r)
    (hp : AllocatesInPlace dev a group block numBlocks r) :
    AllocatesExactly a maximum minimum (a.allocateRange dev group block numBlocks r run).1
      (a.allocateRange dev group block numBlocks r run).2.1
      (a.allocateRange dev group block numBlocks r run).2.2 := by
  obtain ⟨hfit, hfree⟩ := hf.free hgeo hmin hp
  have hpos := a.NumBlockBits_pos group hgeo.size_pos
  have hle := a.NumBlockBits_le group hgeo.size_pos
  have hlength : AllocationBlock.runLength (a.NumBlockBits group)
      (toUint16 r.rangeStart % a.NumBlockBits group) numBlocks = numBlocks :=
    (AllocationBlock.runLength_eq_iff (by have := hf.le_maximum; omega)
      (Nat.mod_lt _ hpos)).2 ⟨hfit, hp.not_magic⟩
  rw [BlockAllocator.allocateRange_one_block hp.one_block, if_pos hp.written]
  have hrun : toUint16 r.rangeStart % a.blockBits + numBlocks ≤ a.blockBits := by
    rw [hp.bit_eq]
    omega
  refine ⟨fun _ => ⟨group, rfl, hf.group_lt, hf.minimum_le, hf.le_maximum, hp.in_group, hfree,
    fun b j => ?_, ?_, fun g hg => ?_, rfl⟩, fun h => absurd rfl h⟩
  · rw [BlockAllocator.bit_takeRange, hlength, BlockAllocator.inRun_of_block _ _ _ _
      (by omega) hp.block_eq hrun, hp.bit_eq]
  · simp [BlockAllocator.takeRange, BlockAllocator.setGroup, BlockAllocator.setBlock,
      AllocationGroup.take]
  · simp [BlockAllocator.takeRange, BlockAllocator.setGroup, BlockAllocator.setBlock, hg]

theorem Found.inPlace_of_exact (hmax : maximum < 65536)
    (hf : Found dev a maximum minimum group block numBlocks r)
    (h : AllocatesExactly a maximum minimum (a.allocateRange dev group block numBlocks r run).1
      (a.allocateRange dev group block numBlocks r run).2.1
      (a.allocateRange dev group block numBlocks r run).2.2) :
    AllocatesInPlace dev a group block numBlocks r := by
  have hn : 0 < numBlocks := by have := hf.minimum_le; omega
  have hn' : numBlocks < 65536 := by have := hf.le_maximum; omega
  -- the counters have changed, so the call must have succeeded
  have hstatus : (a.allocateRange dev group block numBlocks r run).1 = .B_OK := by
    by_contra hne
    have hsame := h.error hne
    have hfree := BlockAllocator.allocateRange_freeBits dev a group block numBlocks r run
    rw [hsame] at hfree
    omega
  have hblock : r.rangeBlock = block := by
    rcases hf.place with ⟨hlt, hread⟩ | hcov
    · rw [BlockAllocator.allocateRange_crossing hlt hread] at hstatus
      cases hstatus
    · exact hcov.1
  rw [BlockAllocator.allocateRange_one_block hblock] at h hstatus
  have hwrite : dev.write ((a.fGroups group).fStart + block) = true := by
    by_contra hne
    rw [if_neg hne] at hstatus
    cases hstatus
  obtain ⟨g, hg, -, -, -, hin, hfree, hbits, -⟩ := h.ok hstatus
  obtain rfl : group = g := Int.ofNat.inj hg
  simp only at hin hfree hbits
  have hpos := a.NumBlockBits_pos group hgeo.size_pos
  have hle := a.NumBlockBits_le group hgeo.size_pos
  have hlength := AllocationBlock.runLength_le (a.NumBlockBits group)
    (toUint16 r.rangeStart % a.NumBlockBits group) numBlocks hn'
  have hmod := Nat.mod_lt (toUint16 r.rangeStart) hpos
  generalize hs : toUint16 r.rangeStart % a.NumBlockBits group = s at *
  generalize hl : AllocationBlock.runLength (a.NumBlockBits group) s numBlocks = l at *
  -- every bit of the returned run was set in this block
  have hplace : ∀ i, toUint16 r.rangeStart ≤ i → i < toUint16 r.rangeStart + numBlocks →
      i / a.blockBits = block ∧ s ≤ i % a.blockBits ∧ i % a.blockBits < s + l := by
    intro i hi hi'
    have hset := (hbits ((a.fGroups group).fStart + i / a.blockBits) (i % a.blockBits)).2
      (.inr ⟨i, hi, hi', rfl, rfl⟩)
    rw [BlockAllocator.bit_takeRange, hs, hl] at hset
    rcases hset with hold | ⟨hb, hj, hj'⟩
    · have := hfree i hi hi'
      rw [BlockAllocator.groupBit] at this
      rw [this] at hold
      cases hold
    · exact ⟨by omega, hj, hj'⟩
  obtain ⟨hb₀, hj₀, -⟩ := hplace (toUint16 r.rangeStart) (Nat.le_refl _) (by omega)
  obtain ⟨hb₁, -, hj₁⟩ := hplace (toUint16 r.rangeStart + (numBlocks - 1)) (by omega) (by omega)
  have hd₀ := Nat.div_add_mod (toUint16 r.rangeStart) a.blockBits
  have hd₁ := Nat.div_add_mod (toUint16 r.rangeStart + (numBlocks - 1)) a.blockBits
  rw [hb₀] at hd₀
  rw [hb₁] at hd₁
  have hsl : l = numBlocks ∧ toUint16 r.rangeStart % a.blockBits = s := by omega
  obtain ⟨hfit, hmagic⟩ := (AllocationBlock.runLength_eq_iff hn' hmod).1 (hl.trans hsl.1)
  refine ⟨hblock, hwrite, hin, hb₀, hsl.2.trans hs.symm, ?_, ?_⟩
  · rw [hs]
    exact hmagic
  · rw [hs]
    exact fun _ => ⟨hfit, hfree⟩

end

/-- A volume with one group of two bitmap blocks; its first ten blocks are in use. -/
def borderVolume : BlockAllocator :=
  { BlockSize := 1024
    NumBlocks := 16384
    Log := ⟨0, 3, 7⟩
    used_blocks := 10
    fNumGroups := 1
    fBlocksPerGroup := 2
    fGroups := fun _ =>
      { fNumBits := 16384, fStart := 1, fFirstFree := 10, fLargest := 16374
        fLargestFirst := 10, fFreeBits := 16374 }
    blocks := fun b k => if b = 1 ∧ k = 0 then 0x3ff#32 else 0#32 }

/-- A device without errors. -/
def soundDevice : Device := ⟨fun _ => true, fun _ => true⟩

theorem borderVolume_valid : borderVolume.ValidGeometry :=
  ⟨⟨10, rfl⟩, by decide, by decide, fun _ _ => Nat.le_refl 16384⟩

theorem borderVolume_bit (i : Nat) : borderVolume.groupBit 0 i = decide (i < 10) := by
  unfold BlockAllocator.groupBit bit
  simp only [borderVolume, BlockAllocator.blockBits]
  split
  · rename_i h
    have hi : i < 32 := by omega
    have : (0x3ff#32) = BitVec.ofNat 32 (2 ^ 10 - 1) := rfl
    rw [this, BitVec.getLsbD_ofNat, Nat.testBit_two_pow_sub_one]
    rw [Bool.eq_iff_iff]
    simp only [Bool.and_eq_true, decide_eq_true_eq]
    omega
  · rename_i h
    have : ¬i < 10 := by omega
    simp [this]

theorem borderVolume_consistent : borderVolume.GroupConsistent 0 := by
  refine ⟨?_, fun i hi _ => ?_⟩
  · have hbits : (borderVolume.fGroups 0).fNumBits = 10 + 16374 := rfl
    rw [hbits, count_from]
    · rfl
    · intro i hi
      rw [borderVolume_bit]
      simp [hi]
    · intro i hi
      rw [borderVolume_bit]
      exact decide_eq_false (by omega)
  · rw [borderVolume_bit]
    have : (i : Int) < 10 := hi
    exact decide_eq_true (by omega)

theorem borderVolume_search :
    searchGroups soundDevice borderVolume 4 4 (borderVolume.fNumGroups * 2) 0 0 8190 =
      .found 0 1 4 ⟨4, 8190, 0⟩ := by
  rfl

end BFS
