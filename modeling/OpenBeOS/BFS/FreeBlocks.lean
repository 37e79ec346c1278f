import OpenBeOS.BFS.AllocateBlocks

/-! # `Free()` clears exactly the run

`freeLoop_rest` describes the passes of the loop that start at the first bit of a bitmap
block, `freeLoop_first` adds the pass the run starts in. A run that starts in a later bitmap
block of its group wraps the `uint16` length around; `freesExactly_iff` decides exactly when
the call nevertheless does what it should.
-/

namespace BFS

open Bitmap

/-- A successful call clears the bits of the run, and no other bit, and the counters follow. -/
structure FreesExactly (a : BlockAllocator) (group start length : Nat) (status : Status)
    (a' : BlockAllocator) : Prop where
  status_ok : status = .B_OK
  bits : ∀ b j, bit (a'.blocks b) j = true ↔
    bit (a.blocks b) j = true ∧ ¬a.InRun group start length b j
  free_bits : (a'.fGroups group).fFreeBits = (a.fGroups group).fFreeBits + length
  other_groups : ∀ g, g ≠ group → a'.fGroups g = a.fGroups g
  used_blocks : a'.used_blocks = a.used_blocks - length

/-! ## The loop over the bitmap blocks -/

theorem BlockAllocator.freeLoop_frame (dev : Device) (group fuel block start length : Nat)
    (a : BlockAllocator) :
    (freeLoop dev group fuel block start length a).2 =
      { a with blocks := (freeLoop dev group fuel block start length a).2.blocks } := by
  induction fuel generalizing block start length a with
  | zero => rfl
  | succ fuel ih =>
    simp only [freeLoop]
    split
    · rfl
    · split
      · rfl
      · split
        · rfl
        · rw [ih]
          rfl

theorem BlockAllocator.bit_freeInBlock (a : BlockAllocator) (group block start length d j : Nat) :
    bit ((a.freeInBlock group block start length).blocks d) j = true ↔
      bit (a.blocks d) j = true ∧ ¬(d = (a.fGroups group).fStart + block ∧
        start % a.NumBlockBits group ≤ j ∧
        j < start % a.NumBlockBits group + AllocationBlock.runLength (a.NumBlockBits group)
          (start % a.NumBlockBits group) length) := by
  simp only [freeInBlock, setBlock]
  by_cases hd : d = (a.fGroups group).fStart + block
  · rw [if_pos hd, AllocationBlock.bit_Free, hd]
    split
    · rename_i h
      simp [h]
    · rename_i h
      simp [h]
  · rw [if_neg hd]
    simp [hd]

theorem AllocationBlock.runLength_fits (fNumBits start numBlocks : Nat) (hs : start < fNumBits) :
    start + runLength fNumBits start numBlocks ≤ fNumBits := by
  unfold runLength toUint16
  split
  · omega
  · split <;> omega

/-- Bits above the code's idea of the block's size are never cleared. -/
theorem BlockAllocator.freeLoop_high (dev : Device) (group fuel block start length : Nat)
    (a : BlockAllocator) (hsize : 0 < a.BlockSize) (d j : Nat) (hj : a.NumBlockBits group ≤ j) :
    bit ((freeLoop dev group fuel block start length a).2.blocks d) j = true ↔
      bit (a.blocks d) j = true := by
  have hstep : ∀ k, bit ((a.freeInBlock group block start k).blocks d) j = true ↔
      bit (a.blocks d) j = true := by
    intro k
    have hmod := Nat.mod_lt start (a.NumBlockBits_pos group hsize)
    have hfit := AllocationBlock.runLength_fits (a.NumBlockBits group)
      (start % a.NumBlockBits group) k hmod
    rw [bit_freeInBlock]
    exact ⟨fun h => h.1, fun h => ⟨h, fun h' => by omega⟩⟩
  induction fuel generalizing block start length a with
  | zero => rfl
  | succ fuel ih =>
    simp only [freeLoop]
    split
    · rfl
    · split
      · exact hstep _
      · split
        · exact hstep _
        · refine Iff.trans (ih _ _ _ _ hsize hj fun k => ?_) (hstep _)
          have hfit := AllocationBlock.runLength_fits (a.NumBlockBits group)
            (0 % a.NumBlockBits group) k (Nat.mod_lt _ (a.NumBlockBits_pos group hsize))
          rw [bit_freeInBlock]
          refine ⟨fun h => h.1, fun h => ⟨h, fun h' => ?_⟩⟩
          have hnb : (a.freeInBlock group block start (freeLength (a.NumBlockBits group) start
            length)).NumBlockBits group = a.NumBlockBits group := rfl
          rw [hnb] at h'
          omega

/-- A bitmap block of the group can be read and written. -/
def Device.Works (dev : Device) (a : BlockAllocator) (group block : Nat) : Prop :=
  dev.read ((a.fGroups group).fStart + block) = true ∧
    dev.write ((a.fGroups group).fStart + block) = true

/-- One pass of the loop. -/
theorem BlockAllocator.freeLoop_pass (dev : Device) (group fuel block start length : Nat)
    (a : BlockAllocator) :
    let a' := a.freeInBlock group block start (freeLength (a.NumBlockBits group) start length)
    let rest := toUint16 (length + 65536 - freeLength (a.NumBlockBits group) start length)
    ((freeLoop dev group (fuel + 1) block start length a).1 = .B_OK ↔ dev.Works a group block ∧
        (rest = 0 ∨ (freeLoop dev group fuel (block + 1) 0 rest a').1 = .B_OK)) ∧
    (dev.Works a group block → freeLoop dev group (fuel + 1) block start length a =
      if rest = 0 then (.B_OK, a') else freeLoop dev group fuel (block + 1) 0 rest a') := by
  intro a' rest
  simp only [freeLoop, Device.Works]
  cases hr : dev.read ((a.fGroups group).fStart + block)
  · simp
  · cases hw : dev.write ((a.fGroups group).fStart + block)
    · simp
    · simp only [Bool.true_eq_false, ↓reduceIte, true_and, and_self, forall_const]
      refine ⟨?_, rfl⟩
      by_cases h0 : rest = 0
      · rw [if_pos h0]
        simp [h0]
      · rw [if_neg h0]
        simp [h0, rest, a']

/-- The passes that start at bit 0 clear `length` bits of consecutive bitmap blocks. -/
theorem BlockAllocator.freeLoop_rest (dev : Device) (group fuel block length : Nat)
    (a : BlockAllocator) (hsize : 0 < a.BlockSize) (hpos : 0 < length) (hlength : length < 65536)
    (hmagic : length < 65535 ∨ a.NumBlockBits group < 65535) :
    ((freeLoop dev group fuel block 0 length a).1 = .B_OK ↔
      ∀ k, k < fuel → k * a.NumBlockBits group < length → dev.Works a group (block + k)) ∧
    ((freeLoop dev group fuel block 0 length a).1 = .B_OK → ∀ d j,
      (bit ((freeLoop dev group fuel block 0 length a).2.blocks d) j = true ↔
        bit (a.blocks d) j = true ∧ ¬∃ k, k < fuel ∧ d = (a.fGroups group).fStart + block + k ∧
          j < a.NumBlockBits group ∧ k * a.NumBlockBits group + j < length)) := by
  have hbits := a.NumBlockBits_pos group hsize
  induction fuel generalizing block length a with
  | zero =>
    refine ⟨⟨fun _ k hk => absurd hk (by omega), fun _ => rfl⟩, fun _ d j => ?_⟩
    exact ⟨fun h => ⟨h, fun hfreed => absurd hfreed.choose_spec.1 (by omega)⟩, fun h => h.1⟩
  | succ fuel ih =>
    obtain ⟨hok, hres⟩ := freeLoop_pass dev group fuel block 0 length a
    -- this pass clears the first `min length numBits` bits of the block
    have hfl : freeLength (a.NumBlockBits group) 0 length = min length (a.NumBlockBits group) := by
      unfold freeLength toUint16
      split <;> omega
    have hrest : toUint16 (length + 65536 - freeLength (a.NumBlockBits group) 0 length) =
        length - a.NumBlockBits group := by
      rw [hfl, toUint16]
      omega
    have hrun : AllocationBlock.runLength (a.NumBlockBits group) (0 % a.NumBlockBits group)
        (freeLength (a.NumBlockBits group) 0 length) = min length (a.NumBlockBits group) := by
      rw [hfl, Nat.zero_mod]
      unfold AllocationBlock.runLength toUint16
      split
      · omega
      · split <;> omega
    have hpass : ∀ d j, bit ((a.freeInBlock group block 0
        (freeLength (a.NumBlockBits group) 0 length)).blocks d) j = true ↔
        bit (a.blocks d) j = true ∧ ¬(d = (a.fGroups group).fStart + block ∧
          j < a.NumBlockBits group ∧ j < length) := by
      intro d j
      rw [bit_freeInBlock, hrun, Nat.zero_mod]
      refine and_congr_right fun _ => not_congr (and_congr_right fun _ => ?_)
      omega
    simp only [hrest] at hok hres
    generalize hb : a.freeInBlock group block 0 (freeLength (a.NumBlockBits group) 0 length)
      = a' at hok hres hpass
    have hframe : a'.fGroups = a.fGroups ∧ a'.BlockSize = a.BlockSize ∧
        a'.NumBlockBits group = a.NumBlockBits group := by
      subst hb
      exact ⟨rfl, rfl, rfl⟩
    by_cases hle : length ≤ a.NumBlockBits group
    · have h0 : length - a.NumBlockBits group = 0 := by omega
      have hk0 : ∀ k j, k * a.NumBlockBits group + j < length → k = 0 := by
        intro k j hk
        by_contra hne
        have := Nat.mul_le_mul_right (a.NumBlockBits group) (show 1 ≤ k by omega)
        omega
      simp only [h0, true_or, and_true] at hok
      refine ⟨hok.trans ⟨fun h k _ hk => ?_, fun h => h 0 (by omega) (by omega)⟩,
        fun hstatus d j => ?_⟩
      · rw [hk0 k 0 hk]
        exact h
      · rw [hres (hok.1 hstatus), if_pos h0, hpass]
        refine and_congr_right fun _ => not_congr ⟨fun h =>
          ⟨0, by omega, by omega, h.2.1, by omega⟩, ?_⟩
        rintro ⟨k, -, hd, hj, hk⟩
        have := hk0 k j hk
        subst this
        exact ⟨by omega, hj, by omega⟩
    · have hne : length - a.NumBlockBits group ≠ 0 := by omega
      obtain ⟨ihok, ihbits⟩ := ih (block + 1) (length - a.NumBlockBits group) a'
        (by rw [hframe.2.1]; exact hsize) (by omega) (by omega) (by rw [hframe.2.2]; omega)
        (by rw [hframe.2.2]; exact hbits)
      simp only [Device.Works, hframe.1, hframe.2.2] at ihok ihbits
      simp only [hne, false_or] at hok
      have hshift : ∀ k j, (k + 1) * a.NumBlockBits group + j < length ↔
          k * a.NumBlockBits group + j < length - a.NumBlockBits group := by
        intro k j
        rw [Nat.add_mul]
        omega
      refine ⟨hok.trans ⟨fun h k hk hkl => ?_, fun h => ⟨h 0 (by omega) (by omega),
        ihok.2 fun k hk hkl => ?_⟩⟩, fun hstatus d j => ?_⟩
      · rcases k with _ | k
        · exact h.1
        · rw [Nat.add_comm k 1, ← Nat.add_assoc]
          exact ihok.1 h.2 k (by omega) ((hshift k 0).1 hkl)
      · have := h (k + 1) (by omega) ((hshift k 0).2 hkl)
        rwa [Nat.add_comm k 1, ← Nat.add_assoc] at this
      · obtain ⟨hw, hnext⟩ := hok.1 hstatus
        rw [hres hw, if_neg hne, ihbits hnext, hpass, and_assoc]
        refine and_congr_right fun _ => ?_
        rw [← not_or]
        refine not_congr ⟨?_, ?_⟩
        · rintro (⟨hd, hj, hj'⟩ | ⟨k, hk, hd, hj, hkl⟩)
          · exact ⟨0, by omega, by omega, hj, by omega⟩
          · exact ⟨k + 1, by omega, by omega, hj, (hshift k j).2 hkl⟩
        · rintro ⟨k, hk, hd, hj, hkl⟩
          rcases k with _ | k
          · exact .inl ⟨by omega, hj, by omega⟩
          · exact .inr ⟨k, by omega, by omega, hj, (hshift k j).1 hkl⟩

/-- The whole loop, from the bitmap block the run starts in. -/
theorem BlockAllocator.freeLoop_first (dev : Device) (group fuel block start length : Nat)
    (a : BlockAllocator) (hsize : 0 < a.BlockSize) {first rest : Nat}
    (hfirst : AllocationBlock.runLength (a.NumBlockBits group) (start % a.NumBlockBits group)
      (freeLength (a.NumBlockBits group) start length) = first)
    (hrest : toUint16 (length + 65536 - freeLength (a.NumBlockBits group) start length) = rest)
    (hmagic : rest < 65535 ∨ a.NumBlockBits group < 65535) :
    ((freeLoop dev group (fuel + 1) block start length a).1 = .B_OK ↔
      dev.Works a group block ∧ ∀ k, k < fuel → k * a.NumBlockBits group < rest →
        dev.Works a group (block + 1 + k)) ∧
    ((freeLoop dev group (fuel + 1) block start length a).1 = .B_OK → ∀ d j,
      (bit ((freeLoop dev group (fuel + 1) block start length a).2.blocks d) j = true ↔
        bit (a.blocks d) j = true ∧ ¬((d = (a.fGroups group).fStart + block ∧
            start % a.NumBlockBits group ≤ j ∧ j < start % a.NumBlockBits group + first) ∨
          ∃ k, k < fuel ∧ d = (a.fGroups group).fStart + (block + 1) + k ∧
            j < a.NumBlockBits group ∧ k * a.NumBlockBits group + j < rest))) := by
  obtain ⟨hok, hres⟩ := freeLoop_pass dev group fuel block start length a
  have hpass := a.bit_freeInBlock group block start
    (freeLength (a.NumBlockBits group) start length)
  rw [hfirst] at hpass
  simp only [hrest] at hok hres
  generalize hb : a.freeInBlock group block start
    (freeLength (a.NumBlockBits group) start length) = a' at hok hres hpass
  have hframe : a'.fGroups = a.fGroups ∧ a'.BlockSize = a.BlockSize ∧
      a'.NumBlockBits group = a.NumBlockBits group := by
    subst hb
    exact ⟨rfl, rfl, rfl⟩
  by_cases h0 : rest = 0
  · simp only [h0, true_or, and_true] at hok
    refine ⟨hok.trans ⟨fun h => ⟨h, fun k _ hk => absurd hk (by omega)⟩, fun h => h.1⟩,
      fun hstatus d j => ?_⟩
    rw [hres (hok.1 hstatus), if_pos h0, hpass]
    refine and_congr_right fun _ => not_congr ⟨.inl, ?_⟩
    rintro (h | ⟨k, -, -, -, hk⟩)
    · exact h
    · omega
  · obtain ⟨restok, restbits⟩ := a'.freeLoop_rest dev group fuel (block + 1) rest
      (by rw [hframe.2.1]; exact hsize) (by omega) (hrest ▸ toUint16_lt _)
      (by rw [hframe.2.2]; exact hmagic)
    simp only [Device.Works, hframe.1, hframe.2.2] at restok restbits
    simp only [h0, false_or] at hok
    refine ⟨hok.trans (and_congr_right fun _ => restok), fun hstatus d j => ?_⟩
    obtain ⟨hw, hnext⟩ := hok.1 hstatus
    rw [hres hw, if_neg h0, restbits hnext, hpass, and_assoc, not_or]

/-! ## The whole call -/

/-- A run `Free()` accepts and that is allocated: it lies inside the group, outside the
reserved area, and all of its bits are set. -/
structure BlockAllocator.AllocatedRun (a : BlockAllocator) (group start length : Nat) : Prop where
  group_lt : group < a.fNumGroups
  start_lt : start < 65536
  length_pos : 0 < length
  length_lt : length < 65536
  inside : start + length ≤ (a.fGroups group).fNumBits
  not_reserved : ¬(group = 0 ∧ start < a.Log.start + a.Log.length)
  allocated : ∀ i, start ≤ i → i < start + length → a.groupBit group i = true

section

variable (a : BlockAllocator) (group start length : Nat)

/-- The summary of the group after `length` blocks from `start` were freed. -/
def BlockAllocator.summaryFreed : BlockAllocator :=
  a.setGroup group { a.fGroups group with
    fFirstFree := if (a.fGroups group).fFirstFree > start then (start : Int)
      else (a.fGroups group).fFirstFree
    fFreeBits := (a.fGroups group).fFreeBits + length }

theorem BlockAllocator.summaryFreed_numBits :
    (a.summaryFreed group start length).NumBlockBits group = a.NumBlockBits group := by
  have h : ((a.summaryFreed group start length).fGroups group).fNumBits =
      (a.fGroups group).fNumBits := by
    simp [summaryFreed, setGroup]
  unfold NumBlockBits
  rw [h]
  rfl

theorem BlockAllocator.summaryFreed_start :
    ((a.summaryFreed group start length).fGroups group).fStart = (a.fGroups group).fStart := by
  simp [summaryFreed, setGroup]

end

variable {a : BlockAllocator} {group start length : Nat}

theorem BlockAllocator.Free_eq (dev : Device)
    (hgroup : group < a.fNumGroups) (hpos : 0 < length)
    (hinside : start + length ≤ (a.fGroups group).fNumBits)
    (hreserved : ¬(group = 0 ∧ start < a.Log.start + a.Log.length)) :
    a.Free dev ⟨group, start, length⟩ =
      match freeLoop dev group (a.fBlocksPerGroup - start / a.blockBits) (start / a.blockBits)
        start length (a.summaryFreed group start length) with
      | (.B_OK, a) => (.B_OK, { a with used_blocks := a.used_blocks - length })
      | r => r := by
  have hguard : ¬((group : Int) < 0 ∨ (group : Int) ≥ a.fNumGroups ∨
      start > (a.fGroups group).fNumBits ∨ start + length > (a.fGroups group).fNumBits ∨
      length = 0) := by
    omega
  have hlog : ¬((group : Int) = 0 ∧ start < a.Log.start + a.Log.length) := by omega
  simp only [Free, Int.toNat_natCast, if_neg hguard, if_neg hlog]
  rfl

/-- The call is exact when its loop succeeds and clears the right bits. -/
theorem BlockAllocator.freesExactly_iff_loop {dev : Device} (hrun : a.AllocatedRun group start length) :
    FreesExactly a group start length (a.Free dev ⟨group, start, length⟩).1
        (a.Free dev ⟨group, start, length⟩).2 ↔
      (freeLoop dev group (a.fBlocksPerGroup - start / a.blockBits) (start / a.blockBits) start
        length (a.summaryFreed group start length)).1 = .B_OK ∧
      ∀ d j, (bit ((freeLoop dev group (a.fBlocksPerGroup - start / a.blockBits)
          (start / a.blockBits) start length (a.summaryFreed group start length)).2.blocks d) j
            = true ↔
        bit (a.blocks d) j = true ∧ ¬a.InRun group start length d j) := by
  have hframe := freeLoop_frame dev group (a.fBlocksPerGroup - start / a.blockBits)
    (start / a.blockBits) start length (a.summaryFreed group start length)
  rw [Free_eq dev hrun.group_lt hrun.length_pos hrun.inside hrun.not_reserved]
  generalize freeLoop dev group (a.fBlocksPerGroup - start / a.blockBits) (start / a.blockBits)
    start length (a.summaryFreed group start length) = res at hframe
  obtain ⟨status, a'⟩ := res
  simp only at hframe
  constructor
  · intro h
    cases status <;> first | exact ⟨rfl, h.bits⟩ | exact absurd h.status_ok (by simp)
  · rintro ⟨hok, hbits⟩
    simp only at hok hbits
    subst hok
    refine ⟨rfl, hbits, ?_, fun g hg => ?_, ?_⟩
    · rw [hframe]
      simp [summaryFreed, setGroup]
    · rw [hframe]
      simp [summaryFreed, setGroup, hg]
    · rw [hframe]
      simp [summaryFreed, setGroup]

/-- The bits the loop clears: `first` bits of the bitmap block the run starts in, and `rest`
bits from the next bitmap block on, both counted with the code's size of a block. -/
def BlockAllocator.Cleared (a : BlockAllocator) (group start first rest d j : Nat) : Prop :=
  (d = (a.fGroups group).fStart + start / a.blockBits ∧ start % a.NumBlockBits group ≤ j ∧
    j < start % a.NumBlockBits group + first) ∨
  ∃ k, k < a.fBlocksPerGroup - start / a.blockBits - 1 ∧
    d = (a.fGroups group).fStart + (start / a.blockBits + 1) + k ∧
    j < a.NumBlockBits group ∧ k * a.NumBlockBits group + j < rest

theorem BlockAllocator.AllocatedRun.block_lt
    (hgeo : a.ValidGeometry) (hrun : a.AllocatedRun group start length) {i : Nat}
    (hi : i < start + length) : i / a.blockBits < a.fBlocksPerGroup := by
  have hpos : 0 < a.blockBits := by
    have := hgeo.size_pos
    unfold blockBits
    omega
  have hin := hrun.inside
  have hbits := hgeo.numBits_le group hrun.group_lt
  exact (Nat.div_lt_iff_lt_mul hpos).2 (by omega)

theorem BlockAllocator.freesExactly_iff_cleared (dev : Device) (hgeo : a.ValidGeometry)
    (hrun : a.AllocatedRun group start length) {first rest : Nat}
    (hfirst : AllocationBlock.runLength (a.NumBlockBits group) (start % a.NumBlockBits group)
      (freeLength (a.NumBlockBits group) start length) = first)
    (hrest : toUint16 (length + 65536 - freeLength (a.NumBlockBits group) start length) = rest)
    (hmagic : rest < 65535 ∨ a.NumBlockBits group < 65535) :
    FreesExactly a group start length (a.Free dev ⟨group, start, length⟩).1
        (a.Free dev ⟨group, start, length⟩).2 ↔
      (dev.Works a group (start / a.blockBits) ∧
        ∀ k, k < a.fBlocksPerGroup - start / a.blockBits - 1 → k * a.NumBlockBits group < rest →
          dev.Works a group (start / a.blockBits + 1 + k)) ∧
      (∀ d j, a.InRun group start length d j → a.Cleared group start first rest d j) ∧
      ∀ d j, a.Cleared group start first rest d j → ¬a.InRun group start length d j →
        bit (a.blocks d) j = false := by
  have hblock := hrun.block_lt hgeo (i := start) (by have := hrun.length_pos; omega)
  have hfuel : a.fBlocksPerGroup - start / a.blockBits =
      (a.fBlocksPerGroup - start / a.blockBits - 1) + 1 := by omega
  have hnum := a.summaryFreed_numBits group start length
  rw [← hnum] at hfirst hrest hmagic
  obtain ⟨hok, hbits⟩ := (a.summaryFreed group start length).freeLoop_first dev group
    (a.fBlocksPerGroup - start / a.blockBits - 1) (start / a.blockBits) start length
    hgeo.size_pos hfirst hrest hmagic
  rw [hnum] at hfirst hrest hmagic
  simp only [Device.Works, hnum, a.summaryFreed_start] at hok hbits
  rw [← hfuel] at hok hbits
  rw [freesExactly_iff_loop hrun, hok]
  refine and_congr_right fun hw => ?_
  have hbits := hbits (hok.2 hw)
  have hset : ∀ d j, a.InRun group start length d j → bit (a.blocks d) j = true := by
    rintro d j ⟨i, hi, hi', rfl, rfl⟩
    exact hrun.allocated i hi hi'
  constructor
  · intro h
    refine ⟨fun d j hin => ?_, fun d j hc hin => ?_⟩
    · by_contra hc
      exact ((h d j).1 ((hbits d j).2 ⟨hset d j hin, hc⟩)).2 hin
    · by_contra hne
      exact ((hbits d j).1 ((h d j).2 ⟨by simpa using hne, hin⟩)).2 hc
  · rintro ⟨hsub, hclear⟩ d j
    rw [hbits]
    refine and_congr_right fun hb => not_congr ⟨fun hc => ?_, hsub d j⟩
    by_contra hin
    have hb' : bit (a.blocks d) j = true := hb
    rw [hclear d j hc hin] at hb'
    cases hb'

theorem BlockAllocator.not_freesExactly_of_high {dev : Device}
    {group start length i : Nat} (hgeo : a.ValidGeometry)
    (hrun : a.AllocatedRun group start length) (hi : start ≤ i) (hi' : i < start + length)
    (hhigh : a.NumBlockBits group ≤ i % a.blockBits) :
    ¬FreesExactly a group start length (a.Free dev ⟨group, start, length⟩).1
      (a.Free dev ⟨group, start, length⟩).2 := by
  intro h
  rw [freesExactly_iff_loop hrun] at h
  have hkeep := freeLoop_high dev group (a.fBlocksPerGroup - start / a.blockBits)
    (start / a.blockBits) start length (a.summaryFreed group start length) hgeo.size_pos
    ((a.fGroups group).fStart + i / a.blockBits) (i % a.blockBits)
    (by rw [a.summaryFreed_numBits]; exact hhigh)
  exact ((h.2 _ _).1 (hkeep.2 (hrun.allocated i hi hi'))).2 ⟨i, hi, hi', rfl, rfl⟩

/-! ## The cases -/

/-- The run lies within the code's idea of the group's first bitmap block. -/
structure FreesInFirstBlock (dev : Device) (a : BlockAllocator) (group start length : Nat) :
    Prop where
  fits : start + length ≤ a.NumBlockBits group
  not_magic : length = 65535 → (a.NumBlockBits group - start) % 65536 = 65535
  works : dev.Works a group 0

/-- The run starts in the first bitmap block and goes on into the next ones, of a group whose
bitmap blocks are all full. -/
structure FreesAcrossBlocks (dev : Device) (a : BlockAllocator) (group start length : Nat) :
    Prop where
  full : a.NumBlockBits group = a.blockBits
  start_lt : start < a.blockBits
  crosses : a.blockBits < start + length
  works : ∀ k, k * a.blockBits < start + length → dev.Works a group k

/-- The run starts in a later bitmap block: the code clears as many bits more behind the run
as there are before the run's first bitmap block, and they must be clear already. -/
structure FreesFromLaterBlock (dev : Device) (a : BlockAllocator) (group start length : Nat) :
    Prop where
  full : a.NumBlockBits group = a.blockBits
  start_gt : a.blockBits < start
  no_wrap : start + length < 65536 + a.blockBits
  clear : ∀ i, start + length ≤ i → i < start + length + start / a.blockBits * a.blockBits →
    i < a.fBlocksPerGroup * a.blockBits → a.groupBit group i = false
  works : ∀ k, start / a.blockBits ≤ k → k < a.fBlocksPerGroup →
    k * a.blockBits < start + length + start / a.blockBits * a.blockBits → dev.Works a group k

/-- The run starts in a later bitmap block of a group with a partial bitmap block: it must lie
among the bits the code clears in this block, and all the others it clears must be clear. -/
structure FreesInPartialGroup (dev : Device) (a : BlockAllocator) (group start length : Nat) :
    Prop where
  short_block : a.NumBlockBits group < a.blockBits
  later : a.blockBits ≤ start
  low : start % a.NumBlockBits group ≤ start % a.blockBits
  high : start % a.blockBits + length ≤ start % a.NumBlockBits group +
    AllocationBlock.runLength (a.NumBlockBits group) (start % a.NumBlockBits group)
      (a.NumBlockBits group + 65536 - start)
  clear : ∀ j, start % a.NumBlockBits group ≤ j →
    j < start % a.NumBlockBits group + AllocationBlock.runLength (a.NumBlockBits group)
      (start % a.NumBlockBits group) (a.NumBlockBits group + 65536 - start) →
    ¬(start % a.blockBits ≤ j ∧ j < start % a.blockBits + length) →
    bit (a.blocks ((a.fGroups group).fStart + start / a.blockBits)) j = false
  clear_rest : ∀ k j, start / a.blockBits + 1 + k < a.fBlocksPerGroup → j < a.NumBlockBits group →
    k * a.NumBlockBits group + j < (length + start - a.NumBlockBits group) % 65536 →
    bit (a.blocks ((a.fGroups group).fStart + (start / a.blockBits + 1) + k)) j = false
  works : dev.Works a group (start / a.blockBits) ∧
    ∀ k, start / a.blockBits + 1 + k < a.fBlocksPerGroup →
      k * a.NumBlockBits group < (length + start - a.NumBlockBits group) % 65536 →
      dev.Works a group (start / a.blockBits + 1 + k)

theorem BlockAllocator.ValidGeometry.bits_pos (h : a.ValidGeometry) : 0 < a.blockBits := by
  have := h.size_pos
  unfold blockBits
  omega

theorem BlockAllocator.ValidGeometry.bits_dvd (h : a.ValidGeometry)
    (hlt : a.blockBits < 65536) : a.blockBits ∣ 65536 := by
  obtain ⟨shift, hshift⟩ := h.block_size
  have hbits : a.blockBits = 2 ^ (shift + 3) := by rw [blockBits, hshift, Nat.pow_add]
  rw [hbits] at hlt ⊢
  have : shift + 3 < 16 := (Nat.pow_lt_pow_iff_right (by decide)).1
    (show 2 ^ (shift + 3) < 2 ^ 16 from hlt)
  exact Nat.pow_dvd_pow 2 (show shift + 3 ≤ 16 by omega)

section cases

variable {dev : Device} {a : BlockAllocator} {group start length : Nat}

theorem freesExactly_iff_first (hgeo : a.ValidGeometry) (hrun : a.AllocatedRun group start length)
    (hfit : start + length ≤ a.NumBlockBits group) :
    FreesExactly a group start length (a.Free dev ⟨group, start, length⟩).1
        (a.Free dev ⟨group, start, length⟩).2 ↔ FreesInFirstBlock dev a group start length := by
  have hle := a.NumBlockBits_le group hgeo.size_pos
  have hpos := hrun.length_pos
  have hlt := hrun.length_lt
  have hdiv : start / a.blockBits = 0 := Nat.div_eq_of_lt (by omega)
  have hmod : start % a.NumBlockBits group = start := Nat.mod_eq_of_lt (by omega)
  have hmod' : start % a.blockBits = start := Nat.mod_eq_of_lt (by omega)
  have hfl : freeLength (a.NumBlockBits group) start length = length := by
    rw [freeLength, if_neg (by omega)]
  have hrest : toUint16 (length + 65536 - freeLength (a.NumBlockBits group) start length) = 0 := by
    rw [hfl, toUint16]
    omega
  have hlength := AllocationBlock.runLength_le (a.NumBlockBits group) start length hlt
  have hlength_iff := AllocationBlock.runLength_eq_iff hlt
    (show start < a.NumBlockBits group by omega)
  have hin : ∀ d j, a.InRun group start length d j ↔ d = (a.fGroups group).fStart ∧
      start ≤ j ∧ j < start + length := by
    intro d j
    rw [BlockAllocator.inRun_of_block _ _ _ _ hgeo.bits_pos hdiv (by omega), hmod', Nat.add_zero]
  rw [BlockAllocator.freesExactly_iff_cleared dev hgeo hrun (by rw [hmod, hfl]) hrest
    (.inl (by omega))]
  simp only [BlockAllocator.Cleared, hin, hdiv, hmod, Nat.not_lt_zero, and_false, exists_false,
    or_false, Nat.add_zero, false_implies, implies_true, and_true]
  constructor
  · rintro ⟨hw, hsub, -⟩
    have hlast := hsub _ (start + length - 1) ⟨rfl, by omega, by omega⟩
    exact ⟨hfit, (hlength_iff.1 (by omega)).2, hw⟩
  · rintro ⟨-, hmagic, hw⟩
    rw [hlength_iff.2 ⟨hfit, hmagic⟩]
    exact ⟨hw, fun d j h => h, fun d j h h' => absurd h h'⟩

/-- In a group of full bitmap blocks the cleared bits are consecutive bits of the group. -/
theorem BlockAllocator.cleared_full_iff (hgeo : a.ValidGeometry)
    (hrun : a.AllocatedRun group start length) (hfull : a.NumBlockBits group = a.blockBits)
    (rest d j : Nat) :
    a.Cleared group start (a.blockBits - start % a.blockBits) rest d j ↔
      ∃ i, start ≤ i ∧ i < (start / a.blockBits + 1) * a.blockBits + rest ∧
        i < a.fBlocksPerGroup * a.blockBits ∧ d = (a.fGroups group).fStart + i / a.blockBits ∧
        j = i % a.blockBits := by
  have hpos := hgeo.bits_pos
  have hblock := hrun.block_lt hgeo (i := start) (by have := hrun.length_pos; omega)
  have hsplit := Nat.div_add_mod start a.blockBits
  have hmod := Nat.mod_lt start hpos
  have hplace : ∀ k m, m < a.blockBits → (k * a.blockBits + m) / a.blockBits = k ∧
      (k * a.blockBits + m) % a.blockBits = m := by
    intro k m hm
    rw [Nat.mul_comm, Nat.mul_add_div hpos, Nat.mul_add_mod, Nat.div_eq_of_lt hm,
      Nat.mod_eq_of_lt hm]
    exact ⟨rfl, rfl⟩
  have hgroup : ∀ k m, k < a.fBlocksPerGroup → m < a.blockBits →
      k * a.blockBits + m < a.fBlocksPerGroup * a.blockBits := by
    intro k m hk hm
    have := Nat.mul_le_mul_right a.blockBits (show k + 1 ≤ a.fBlocksPerGroup by omega)
    rw [Nat.add_mul, Nat.one_mul] at this
    omega
  rw [Nat.mul_comm] at hsplit
  unfold Cleared
  rw [hfull]
  generalize start / a.blockBits = b at *
  constructor
  · rintro (⟨rfl, hj, hj'⟩ | ⟨k, hk, rfl, hj, hrest⟩)
    · obtain ⟨hd, hm⟩ := hplace b j (by omega)
      refine ⟨b * a.blockBits + j, by omega, ?_, hgroup b j hblock (by omega), ?_, hm.symm⟩
      · rw [Nat.add_mul, Nat.one_mul]
        omega
      · rw [hd]
    · obtain ⟨hd, hm⟩ := hplace (b + 1 + k) j hj
      refine ⟨(b + 1 + k) * a.blockBits + j, ?_, ?_, hgroup _ j (by omega) hj, ?_, hm.symm⟩
      · rw [Nat.add_mul, Nat.add_mul, Nat.one_mul]
        omega
      · rw [Nat.add_mul (b + 1)]
        omega
      · rw [hd]
        omega
  · rintro ⟨i, hi, hi', hin, rfl, rfl⟩
    have hd := Nat.div_add_mod i a.blockBits
    have hm := Nat.mod_lt i hpos
    have hlt : i / a.blockBits < a.fBlocksPerGroup := (Nat.div_lt_iff_lt_mul hpos).2 hin
    have hge : b ≤ i / a.blockBits := (Nat.le_div_iff_mul_le hpos).2 (by omega)
    rw [Nat.mul_comm] at hd
    by_cases hb : i / a.blockBits = b
    · rw [hb] at hd
      exact .inl ⟨by rw [hb], by omega, by omega⟩
    · refine .inr ⟨i / a.blockBits - b - 1, by omega, by omega, hm, ?_⟩
      have hsub : (i / a.blockBits - b - 1) * a.blockBits + (b + 1) * a.blockBits =
          i / a.blockBits * a.blockBits := by
        rw [← Nat.add_mul]
        congr 1
        omega
      omega

/-- The blocks the loop works on, in a group of full bitmap blocks. -/
theorem BlockAllocator.works_full_iff {b rest : Nat} (hb : b < a.fBlocksPerGroup) :
    (dev.Works a group b ∧ ∀ k, k < a.fBlocksPerGroup - b - 1 → k * a.blockBits < rest →
        dev.Works a group (b + 1 + k)) ↔
      ∀ k, b ≤ k → k < a.fBlocksPerGroup → (k = b ∨ k * a.blockBits < (b + 1) * a.blockBits + rest) →
        dev.Works a group k := by
  have hsplit : ∀ k, (b + 1 + k) * a.blockBits = (b + 1) * a.blockBits + k * a.blockBits :=
    fun k => Nat.add_mul _ _ _
  constructor
  · rintro ⟨h, hnext⟩ k hk hk' hlt
    obtain ⟨m, rfl⟩ := Nat.exists_eq_add_of_le hk
    rcases m with _ | m
    · exact h
    · rw [show b + (m + 1) = b + 1 + m by omega] at hk' hlt ⊢
      refine hnext m (by omega) ?_
      have := hsplit m
      omega
  · intro h
    refine ⟨h b (Nat.le_refl _) hb (.inl rfl), fun k hk hlt => ?_⟩
    refine h _ (by omega) (by omega) (.inr ?_)
    have := hsplit k
    omega

section

variable (hgeo : a.ValidGeometry) (hrun : a.AllocatedRun group start length)
include hgeo hrun

theorem freesExactly_iff_across (hstart : start < a.NumBlockBits group)
    (hcross : a.NumBlockBits group < start + length) :
    FreesExactly a group start length (a.Free dev ⟨group, start, length⟩).1
        (a.Free dev ⟨group, start, length⟩).2 ↔ FreesAcrossBlocks dev a group start length := by
  have hle := a.NumBlockBits_le group hgeo.size_pos
  have hlt := hrun.length_lt
  by_cases hfull : a.NumBlockBits group = a.blockBits
  · have hdiv : start / a.blockBits = 0 := Nat.div_eq_of_lt (by omega)
    have hmod : start % a.blockBits = start := Nat.mod_eq_of_lt (by omega)
    rw [hfull] at hstart hcross
    have hfl : freeLength a.blockBits start length = a.blockBits - start := by
      rw [freeLength, if_pos hcross, toUint16]
      omega
    have hfirst : AllocationBlock.runLength a.blockBits start
        (freeLength a.blockBits start length) = a.blockBits - start :=
      (congrArg _ hfl).trans ((AllocationBlock.runLength_eq_iff (by omega) (by omega)).2
        ⟨by omega, fun h => by omega⟩)
    have hrest : toUint16 (length + 65536 - freeLength a.blockBits start length) =
        start + length - a.blockBits := by
      rw [hfl, toUint16]
      omega
    rw [BlockAllocator.freesExactly_iff_cleared dev hgeo hrun
      (by rw [hfull, hmod, hfirst]) (by rw [hfull, hrest]) (.inl (by omega))]
    have hexact : ∀ d j, a.InRun group start length d j ↔
        a.Cleared group start (a.blockBits - start) (start + length - a.blockBits) d j := by
      intro d j
      have h := BlockAllocator.cleared_full_iff hgeo hrun hfull (start + length - a.blockBits) d j
      rw [hmod, hdiv] at h
      rw [h]
      constructor
      · rintro ⟨i, hi, hi', hd, hj⟩
        have := (Nat.div_lt_iff_lt_mul hgeo.bits_pos).1 (hrun.block_lt hgeo hi')
        exact ⟨i, hi, by omega, this, hd, hj⟩
      · rintro ⟨i, hi, hi', -, hd, hj⟩
        exact ⟨i, hi, by omega, hd, hj⟩
    have hblock := hrun.block_lt hgeo (i := start) (by omega)
    rw [hfull, BlockAllocator.works_full_iff hblock]
    constructor
    · rintro ⟨hw, -⟩
      refine ⟨hfull, hstart, hcross, fun k hk => hw k (by omega) ?_ ?_⟩
      · have := hrun.block_lt hgeo (i := k * a.blockBits) hk
        rwa [Nat.mul_div_cancel _ hgeo.bits_pos] at this
      · exact .inr (by rw [hdiv]; omega)
    · intro h
      refine ⟨fun k _ _ hk => h.works k ?_, fun d j hin => (hexact d j).1 hin,
        fun d j hc hin => absurd ((hexact d j).2 hc) hin⟩
      rw [hdiv] at hk
      rcases hk with rfl | hk <;> omega
  · refine iff_of_false (BlockAllocator.not_freesExactly_of_high hgeo hrun
      (i := a.NumBlockBits group) (by omega) hcross ?_) fun h => hfull h.full
    rw [Nat.mod_eq_of_lt (by omega)]

theorem freesExactly_iff_later (hfull : a.NumBlockBits group = a.blockBits)
    (hstart : a.blockBits ≤ start) :
    FreesExactly a group start length (a.Free dev ⟨group, start, length⟩).1
        (a.Free dev ⟨group, start, length⟩).2 ↔ FreesFromLaterBlock dev a group start length := by
  have hpos := hgeo.bits_pos
  have hlpos := hrun.length_pos
  have hlt := hrun.start_lt
  have hblock := hrun.block_lt hgeo (i := start) (by omega)
  have hsplit := Nat.div_add_mod start a.blockBits
  obtain ⟨blocks, hdvd⟩ := hgeo.bits_dvd (by omega)
  have hsmall : a.blockBits ≤ 32768 := by
    rcases blocks with _ | _ | blocks
    · omega
    · omega
    · have := Nat.mul_le_mul_left a.blockBits (show 2 ≤ blocks + 1 + 1 by omega)
      omega
  -- the first bitmap block ends at or before bit 2^16
  have hfl : freeLength a.blockBits start length = toUint16 (a.blockBits + 65536 - start) := by
    rw [freeLength, if_pos (by omega)]
  by_cases heq : start = a.blockBits
  · -- the code's remaining length is zero, so the first bit is kept
    refine iff_of_false (fun h => ?_) fun h => by have := h.start_gt; omega
    have hm0 : start % a.blockBits = 0 := by rw [heq]; exact Nat.mod_self _
    have hfl0 : freeLength a.blockBits start length = 0 := by
      rw [hfl, heq, toUint16]
      omega
    have hfirst : AllocationBlock.runLength a.blockBits (start % a.blockBits)
        (freeLength a.blockBits start length) = 0 := by
      rw [hfl0, hm0, AllocationBlock.runLength, if_neg (by omega), if_neg (by omega)]
    rw [BlockAllocator.freesExactly_iff_cleared dev hgeo hrun (by rw [hfull, hfirst])
      rfl (.inr (by omega))] at h
    have := h.2.1 _ _ ⟨start, Nat.le_refl _, by omega, rfl, rfl⟩
    rcases this with ⟨-, h₁, h₂⟩ | ⟨k, -, hd, -⟩
    · omega
    · omega
  · have hflv : freeLength a.blockBits start length = a.blockBits + 65536 - start := by
      rw [hfl, toUint16]
      omega
    have hfirst : AllocationBlock.runLength a.blockBits (start % a.blockBits)
        (freeLength a.blockBits start length) = a.blockBits - start % a.blockBits := by
      rw [hflv, AllocationBlock.runLength, toUint16]
      split
      · omega
      · rw [if_pos (by omega)]
        omega
    have hrestv : toUint16 (length + 65536 - freeLength a.blockBits start length) =
        (length + start - a.blockBits) % 65536 := by
      rw [hflv, toUint16]
      congr 1
      omega
    rw [BlockAllocator.freesExactly_iff_cleared dev hgeo hrun (by rw [hfull, hfirst])
      (by rw [hfull, hrestv]) (.inr (by omega))]
    simp only [BlockAllocator.cleared_full_iff hgeo hrun hfull]
    rw [hfull, BlockAllocator.works_full_iff hblock]
    have hmul : (start / a.blockBits + 1) * a.blockBits =
        a.blockBits * (start / a.blockBits) + a.blockBits := by
      rw [Nat.mul_comm, Nat.mul_add, Nat.mul_one]
    have hcomm : start / a.blockBits * a.blockBits = a.blockBits * (start / a.blockBits) :=
      Nat.mul_comm _ _
    by_cases hwrap : start + length < 65536 + a.blockBits
    · rw [Nat.mod_eq_of_lt (by omega), hmul]
      constructor
      · rintro ⟨hw, -, hclear⟩
        refine ⟨hfull, by omega, hwrap, fun i hi hi' hin => ?_, fun k hk hk' hlt' =>
          hw k hk hk' (.inr (by omega))⟩
        refine hclear _ _ ⟨i, by omega, by omega, hin, rfl, rfl⟩ ?_
        rintro ⟨i', -, hi₂, hd, hj⟩
        have h₁ := Nat.div_add_mod i a.blockBits
        have h₂ := Nat.div_add_mod i' a.blockBits
        rw [show i' / a.blockBits = i / a.blockBits by omega, ← hj] at h₂
        omega
      · intro h
        refine ⟨fun k hk hk' hlt' => h.works k hk hk' ?_, ?_, ?_⟩
        · rcases hlt' with rfl | hlt'
          · omega
          · omega
        · rintro d j ⟨i, hi, hi', hd, hj⟩
          have := (Nat.div_lt_iff_lt_mul hpos).1 (hrun.block_lt hgeo hi')
          exact ⟨i, hi, by omega, this, hd, hj⟩
        · rintro d j ⟨i, hi, hi', hin, rfl, rfl⟩ hnot
          refine h.clear i ?_ (by omega) hin
          by_contra hlt'
          exact hnot ⟨i, hi, by omega, rfl, rfl⟩
    · -- the length wraps around once more, and the run's last bit is kept
      refine iff_of_false (fun h => ?_) fun h => hwrap h.no_wrap
      obtain ⟨i, -, hi, -, hd, hj⟩ := h.2.1 _ _
        ⟨start + length - 1, by omega, by omega, rfl, rfl⟩
      have h₁ := Nat.div_add_mod (start + length - 1) a.blockBits
      have h₂ := Nat.div_add_mod i a.blockBits
      rw [show i / a.blockBits = (start + length - 1) / a.blockBits by omega, ← hj] at h₂
      rw [hmul] at hi
      omega

theorem freesExactly_iff_short (hshort : a.NumBlockBits group < a.blockBits)
    (hstart : a.NumBlockBits group ≤ start) :
    FreesExactly a group start length (a.Free dev ⟨group, start, length⟩).1
        (a.Free dev ⟨group, start, length⟩).2 ↔ FreesInPartialGroup dev a group start length := by
  have hpos := a.NumBlockBits_pos group hgeo.size_pos
  have hlpos := hrun.length_pos
  have hlt := hrun.start_lt
  by_cases hlater : a.blockBits ≤ start
  · have hfl : freeLength (a.NumBlockBits group) start length =
        a.NumBlockBits group + 65536 - start := by
      rw [freeLength, if_pos (by omega), toUint16]
      omega
    have hrest : toUint16 (length + 65536 - freeLength (a.NumBlockBits group) start length) =
        (length + start - a.NumBlockBits group) % 65536 := by
      rw [hfl, toUint16]
      congr 1
      omega
    have hcleared := BlockAllocator.freesExactly_iff_cleared dev hgeo hrun
      (congrArg _ hfl) hrest (.inr (by omega))
    have hfit := AllocationBlock.runLength_fits (a.NumBlockBits group)
      (start % a.NumBlockBits group) (a.NumBlockBits group + 65536 - start)
      (Nat.mod_lt _ hpos)
    have hblock : ∀ k, k < a.fBlocksPerGroup - start / a.blockBits - 1 ↔
        start / a.blockBits + 1 + k < a.fBlocksPerGroup := fun k => by omega
    simp only [hblock] at hcleared
    constructor
    · intro h
      -- the run cannot reach the end of its bitmap block
      have hone : start % a.blockBits + length ≤ a.blockBits := by
        by_contra hlong
        have hsplit := Nat.div_add_mod start a.blockBits
        refine BlockAllocator.not_freesExactly_of_high hgeo hrun
          (i := a.blockBits * (start / a.blockBits) + (a.blockBits - 1)) ?_ (by omega) ?_ h
        · have := Nat.mod_lt start hgeo.bits_pos
          omega
        · rw [Nat.mul_add_mod, Nat.mod_eq_of_lt (by omega)]
          omega
      have hin := BlockAllocator.inRun_of_block a group start length hgeo.bits_pos rfl hone
      obtain ⟨hw, hsub, hclear⟩ := hcleared.1 h
      have hplace : ∀ j, start % a.blockBits ≤ j → j < start % a.blockBits + length →
          start % a.NumBlockBits group ≤ j ∧ j < start % a.NumBlockBits group +
            AllocationBlock.runLength (a.NumBlockBits group) (start % a.NumBlockBits group)
              (a.NumBlockBits group + 65536 - start) := by
        intro j hj hj'
        rcases hsub _ j ((hin _ j).2 ⟨rfl, hj, hj'⟩) with ⟨-, h₁, h₂⟩ | ⟨k, -, hd, -⟩
        · exact ⟨h₁, h₂⟩
        · omega
      have hlow := hplace (start % a.blockBits) (Nat.le_refl _) (by omega)
      have hhigh := hplace (start % a.blockBits + length - 1) (by omega) (by omega)
      refine ⟨hshort, hlater, hlow.1, by omega, fun j hj hj' hnot => ?_,
        fun k j hk hj hkj => ?_, hw⟩
      · exact hclear _ _ (.inl ⟨rfl, hj, hj'⟩) fun h' => hnot ((hin _ _).1 h').2
      · refine hclear _ _ (.inr ⟨k, by omega, rfl, hj, hkj⟩) fun h' => ?_
        have := ((hin _ _).1 h').1
        omega
    · intro h
      have hhigh := h.high
      have hin := BlockAllocator.inRun_of_block a group start length hgeo.bits_pos rfl
        (by omega)
      refine hcleared.2 ⟨h.works, fun d j hrun' => ?_, ?_⟩
      · obtain ⟨rfl, hj, hj'⟩ := (hin _ _).1 hrun'
        exact .inl ⟨rfl, Nat.le_trans h.low hj, by omega⟩
      · rintro d j (⟨rfl, hj, hj'⟩ | ⟨k, hk, rfl, hj, hkj⟩) hnot
        · exact h.clear j hj hj' fun h' => hnot ((hin _ _).2 ⟨rfl, h'⟩)
        · exact h.clear_rest k j (by omega) hj hkj
  · refine iff_of_false (BlockAllocator.not_freesExactly_of_high hgeo hrun (Nat.le_refl _)
      (by omega) ?_) fun h => hlater h.later
    rw [Nat.mod_eq_of_lt (by omega)]
    exact hstart

end

end cases

/-- **`Free()` clears exactly the run** if and only if the run lies in one of these places. A
run just allocated is then given back: the bitmap and the counts are as before. -/
theorem free_exact_iff (dev : Device) (a : BlockAllocator) (group start length : Nat)
    (hgeo : a.ValidGeometry) (hrun : a.AllocatedRun group start length) :
    (FreesExactly a group start length (a.Free dev ⟨group, start, length⟩).1
        (a.Free dev ⟨group, start, length⟩).2 ↔
      FreesInFirstBlock dev a group start length ∨ FreesAcrossBlocks dev a group start length ∨
        FreesFromLaterBlock dev a group start length ∨
        FreesInPartialGroup dev a group start length) ∧
    ∀ a₀ maximum minimum, AllocatesExactly a₀ maximum minimum .B_OK ⟨group, start, length⟩ a →
      (∀ g, (a.fGroups g).fStart = (a₀.fGroups g).fStart) → a.blockBits = a₀.blockBits →
      FreesExactly a group start length (a.Free dev ⟨group, start, length⟩).1
        (a.Free dev ⟨group, start, length⟩).2 →
      (∀ b j, bit ((a.Free dev ⟨group, start, length⟩).2.blocks b) j = bit (a₀.blocks b) j) ∧
      (∀ g, ((a.Free dev ⟨group, start, length⟩).2.fGroups g).fFreeBits =
        (a₀.fGroups g).fFreeBits) ∧
      (a.Free dev ⟨group, start, length⟩).2.used_blocks = a₀.used_blocks := by
  have hle := a.NumBlockBits_le group hgeo.size_pos
  have hpos := hrun.length_pos
  refine ⟨?_, ?_⟩
  · by_cases hfirst : start + length ≤ a.NumBlockBits group
    · rw [freesExactly_iff_first hgeo hrun hfirst]
      refine ⟨.inl, ?_⟩
      rintro (h | h | h | h)
      · exact h
      · have := h.crosses
        omega
      · have := h.start_gt
        omega
      · have := h.later
        omega
    · by_cases hstart : start < a.NumBlockBits group
      · rw [freesExactly_iff_across hgeo hrun hstart (by omega)]
        refine ⟨fun h => .inr (.inl h), ?_⟩
        rintro (h | h | h | h)
        · exact absurd h.fits hfirst
        · exact h
        · have := h.start_gt
          omega
        · have := h.later
          omega
      · by_cases hfull : a.NumBlockBits group = a.blockBits
        · rw [freesExactly_iff_later hgeo hrun hfull (by omega)]
          refine ⟨fun h => .inr (.inr (.inl h)), ?_⟩
          rintro (h | h | h | h)
          · exact absurd h.fits hfirst
          · have := h.start_lt
            omega
          · exact h
          · exact absurd hfull (Nat.ne_of_lt h.short_block)
        · rw [freesExactly_iff_short hgeo hrun (by omega) (by omega)]
          refine ⟨fun h => .inr (.inr (.inr h)), ?_⟩
          rintro (h | h | h | h)
          · exact absurd h.fits hfirst
          · exact absurd h.full hfull
          · exact absurd h.full hfull
          · exact h
  · intro a₀ maximum minimum halloc hstart hbits hfree
    obtain ⟨g, hg, -, -, -, -, hclear, hset, hcount, hother, hused⟩ := halloc.ok rfl
    obtain rfl : group = g := Int.ofNat.inj hg
    simp only at hclear hset hcount hused
    have hin : ∀ b j, a.InRun group start length b j ↔ a₀.InRun group start length b j := by
      intro b j
      unfold BlockAllocator.InRun
      rw [hstart, hbits]
    refine ⟨fun b j => ?_, fun g => ?_, ?_⟩
    · rw [Bool.eq_iff_iff, hfree.bits, hset, hin]
      constructor
      · rintro ⟨h | h, hnot⟩
        · exact h
        · exact absurd h hnot
      · intro h
        refine ⟨.inl h, ?_⟩
        rintro ⟨i, hi, hi', rfl, rfl⟩
        have := hclear i hi hi'
        rw [BlockAllocator.groupBit] at this
        rw [this] at h
        cases h
    · by_cases hg' : g = group
      · subst hg'
        rw [hfree.free_bits, hcount]
        omega
      · rw [hfree.other_groups g hg', hother g hg']
    · rw [hfree.used_blocks, hused]
      omega

/-- A volume with one group of two bitmap blocks: its first eleven blocks are in use, and the
one whose bit comes first in the second bitmap block. -/
def laterVolume : BlockAllocator :=
  { borderVolume with
    used_blocks := 12
    fGroups := fun _ =>
      { fNumBits := 16384, fStart := 1, fFirstFree := 11, fLargest := 8191
        fLargestFirst := 8193, fFreeBits := 16372 }
    blocks := fun b k => if k = 0 ∧ b = 1 then 0x7ff#32 else if k = 0 ∧ b = 2 then 1#32 else 0#32 }

theorem laterVolume_valid : laterVolume.ValidGeometry :=
  ⟨⟨10, rfl⟩, by decide, by decide, fun _ _ => Nat.le_refl 16384⟩

theorem laterVolume_run {start : Nat} (hstart : start = 10 ∨ start = 8192) :
    laterVolume.AllocatedRun 0 start 1 := by
  have hinside : start + 1 ≤ 16384 := by omega
  have hlog : ¬(0 = 0 ∧ start < 3 + 7) := by omega
  refine ⟨by decide, by omega, by decide, by decide, hinside, hlog, fun i hi hi' => ?_⟩
  obtain rfl : i = start := by omega
  rcases hstart with rfl | rfl <;> rfl

/-- A free run in the first bitmap block is given back exactly. -/
theorem free_exact_iff_first_block :
    FreesExactly laterVolume 0 10 1 (laterVolume.Free soundDevice ⟨0, 10, 1⟩).1
      (laterVolume.Free soundDevice ⟨0, 10, 1⟩).2 :=
  (free_exact_iff soundDevice laterVolume 0 10 1 laterVolume_valid
    (laterVolume_run (.inl rfl))).1.2 (.inl ⟨by decide, by decide, rfl, rfl⟩)

/-- The first block of the second bitmap block is not given back. -/
theorem free_later_block_not_exact :
    ¬∀ (dev : Device) (a : BlockAllocator) (group start length : Nat),
      (∀ n, dev.read n = true ∧ dev.write n = true) → a.ValidGeometry →
      a.AllocatedRun group start length →
      FreesExactly a group start length (a.Free dev ⟨group, start, length⟩).1
        (a.Free dev ⟨group, start, length⟩).2 := by
  intro h
  have hexact := h soundDevice laterVolume 0 8192 1 (fun _ => ⟨rfl, rfl⟩) laterVolume_valid
    (laterVolume_run (.inr rfl))
  rw [freesExactly_iff_later laterVolume_valid (laterVolume_run (.inr rfl)) rfl
    (by decide)] at hexact
  exact absurd hexact.start_gt (by decide)

end BFS