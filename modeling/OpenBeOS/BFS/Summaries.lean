import OpenBeOS.BFS.FreeBlocks

/-! # The summaries of the allocation groups

`fFreeBits`, `fFirstFree` and the super block's `used_blocks` repeat what the bitmap says.
`initializeGroups_summaries` shows that the scan of `initialize()` computes them,
`allocate_summaries` and `free_summaries` that a call keeps them, and
`summaries_of_run` puts these together for all runs. Every group has one bitmap block here.
-/

namespace BFS

open Bitmap

/-! ## The scan of one group -/

/-- The scan after the first `n` bits. -/
def scanUpTo (w : Words) (s : FreeScan) : Nat → FreeScan
  | 0 => s
  | n + 1 => (scanUpTo w s n).step (bit w n) n

theorem scanWord_eq (w : Words) (s₀ : FreeScan) (k size fuel j num : Nat) (hj : j + fuel = 32)
    (hnum : num = 32 * k + j) (hsize : num ≤ size) :
    scanWord (w k) size fuel j num (scanUpTo w s₀ num) =
      (min size (32 * k + 32), scanUpTo w s₀ (min size (32 * k + 32))) := by
  induction fuel generalizing j num with
  | zero =>
    have : min size (32 * k + 32) = num := by omega
    rw [scanWord, this]
  | succ fuel ih =>
    rw [scanWord]
    by_cases hlt : num < size
    · rw [if_pos ⟨by omega, hlt⟩]
      have hbit : (w k).getLsbD j = bit w num := by
        rw [bit, show num / 32 = k by omega, show num % 32 = j by omega]
      rw [hbit]
      exact ih (j + 1) (num + 1) (by omega) (by omega) hlt
    · rw [if_neg (by omega)]
      have : min size (32 * k + 32) = num := by omega
      rw [this]

theorem scanWords_eq (w : Words) (s₀ : FreeScan) (size fuel k num : Nat)
    (hnum : num = min size (32 * k)) :
    scanWords w size fuel k num (scanUpTo w s₀ num) =
      scanUpTo w s₀ (min size (32 * (k + fuel))) := by
  induction fuel generalizing k num with
  | zero => rw [scanWords, hnum, Nat.add_zero]
  | succ fuel ih =>
    rw [scanWords]
    have hword : scanWord (w k) size 32 0 num (scanUpTo w s₀ num) =
        (min size (32 * (k + 1)), scanUpTo w s₀ (min size (32 * (k + 1)))) := by
      by_cases hlt : 32 * k ≤ size
      · rw [scanWord_eq w s₀ k size 32 0 num (by omega) (by omega) (by omega)]
        rfl
      · have hn : min size (32 * (k + 1)) = num := by omega
        rw [scanWord, if_neg (by omega), hn]
    simp only [hword]
    rw [ih (k + 1) _ rfl]
    congr 2
    omega

/-- What the scan knows about the first `num` bits. -/
structure FreeScan.Knows (w : Words) (num : Nat) (s : FreeScan) : Prop where
  range_le : s.range ≤ num
  start_eq : 0 < s.range → s.start = num - s.range
  free_bits : s.group.fFreeBits + s.range = Nat.count (fun i => bit w i = false) num
  none_free : s.group.fFirstFree = -1 → ∀ i, i < num - s.range → bit w i = true
  first_free : s.group.fFirstFree ≠ -1 → ∀ i : Nat, (i : Int) < s.group.fFirstFree →
    bit w i = true

theorem FreeScan.step_geometry (s : FreeScan) (used : Bool) (num : Nat) :
    (s.step used num).group.fNumBits = s.group.fNumBits ∧
      (s.step used num).group.fStart = s.group.fStart := by
  unfold FreeScan.step
  split
  · split <;> exact ⟨rfl, rfl⟩
  · exact ⟨rfl, rfl⟩

theorem scanUpTo_geometry (w : Words) (s₀ : FreeScan) (num : Nat) :
    (scanUpTo w s₀ num).group.fNumBits = s₀.group.fNumBits ∧
      (scanUpTo w s₀ num).group.fStart = s₀.group.fStart := by
  induction num with
  | zero => exact ⟨rfl, rfl⟩
  | succ num ih =>
    obtain ⟨hn, hs⟩ := (scanUpTo w s₀ num).step_geometry (bit w num) num
    exact ⟨hn.trans ih.1, hs.trans ih.2⟩

/-- The last range is added when the scan has ended. -/
def FreeScan.finish (s : FreeScan) : AllocationGroup :=
  if s.range ≠ 0 then s.group.AddFreeRange s.start s.range else s.group

theorem FreeScan.finish_geometry (s : FreeScan) :
    s.finish.fNumBits = s.group.fNumBits ∧ s.finish.fStart = s.group.fStart := by
  unfold finish
  split <;> exact ⟨rfl, rfl⟩

variable {a : BlockAllocator} {dev : Device} {run : block_run} {r : Range} {w : Words} {g : Nat}

theorem FreeScan.Knows.finish {num : Nat} {s : FreeScan} (h : s.Knows w num) :
    s.finish.fFreeBits = Nat.count (fun i => bit w i = false) num ∧
      ∀ i : Nat, (i : Int) < s.finish.fFirstFree → bit w i = true := by
  obtain ⟨hle, hstart, hfree, hnone, hfirst⟩ := h
  unfold FreeScan.finish
  split
  · rename_i hr
    refine ⟨hfree, fun i hi => ?_⟩
    simp only [AllocationGroup.AddFreeRange] at hi
    split at hi
    · rename_i hm
      exact hnone hm i (by have := hstart (by omega); omega)
    · rename_i hm
      exact hfirst hm i hi
  · refine ⟨by omega, fun i hi => ?_⟩
    by_cases hm : s.group.fFirstFree = -1
    · omega
    · exact hfirst hm i hi

theorem FreeScan.Knows.step {num : Nat} {s : FreeScan} (h : s.Knows w num) :
    (s.step (bit w num) num).Knows w (num + 1) := by
  obtain ⟨hle, hstart, hfree, hnone, hfirst⟩ := h
  have hcount := Nat.count_succ (fun i => bit w i = false) num
  unfold FreeScan.step
  cases hb : bit w num with
  | true =>
    rw [if_pos rfl]
    simp only [hb, Bool.true_eq_false, if_false] at hcount
    split
    · rename_i hr
      refine ⟨by simp, by simp, ?_, ?_, ?_⟩
      · simp only [AllocationGroup.AddFreeRange]
        omega
      · intro hnew
        simp only [AllocationGroup.AddFreeRange] at hnew
        split at hnew <;> omega
      · intro _ i hi
        simp only [AllocationGroup.AddFreeRange] at hi
        split at hi
        · rename_i hm
          exact hnone hm i (by have := hstart hr; omega)
        · rename_i hm
          exact hfirst hm i hi
    · refine ⟨by omega, by omega, by omega, fun hm i hi => ?_, hfirst⟩
      by_cases hlt : i < num - s.range
      · exact hnone hm i hlt
      · obtain rfl : i = num := by omega
        exact hb
  | false =>
    rw [if_neg (by simp)]
    simp only [hb, if_true] at hcount
    refine ⟨by simp only; omega, ?_, by simp only; omega, ?_, hfirst⟩
    · intro _
      simp only
      split
      · omega
      · have := hstart (by omega)
        omega
    · intro hm i hi
      simp only at hi
      exact hnone hm i (by omega)

theorem FreeScan.Knows.scan {s₀ : FreeScan} (h : s₀.Knows w 0) (num : Nat) :
    (scanUpTo w s₀ num).Knows w num := by
  induction num with
  | zero => exact h
  | succ num ih => exact ih.step

/-! ## initialize -/

/-- A volume with one bitmap block for each group, before `initialize()`: the groups are new,
and the last one holds what is left of the volume. -/
structure BlockAllocator.SingleBlock (a : BlockAllocator) : Prop where
  block_size : ∃ shift, a.BlockSize = 2 ^ shift
  one_block : a.fBlocksPerGroup = 1
  groups_pos : 0 < a.fNumGroups
  last_lower : (a.fNumGroups - 1) * a.blockBits < a.NumBlocks
  last_upper : a.NumBlocks ≤ a.fNumGroups * a.blockBits

theorem BlockAllocator.SingleBlock.size_pos (h : a.SingleBlock) :
    0 < a.BlockSize := by
  obtain ⟨shift, hs⟩ := h.block_size
  rw [hs]
  exact Nat.pos_of_ne_zero (by simp)

/-- The number of blocks of a group: the last one may be shorter. -/
def BlockAllocator.groupBits (a : BlockAllocator) (group : Nat) : Nat :=
  if group = a.fNumGroups - 1 then a.NumBlocks - group * a.blockBits else a.blockBits

theorem BlockAllocator.SingleBlock.groupBits_bounds (h : a.SingleBlock)
    {group : Nat} (hg : group < a.fNumGroups) :
    0 < a.groupBits group ∧ a.groupBits group ≤ a.blockBits := by
  have hlow := h.last_lower
  have hup := h.last_upper
  have hpos := h.size_pos
  unfold groupBits
  split
  · rename_i heq
    have hmul : a.fNumGroups * a.blockBits = (a.fNumGroups - 1) * a.blockBits + a.blockBits := by
      rw [← Nat.succ_mul]
      congr 1
      omega
    rw [heq]
    omega
  · unfold blockBits
    omega

/-- The state after `initialize()`, and after every later call: the geometry of the groups,
and summaries that agree with the bitmap. -/
structure BlockAllocator.Summaries (a : BlockAllocator) : Prop where
  single : a.SingleBlock
  start_eq : ∀ g, g < a.fNumGroups → (a.fGroups g).fStart = 1 + g
  numBits_eq : ∀ g, g < a.fNumGroups → (a.fGroups g).fNumBits = a.groupBits g
  consistent : ∀ g, g < a.fNumGroups → a.GroupConsistent g
  used_eq : a.used_blocks =
    a.NumBlocks - (Finset.range a.fNumGroups).sum fun g => (a.fGroups g).fFreeBits

theorem BlockAllocator.bit_readWords (h : a.SingleBlock) (offset i : Nat)
    (hi : i < a.blockBits) : bit (a.readWords offset) i = bit (a.blocks offset) i := by
  obtain ⟨shift, hs⟩ := h.block_size
  unfold bit readWords
  unfold blockBits at hi
  by_cases h4 : a.BlockSize < 4
  · have h0 : a.BlockSize / 4 = 0 := by omega
    rw [h0, Nat.div_zero, Nat.mod_zero, Nat.add_zero]
  · have hdvd : 4 ∣ a.BlockSize := by
      rw [hs] at h4 ⊢
      have : 2 ≤ shift := by
        by_contra hlt
        obtain rfl | rfl : shift = 0 ∨ shift = 1 := by omega
        · exact h4 (by decide)
        · exact h4 (by decide)
      exact Nat.pow_dvd_pow 2 this
    have hlt : i / 32 < a.BlockSize / 4 := by omega
    rw [Nat.div_eq_of_lt hlt, Nat.mod_eq_of_lt hlt, Nat.add_zero]

/-- The scan reads all bits of a group, or none of a group of less than four blocks. -/
def BlockAllocator.ScansLastGroup (a : BlockAllocator) : Prop :=
  4 ≤ a.groupBits (a.fNumGroups - 1) ∨
    ∀ i, i < a.groupBits (a.fNumGroups - 1) →
      bit (a.blocks (1 + (a.fNumGroups - 1))) i = true

theorem BlockAllocator.scanGroup_knows (h : a.SingleBlock)
    (hg : g < a.fNumGroups) (hnew : a.fGroups g = AllocationGroup.new) (hlast : a.ScansLastGroup) :
    (a.scanGroup g (1 + g)).fNumBits = a.groupBits g ∧ (a.scanGroup g (1 + g)).fStart = 1 + g ∧
      (a.scanGroup g (1 + g)).fFreeBits =
        Nat.count (fun i => bit (a.blocks (1 + g)) i = false) (a.groupBits g) ∧
      ∀ i : Nat, (i : Int) < (a.scanGroup g (1 + g)).fFirstFree → i < a.groupBits g →
        bit (a.blocks (1 + g)) i = true := by
  obtain ⟨hpos, hle⟩ := h.groupBits_bounds hg
  have hbits : 8 * a.fBlocksPerGroup * a.BlockSize = a.blockBits := by
    rw [h.one_block, blockBits]
    omega
  have hsize : (if g = a.fNumGroups - 1 then a.NumBlocks - g * a.blockBits else a.blockBits) =
      a.groupBits g := rfl
  -- the scan starts with a new group and knows nothing yet
  let s₀ : FreeScan :=
    ⟨{ AllocationGroup.new with fNumBits := a.groupBits g, fStart := 1 + g }, 0, 0⟩
  have hknow₀ : s₀.Knows (a.readWords (1 + g)) 0 :=
    ⟨by simp [s₀], by simp [s₀], by simp [s₀, AllocationGroup.new], by simp,
      fun hne => absurd rfl hne⟩
  have hscan : a.scanGroup g (1 + g) = (scanUpTo (a.readWords (1 + g)) s₀
      (min (a.groupBits g) (32 * (0 + a.groupBits g / 4)))).finish := by
    rw [← scanWords_eq (a.readWords (1 + g)) s₀ (a.groupBits g) (a.groupBits g / 4) 0 0
      (by omega)]
    unfold scanGroup
    simp only [hbits, hsize, hnew]
    rfl
  have hgeo := scanUpTo_geometry (a.readWords (1 + g)) s₀
    (min (a.groupBits g) (32 * (0 + a.groupBits g / 4)))
  have hfin := FreeScan.finish_geometry (scanUpTo (a.readWords (1 + g)) s₀
    (min (a.groupBits g) (32 * (0 + a.groupBits g / 4))))
  have hknow := (hknow₀.scan (min (a.groupBits g) (32 * (0 + a.groupBits g / 4)))).finish
  rw [← hscan] at hknow hfin
  refine ⟨hfin.1.trans hgeo.1, hfin.2.trans hgeo.2, ?_, fun i hi hlt => ?_⟩
  · rw [hknow.1]
    by_cases h4 : 4 ≤ a.groupBits g
    · rw [show min (a.groupBits g) (32 * (0 + a.groupBits g / 4)) = a.groupBits g by omega]
      exact congrArg Int.ofNat (count_congr fun i hi => by rw [bit_readWords h _ _ (by omega)])
    · rw [show min (a.groupBits g) (32 * (0 + a.groupBits g / 4)) = 0 by omega, Nat.count_zero]
      -- a group of less than four blocks is not read; its blocks are all in use
      have hg' : g = a.fNumGroups - 1 := by
        by_contra hne
        have : a.groupBits g = a.blockBits := by rw [groupBits, if_neg hne]
        unfold blockBits at *
        omega
      have hall := hlast.resolve_left (by rw [← hg']; exact h4)
      rw [← hg'] at hall
      rw [Nat.count_iff_forall_not.2 fun i hi => by rw [hall i hi]; simp]
  · rw [← bit_readWords h _ _ (by omega)]
    exact hknow.2 i hi

theorem BlockAllocator.scanGroup_setGroup (a : BlockAllocator) {g i : Nat}
    (group : AllocationGroup) (hg : g ≠ i) (offset : Nat) :
    (a.setGroup i group).scanGroup g offset = a.scanGroup g offset := by
  have h : (a.setGroup i group).fGroups g = a.fGroups g := if_neg hg
  unfold scanGroup
  rw [h]
  rfl

/-- The loop of `initialize()` replaces the summaries of the groups one after another. -/
theorem BlockAllocator.scanGroups_spec (dev : Device) (fuel i : Nat) (freeBlocks : Int)
    (a : BlockAllocator) (h : a.SingleBlock)
    (hread : ∀ g, i ≤ g → g < i + fuel → dev.read (1 + g) = true) :
    scanGroups dev fuel i (1 + i) freeBlocks a =
      ({ a with fGroups := fun g =>
          if i ≤ g ∧ g < i + fuel then a.scanGroup g (1 + g) else a.fGroups g },
        freeBlocks + (Finset.range fuel).sum fun k =>
          (a.scanGroup (i + k) (1 + (i + k))).fFreeBits) := by
  induction fuel generalizing i freeBlocks a with
  | zero =>
    have hnone : (fun g => if i ≤ g ∧ g < i + 0 then a.scanGroup g (1 + g) else a.fGroups g) =
        a.fGroups := funext fun g => if_neg (by omega)
    rw [hnone, Finset.sum_range_zero, add_zero]
    rfl
  | succ fuel ih =>
    have hone : ∀ k, k < a.fBlocksPerGroup → dev.read (1 + i + k) = true := by
      intro k hk
      have : k = 0 := by have := h.one_block; omega
      subst this
      exact hread i (Nat.le_refl _) (by omega)
    have hall : (List.range a.fBlocksPerGroup).all (fun k => dev.read (1 + i + k)) = true := by
      rw [List.all_eq_true]
      exact fun k hk => hone k (List.mem_range.1 hk)
    have hscan := fun g (hg : g ≠ i) =>
      a.scanGroup_setGroup (a.scanGroup i (1 + i)) hg (1 + g)
    have hnext : 1 + i + a.fBlocksPerGroup = 1 + (i + 1) := by
      rw [h.one_block]
      omega
    rw [scanGroups, if_pos hall]
    simp only
    rw [hnext, ih (i + 1) _ (a.setGroup i (a.scanGroup i (1 + i)))
      ⟨h.block_size, h.one_block, h.groups_pos, h.last_lower, h.last_upper⟩
      fun g hg hg' => hread g (by omega) (by omega)]
    refine Prod.ext_iff.2 ⟨?_, ?_⟩
    · simp only [setGroup, BlockAllocator.mk.injEq, true_and, and_true]
      funext g
      by_cases hg : g = i
      · subst hg
        rw [if_neg (by omega), if_pos rfl, if_pos (by omega)]
      · have hscan' := hscan g hg
        simp only [setGroup] at hscan'
        by_cases hin : i + 1 ≤ g ∧ g < i + 1 + fuel
        · rw [if_pos hin, if_pos (by omega), hscan']
        · rw [if_neg hin, if_neg hg, if_neg (by omega)]
    · simp only
      rw [Finset.sum_range_succ', Nat.add_zero, add_assoc,
        add_comm (a.scanGroup i (1 + i)).fFreeBits]
      congr 2
      refine Finset.sum_congr rfl fun k _ => ?_
      rw [show i + (k + 1) = i + 1 + k by omega, hscan _ (by omega)]

theorem BlockAllocator.initializeGroups_eq (dev : Device) (a : BlockAllocator)
    (h : a.SingleBlock) (hread : ∀ g, g < a.fNumGroups → dev.read (1 + g) = true) :
    a.initializeGroups dev = { a with
      fGroups := fun g => if g < a.fNumGroups then a.scanGroup g (1 + g) else a.fGroups g
      used_blocks := a.NumBlocks -
        (Finset.range a.fNumGroups).sum fun g => (a.scanGroup g (1 + g)).fFreeBits } := by
  have hscan := scanGroups_spec dev a.fNumGroups 0 0 a h fun g _ hg => hread g (by omega)
  simp only [Nat.add_zero, Nat.zero_le, true_and, zero_add] at hscan
  unfold initializeGroups
  rw [hscan]
  simp only
  split
  · rfl
  · rename_i hsame
    simp only [ne_eq, not_not] at hsame
    rw [← hsame]

/-- **`initialize()` computes the summaries** of any bitmap it can read, unless the last group
has less than four blocks and a free one among them. -/
theorem BlockAllocator.initializeGroups_summaries (dev : Device) (a : BlockAllocator)
    (h : a.SingleBlock) (hnew : ∀ g, g < a.fNumGroups → a.fGroups g = AllocationGroup.new)
    (hread : ∀ g, g < a.fNumGroups → dev.read (1 + g) = true) (hlast : a.ScansLastGroup) :
    (a.initializeGroups dev).Summaries := by
  have hinit := a.initializeGroups_eq dev h hread
  have hgroup : ∀ g, g < a.fNumGroups →
      (a.initializeGroups dev).fGroups g = a.scanGroup g (1 + g) := by
    intro g hg
    rw [hinit]
    exact if_pos hg
  have hsingle : (a.initializeGroups dev).SingleBlock := by
    rw [hinit]
    exact ⟨h.block_size, h.one_block, h.groups_pos, h.last_lower, h.last_upper⟩
  have hnum : (a.initializeGroups dev).fNumGroups = a.fNumGroups := by rw [hinit]
  have hbits : ∀ g, (a.initializeGroups dev).groupBits g = a.groupBits g := by
    intro g
    rw [hinit]
    rfl
  have hknow : ∀ g, g < a.fNumGroups → _ := fun g hg =>
    scanGroup_knows h hg (hnew g hg) hlast
  have hbit : ∀ g i, g < a.fNumGroups → i < a.groupBits g →
      (a.initializeGroups dev).groupBit g i = bit (a.blocks (1 + g)) i := by
    intro g i hg hi
    have hle := (h.groupBits_bounds hg).2
    have hblock : (a.initializeGroups dev).blockBits = a.blockBits := by rw [hinit]; rfl
    have hblocks : (a.initializeGroups dev).blocks = a.blocks := by rw [hinit]
    rw [groupBit, hblock, hblocks, hgroup g hg, (hknow g hg).2.1,
      Nat.div_eq_of_lt (by omega), Nat.mod_eq_of_lt (by omega), Nat.add_zero]
  refine ⟨hsingle, fun g hg => ?_, fun g hg => ?_, fun g hg => ?_, ?_⟩
  · rw [hgroup g (by omega)]
    exact (hknow g (by omega)).2.1
  · rw [hgroup g (by omega), hbits]
    exact (hknow g (by omega)).1
  · rw [hnum] at hg
    obtain ⟨hn, -, hfree, hfirst⟩ := hknow g hg
    constructor
    · rw [hgroup g hg, hfree, hn]
      exact congrArg Int.ofNat (count_congr fun i hi => by rw [hbit g i hg hi])
    · rw [hgroup g hg, hn]
      intro i hi hlt
      rw [hbit g i hg hlt]
      exact hfirst i hi hlt
  · rw [hnum]
    have hsum : (Finset.range a.fNumGroups).sum
        (fun g => ((a.initializeGroups dev).fGroups g).fFreeBits) =
        (Finset.range a.fNumGroups).sum fun g => (a.scanGroup g (1 + g)).fFreeBits :=
      Finset.sum_congr rfl fun g hg => by rw [hgroup g (Finset.mem_range.1 hg)]
    rw [hsum, hinit]

/-! ## A change in one group -/

/-- Only the summary of one group, its bits and `used_blocks` differ. -/
structure BlockAllocator.ChangesGroup (a a' : BlockAllocator) (group : Nat) : Prop where
  block_size : a'.BlockSize = a.BlockSize
  num_blocks : a'.NumBlocks = a.NumBlocks
  num_groups : a'.fNumGroups = a.fNumGroups
  per_group : a'.fBlocksPerGroup = a.fBlocksPerGroup
  start_eq : (a'.fGroups group).fStart = (a.fGroups group).fStart
  numBits_eq : (a'.fGroups group).fNumBits = (a.fGroups group).fNumBits
  other_groups : ∀ g, g ≠ group → a'.fGroups g = a.fGroups g
  other_blocks : ∀ b j, b ≠ (a.fGroups group).fStart →
    (bit (a'.blocks b) j = true ↔ bit (a.blocks b) j = true)

theorem BlockAllocator.Summaries.change {a a' : BlockAllocator} {group : Nat} (h : a.Summaries)
    (hc : a.ChangesGroup a' group) (hg : group < a.fNumGroups)
    (hcons : a'.GroupConsistent group)
    (hused : a'.used_blocks =
      a.used_blocks + ((a.fGroups group).fFreeBits - (a'.fGroups group).fFreeBits)) :
    a'.Summaries := by
  have hblock : a'.blockBits = a.blockBits := by
    unfold blockBits
    rw [hc.block_size]
  have hbits : ∀ g, a'.groupBits g = a.groupBits g := by
    intro g
    unfold groupBits
    rw [hblock, hc.num_blocks, hc.num_groups]
  have hgeo : ∀ g, (a'.fGroups g).fStart = (a.fGroups g).fStart ∧
      (a'.fGroups g).fNumBits = (a.fGroups g).fNumBits := by
    intro g
    by_cases hgg : g = group
    · rw [hgg]
      exact ⟨hc.start_eq, hc.numBits_eq⟩
    · rw [hc.other_groups g hgg]
      exact ⟨rfl, rfl⟩
  refine ⟨⟨?_, ?_, ?_, ?_, ?_⟩, fun g hg' => ?_, fun g hg' => ?_, fun g hg' => ?_, ?_⟩
  · rw [hc.block_size]
    exact h.single.block_size
  · rw [hc.per_group]
    exact h.single.one_block
  · rw [hc.num_groups]
    exact h.single.groups_pos
  · rw [hc.num_groups, hblock, hc.num_blocks]
    exact h.single.last_lower
  · rw [hc.num_groups, hblock, hc.num_blocks]
    exact h.single.last_upper
  · rw [hc.num_groups] at hg'
    rw [(hgeo g).1, h.start_eq g hg']
  · rw [hc.num_groups] at hg'
    rw [(hgeo g).2, h.numBits_eq g hg', hbits]
  · rw [hc.num_groups] at hg'
    by_cases hgg : g = group
    · rw [hgg]
      exact hcons
    · -- the bitmap block of another group is another device block
      have hold := h.consistent g hg'
      have hbit : ∀ i, i < (a.fGroups g).fNumBits → a'.groupBit g i = a.groupBit g i := by
        intro i hi
        have hle := (h.single.groupBits_bounds hg').2
        rw [← h.numBits_eq g hg'] at hle
        have hne : (a.fGroups g).fStart ≠ (a.fGroups group).fStart := by
          rw [h.start_eq g hg', h.start_eq group hg]
          omega
        rw [groupBit, groupBit, hblock, (hgeo g).1, Nat.div_eq_of_lt (by omega),
          Nat.mod_eq_of_lt (by omega), Nat.add_zero, Bool.eq_iff_iff]
        exact hc.other_blocks _ i hne
      constructor
      · rw [hc.other_groups g hgg, hold.free_bits]
        exact congrArg Int.ofNat (count_congr fun i hi => by rw [hbit i hi])
      · rw [hc.other_groups g hgg]
        intro i hi hlt
        rw [hbit i hlt]
        exact hold.first_free i hi hlt
  · have hsum : (Finset.range a.fNumGroups).sum (fun g => (a'.fGroups g).fFreeBits) =
        (Finset.range a.fNumGroups).sum (fun g => (a.fGroups g).fFreeBits) +
          ((a'.fGroups group).fFreeBits - (a.fGroups group).fFreeBits) := by
      have hmem := Finset.mem_range.2 hg
      rw [← Finset.add_sum_erase _ _ hmem, ← Finset.add_sum_erase _ _ hmem,
        Finset.sum_congr rfl fun g hg' => by
          rw [hc.other_groups g (Finset.ne_of_mem_erase hg')]]
      omega
    rw [hused, h.used_eq, hc.num_blocks, hc.num_groups, hsum]
    omega

/-! ## AllocateBlocks -/

theorem Range.extend_rangeBlock {numBits block bit : Nat}
    (hr : r.rangeBlock = block) : (r.extend numBits block bit).rangeBlock = block := by
  unfold extend
  split
  · rfl
  · exact hr

theorem searchBits_rangeBlock (used : Nat → Bool) (numBits block maximum minimum : Nat)
    (secondPass : Bool) (fuel bit : Nat) (r : Range) (hr : r.rangeBlock = block) :
    (searchBits used numBits block maximum minimum secondPass fuel bit r).rangeBlock = block := by
  induction fuel generalizing bit r with
  | zero => exact hr
  | succ fuel ih =>
    simp only [searchBits]
    split
    · split
      · exact Range.extend_rangeBlock hr
      · exact ih _ _ (Range.extend_rangeBlock hr)
    · split
      · exact hr
      · exact ih _ _ hr

/-- What the search of a single bitmap block promises, whatever sizes are asked for. -/
structure FoundSingle (a : BlockAllocator) (group block numBlocks : Nat) (r : Range) : Prop where
  group_lt : group < a.fNumGroups
  block_eq : block = 0
  rangeBlock_eq : r.rangeBlock = 0
  numBlocks_le : numBlocks ≤ r.range
  numBlocks_lt : numBlocks < 65536
  place : numBlocks = 0 ∨
    r.Covers (AllocationBlock.IsUsed (a.blocks (a.fGroups group).fStart) (a.NumBlockBits group))
      (a.NumBlockBits group) 0 (a.NumBlockBits group)

theorem searchBlocks_single (hone : a.fBlocksPerGroup = 1)
    (hsize : 0 < a.BlockSize) {group maximum minimum numBlocks block start : Nat}
    {secondPass : Bool} (hgroup : group < a.fNumGroups) (hnum : numBlocks < 65536)
    {group' block' numBlocks' : Nat}
    (h : searchBlocks dev a group maximum minimum numBlocks secondPass
      (a.fBlocksPerGroup - block) block start ⟨0, 0, 0⟩ = .found group' block' numBlocks' r) :
    FoundSingle a group' block' numBlocks' r := by
  rw [hone] at h
  rcases block with _ | block
  · have hbits := a.NumBlockBits_pos group hsize
    have hmod := Nat.mod_lt start hbits
    simp only [searchBlocks] at h
    split at h
    · cases h
    · have hblock := searchBits_rangeBlock
        (AllocationBlock.IsUsed (a.blocks ((a.fGroups group).fStart + 0)) (a.NumBlockBits group))
        (a.NumBlockBits group) 0 maximum minimum secondPass
        (a.NumBlockBits group - start % a.NumBlockBits group)
        (start % a.NumBlockBits group) ⟨0, 0, 0⟩ rfl
      have hcov := searchBits_covers
        (AllocationBlock.IsUsed (a.blocks ((a.fGroups group).fStart + 0)) (a.NumBlockBits group))
        (a.NumBlockBits group) 0 maximum minimum secondPass
        (a.NumBlockBits group - start % a.NumBlockBits group)
        (start % a.NumBlockBits group) ⟨0, 0, 0⟩
        (.inl rfl : _ ∨ (_ ∧ False) ∨ _)
      have hend : start % a.NumBlockBits group +
          (a.NumBlockBits group - start % a.NumBlockBits group) = a.NumBlockBits group := by omega
      rw [hend] at hcov
      generalize searchBits _ _ _ _ _ _ _ _ _ = r₁ at h hblock hcov
      split at h
      · rename_i hge
        cases h
        have hle : (if numBlocks < maximum then toUint16 r.range else numBlocks) ≤ r.range := by
          unfold toUint16
          split <;> omega
        refine ⟨hgroup, rfl, hblock, hle, ?_, ?_⟩
        · unfold toUint16
          split <;> omega
        · rcases hcov with h0 | h | h
          · exact .inl (by omega)
          · exact absurd h.2 not_false
          · exact .inr h
      · cases h
  · have : 1 - (block + 1) = 0 := by omega
    rw [this] at h
    cases h

theorem searchGroups_single (hone : a.fBlocksPerGroup = 1)
    (hsize : 0 < a.BlockSize) (hgroups : 0 < a.fNumGroups) {maximum minimum : Nat}
    (hmax : maximum < 65536) (hmin : minimum < 65536) (fuel i group start : Nat)
    {group' block numBlocks : Nat}
    (h : searchGroups dev a maximum minimum fuel i group start = .found group' block numBlocks r) :
    FoundSingle a group' block numBlocks r := by
  induction fuel generalizing i group start with
  | zero => cases h
  | succ fuel ih =>
    simp only [searchGroups] at h
    split at h
    · exact ih _ _ _ h
    · split at h
      · cases h
      · split at h
        · exact ih _ _ _ h
        · refine searchBlocks_single hone hsize (Nat.mod_lt group hgroups) ?_ h
          split <;> omega

/-- In a group of one bitmap block the group's bits are those of the block. -/
theorem BlockAllocator.groupConsistent_iff
    (hle : (a.fGroups g).fNumBits ≤ a.blockBits) :
    a.GroupConsistent g ↔
      (a.fGroups g).fFreeBits = Nat.count
          (fun i => bit (a.blocks (a.fGroups g).fStart) i = false) (a.fGroups g).fNumBits ∧
      ∀ i : Nat, (i : Int) < (a.fGroups g).fFirstFree → i < (a.fGroups g).fNumBits →
        bit (a.blocks (a.fGroups g).fStart) i = true := by
  have hbit : ∀ i, i < (a.fGroups g).fNumBits →
      a.groupBit g i = bit (a.blocks (a.fGroups g).fStart) i := by
    intro i hi
    rw [groupBit, Nat.div_eq_of_lt (by omega), Nat.mod_eq_of_lt (by omega), Nat.add_zero]
  have hcount : Nat.count (fun i => a.groupBit g i = false) (a.fGroups g).fNumBits =
      Nat.count (fun i => bit (a.blocks (a.fGroups g).fStart) i = false)
        (a.fGroups g).fNumBits := count_congr fun i hi => by rw [hbit i hi]
  constructor
  · rintro ⟨hfree, hfirst⟩
    rw [hcount] at hfree
    exact ⟨hfree, fun i hi hlt => hbit i hlt ▸ hfirst i hi hlt⟩
  · rintro ⟨hfree, hfirst⟩
    rw [← hcount] at hfree
    exact ⟨hfree, fun i hi hlt => (hbit i hlt).symm ▸ hfirst i hi hlt⟩

theorem BlockAllocator.Summaries.numBits_le (h : a.Summaries)
    (hg : g < a.fNumGroups) : (a.fGroups g).fNumBits ≤ a.blockBits := by
  rw [h.numBits_eq g hg]
  exact (h.single.groupBits_bounds hg).2

theorem BlockAllocator.Summaries.numBlockBits_eq (h : a.Summaries)
    (hg : g < a.fNumGroups) : a.NumBlockBits g = (a.fGroups g).fNumBits := by
  have hle := h.numBits_le hg
  have hpos := (h.single.groupBits_bounds hg).1
  rw [← h.numBits_eq g hg] at hpos
  unfold NumBlockBits
  rcases Nat.lt_or_eq_of_le hle with hlt | heq
  · rw [Nat.mod_eq_of_lt hlt, if_pos (by omega)]
  · rw [heq, Nat.mod_self, if_neg (by simp)]

/-- The range the search stops at ends below bit `2^16`, as it does in any bitmap block of at
most 8192 bytes, and its length is not mistaken for the magic `0xffff`. -/
def CountsAllocation (dev : Device) (a : BlockAllocator) (group start maximum minimum : Nat) :
    Prop :=
  ∀ g block numBlocks r,
    searchGroups dev a maximum minimum (a.fNumGroups * 2) 0 group start =
      .found g block numBlocks r →
    r.rangeStart + numBlocks ≤ 65536 ∧
      (numBlocks = 65535 → ((a.fGroups g).fNumBits - r.rangeStart) % 65536 = 65535)

theorem BlockAllocator.Summaries.takeRange (h : a.Summaries)
    {g block numBlocks : Nat} (hf : FoundSingle a g block numBlocks r)
    (hlow : r.rangeStart + numBlocks ≤ 65536)
    (hmagic : numBlocks = 65535 → ((a.fGroups g).fNumBits - r.rangeStart) % 65536 = 65535) :
    (a.takeRange g 0 numBlocks r.rangeStart).Summaries := by
  have hnb := h.numBlockBits_eq hf.group_lt
  have hle := h.numBits_le hf.group_lt
  have hold := (groupConsistent_iff hle).1 (h.consistent g hf.group_lt)
  have hmod := Nat.mod_lt (toUint16 r.rangeStart) (a.NumBlockBits_pos g h.single.size_pos)
  have hsummary : (a.takeRange g 0 numBlocks r.rangeStart).fGroups g =
      (a.fGroups g).take r.rangeStart numBlocks := by
    simp [BlockAllocator.takeRange, setGroup, setBlock]
  -- the bits that are set are the ones that were found
  have hplace : numBlocks = 0 ∨ (toUint16 r.rangeStart % a.NumBlockBits g = r.rangeStart ∧
      r.rangeStart + numBlocks ≤ (a.fGroups g).fNumBits ∧
      ∀ i, r.rangeStart ≤ i → i < r.rangeStart + numBlocks →
        bit (a.blocks (a.fGroups g).fStart) i = false) := by
    rcases hf.place with h0 | ⟨-, first, hstart, hfit, hused⟩
    · exact .inl h0
    · by_cases h0 : numBlocks = 0
      · exact .inl h0
      · right
        have hnum := hf.numBlocks_le
        rw [Nat.zero_mul, Nat.zero_add] at hstart
        rw [toUint16_of_lt (by omega), Nat.mod_eq_of_lt (by omega)]
        refine ⟨rfl, by omega, fun i hi hi' => ?_⟩
        have hu := hused (i - first) (by omega)
        rw [toUint16_of_lt (by omega), show first + (i - first) = i by omega,
          AllocationBlock.IsUsed, if_neg (by omega)] at hu
        exact hu
  have hlength : AllocationBlock.runLength (a.NumBlockBits g)
      (toUint16 r.rangeStart % a.NumBlockBits g) numBlocks = numBlocks := by
    refine (AllocationBlock.runLength_eq_iff hf.numBlocks_lt hmod).2 ?_
    rcases hplace with h0 | ⟨hs, hfit, -⟩
    · exact ⟨by omega, fun h => by omega⟩
    · rw [hs, hnb]
      exact ⟨hfit, hmagic⟩
  have hbits : ∀ b j, bit ((a.takeRange g 0 numBlocks r.rangeStart).blocks b) j = true ↔
      bit (a.blocks b) j = true ∨ (b = (a.fGroups g).fStart ∧ r.rangeStart ≤ j ∧
        j < r.rangeStart + numBlocks) := by
    intro b j
    rw [bit_takeRange, hlength, Nat.add_zero]
    refine or_congr_right (and_congr_right fun _ => ?_)
    rcases hplace with h0 | ⟨hs, -⟩
    · omega
    · rw [hs]
  have hcount : Nat.count (fun i => bit (a.blocks (a.fGroups g).fStart) i = false)
      (a.fGroups g).fNumBits = Nat.count (fun i => bit ((a.takeRange g 0 numBlocks
        r.rangeStart).blocks (a.fGroups g).fStart) i = false) (a.fGroups g).fNumBits +
        numBlocks := by
    have hsame : ∀ i, ¬(r.rangeStart ≤ i ∧ i < r.rangeStart + numBlocks) →
        (bit (a.blocks (a.fGroups g).fStart) i = false ↔
          bit ((a.takeRange g 0 numBlocks r.rangeStart).blocks (a.fGroups g).fStart) i = false) := by
      intro i hi
      rw [← Bool.not_eq_true, ← Bool.not_eq_true, hbits]
      exact not_congr ⟨.inl, fun h' => h'.resolve_right fun h' => hi h'.2⟩
    rcases hplace with h0 | ⟨-, hfit, hfree⟩
    · rw [count_congr fun i _ => hsame i (by omega)]
      omega
    · refine count_mark hfit hfree (fun i hi hi' => ?_) hsame
      rw [Bool.not_eq_false, hbits]
      exact .inr ⟨rfl, hi, hi'⟩
  have hfree : (a.fGroups g).fFreeBits - numBlocks = (Nat.count (fun i => bit ((a.takeRange g 0
      numBlocks r.rangeStart).blocks (a.fGroups g).fStart) i = false)
        (a.fGroups g).fNumBits : Nat) := by
    rw [hold.1, hcount]
    omega
  have hchange : a.ChangesGroup (a.takeRange g 0 numBlocks r.rangeStart) g := by
    refine ⟨rfl, rfl, rfl, rfl, ?_, ?_, fun g' hg' => ?_, fun b j hb => ?_⟩
    · rw [hsummary]
      rfl
    · rw [hsummary]
      rfl
    · simp [BlockAllocator.takeRange, setGroup, setBlock, hg']
    · rw [hbits]
      exact ⟨fun h => h.resolve_right fun h' => hb h'.1, .inl⟩
  refine h.change hchange hf.group_lt ?_ ?_
  · refine (groupConsistent_iff (by rw [hsummary]; exact hle)).2 ?_
    rw [hsummary]
    refine ⟨hfree, fun i hi hlt => ?_⟩
    change bit ((a.takeRange g 0 numBlocks r.rangeStart).blocks (a.fGroups g).fStart) i = true
    rw [hbits]
    simp only [AllocationGroup.take] at hi hlt
    split at hi
    · rename_i heq
      by_cases hbelow : i < r.rangeStart
      · exact .inl (hold.2 i (by omega) hlt)
      · exact .inr ⟨rfl, by omega, by omega⟩
    · exact .inl (hold.2 i hi hlt)
  · rw [hsummary]
    simp only [BlockAllocator.takeRange, AllocationGroup.take]
    omega

/-- **A successful `AllocateBlocks()` keeps the summaries.** -/
theorem BlockAllocator.Summaries.allocate (h : a.Summaries)
    {group start maximum minimum : Nat} (hmax : maximum < 65536)
    (hmin : minimum < 65536)
    (hok : (a.AllocateBlocks dev group start maximum minimum run).1 = .B_OK)
    (hcounts : CountsAllocation dev a group start maximum minimum) :
    (a.AllocateBlocks dev group start maximum minimum run).2.2.Summaries := by
  unfold AllocateBlocks at hok ⊢
  cases hsearch : searchGroups dev a maximum minimum (a.fNumGroups * 2) 0 group start with
  | notFound | error =>
    rw [hsearch] at hok
    cases hok
  | found g block numBlocks r =>
    have hf := searchGroups_single h.single.one_block h.single.size_pos h.single.groups_pos
      hmax hmin _ _ _ _ hsearch
    obtain ⟨hlow, hmagic⟩ := hcounts g block numBlocks r hsearch
    obtain rfl := hf.block_eq
    simp only
    rw [allocateRange_one_block hf.rangeBlock_eq]
    exact h.takeRange hf hlow hmagic

/-! ## Free -/

/-- The blocks that are freed are in use, and their number is not mistaken for the magic
`0xffff`. -/
def CountsFree (a : BlockAllocator) (run : block_run) : Prop :=
  (∀ i, run.start ≤ i → i < run.start + run.length →
    a.groupBit run.allocation_group.toNat i = true) ∧
  (run.length = 65535 →
    ((a.fGroups run.allocation_group.toNat).fNumBits - run.start) % 65536 = 65535)

theorem BlockAllocator.Free_checks
    (hok : (a.Free dev run).1 = .B_OK) :
    ∃ group : Nat, run.allocation_group = group ∧ group < a.fNumGroups ∧ 0 < run.length ∧
      run.start + run.length ≤ (a.fGroups group).fNumBits ∧
      ¬(group = 0 ∧ run.start < a.Log.start + a.Log.length) := by
  unfold Free at hok
  simp only at hok
  split at hok
  · cases hok
  · rename_i hguard
    split at hok
    · cases hok
    · rename_i hlog
      obtain ⟨group, hgroup⟩ := Int.eq_ofNat_of_zero_le (show 0 ≤ run.allocation_group by omega)
      rw [hgroup] at hguard hlog
      simp only [Int.toNat_natCast] at hguard
      exact ⟨group, hgroup, by omega, by omega, by omega, by omega⟩

/-- The state after a successful call whose run lies in the only bitmap block. -/
theorem BlockAllocator.Summaries.free_state
    (h : a.Summaries) {group start length : Nat} (hrun : a.AllocatedRun group start length)
    (hmagic : length = 65535 → ((a.fGroups group).fNumBits - start) % 65536 = 65535)
    (hok : (a.Free dev ⟨group, start, length⟩).1 = .B_OK) :
    FreesExactly a group start length .B_OK (a.Free dev ⟨group, start, length⟩).2 ∧
      ∃ blocks, (a.Free dev ⟨group, start, length⟩).2 =
        { a.summaryFreed group start length with
          blocks := blocks, used_blocks := a.used_blocks - length } := by
  have hle := h.numBits_le hrun.group_lt
  have hinside := hrun.inside
  have hpos := hrun.length_pos
  have hgeo : a.ValidGeometry :=
    ⟨h.single.block_size, h.single.groups_pos, by rw [h.single.one_block]; decide,
      fun g hg => by rw [h.single.one_block, Nat.one_mul]; exact h.numBits_le hg⟩
  have hfit : start + length ≤ a.NumBlockBits group := by
    rw [h.numBlockBits_eq hrun.group_lt]
    exact hinside
  have heq := Free_eq dev hrun.group_lt hpos hinside hrun.not_reserved
  have hframe := freeLoop_frame dev group (a.fBlocksPerGroup - start / a.blockBits)
    (start / a.blockBits) start length (a.summaryFreed group start length)
  have hdiv : start / a.blockBits = 0 := Nat.div_eq_of_lt (by omega)
  have hpass := (freeLoop_pass dev group 0 0 start length (a.summaryFreed group start length)).1
  have hworks : dev.Works a group 0 := by
    rw [heq] at hok
    rw [hdiv, h.single.one_block] at hok
    have hloop : (freeLoop dev group (0 + 1) 0 start length
        (a.summaryFreed group start length)).1 = .B_OK := by
      revert hok
      generalize freeLoop dev group (1 - 0) 0 start length (a.summaryFreed group start length) =
        res
      obtain ⟨status, a'⟩ := res
      intro hok
      cases status <;> first | rfl | exact hok
    have := (hpass.1 hloop).1
    simp only [Device.Works, a.summaryFreed_start] at this
    exact this
  have hexact := (freesExactly_iff_first hgeo hrun hfit).2
    ⟨hfit, by rw [h.numBlockBits_eq hrun.group_lt]; exact hmagic, hworks⟩
  rw [hok] at hexact
  refine ⟨hexact, ?_⟩
  rw [heq] at hok ⊢
  revert hok hframe
  generalize freeLoop dev group (a.fBlocksPerGroup - start / a.blockBits) (start / a.blockBits)
    start length (a.summaryFreed group start length) = res
  obtain ⟨status, a'⟩ := res
  intro hok hframe
  cases status with
  | B_OK =>
    have hframe' : a' = { a.summaryFreed group start length with blocks := a'.blocks } := hframe
    generalize a'.blocks = blocks at hframe'
    subst hframe'
    exact ⟨blocks, rfl⟩
  | _ => cases hok

theorem BlockAllocator.Summaries.free_run
    (h : a.Summaries) {group start length : Nat} (hrun : a.AllocatedRun group start length)
    (hmagic : length = 65535 → ((a.fGroups group).fNumBits - start) % 65536 = 65535)
    (hok : (a.Free dev ⟨group, start, length⟩).1 = .B_OK) :
    (a.Free dev ⟨group, start, length⟩).2.Summaries := by
  have hle := h.numBits_le hrun.group_lt
  have hinside := hrun.inside
  have hold := (groupConsistent_iff hle).1 (h.consistent group hrun.group_lt)
  obtain ⟨hexact, blocks, hstate⟩ := h.free_state hrun hmagic hok
  have hblockBits : 0 < a.blockBits := by
    have := h.single.size_pos
    unfold blockBits
    omega
  have hin := inRun_of_block a group start length
    hblockBits (Nat.div_eq_of_lt (by have := hrun.length_pos; omega))
    (by rw [Nat.mod_eq_of_lt (by have := hrun.length_pos; omega)]; omega)
  rw [Nat.mod_eq_of_lt (by have := hrun.length_pos; omega), Nat.add_zero] at hin
  have hbits : ∀ b j, bit ((a.Free dev ⟨group, start, length⟩).2.blocks b) j = true ↔
      bit (a.blocks b) j = true ∧ ¬(b = (a.fGroups group).fStart ∧ start ≤ j ∧
        j < start + length) := by
    intro b j
    rw [hexact.bits, hin]
  have hfreeBits := hexact.free_bits
  have hused := hexact.used_blocks
  have hsummary : (a.Free dev ⟨group, start, length⟩).2.fGroups group =
      (a.summaryFreed group start length).fGroups group := by
    rw [hstate]
  have hchange : a.ChangesGroup (a.Free dev ⟨group, start, length⟩).2 group := by
    refine ⟨?_, ?_, ?_, ?_, ?_, ?_, hexact.other_groups, fun b j hb => ?_⟩
    · rw [hstate]; rfl
    · rw [hstate]; rfl
    · rw [hstate]; rfl
    · rw [hstate]; rfl
    · rw [hsummary]
      exact a.summaryFreed_start group start length
    · rw [hsummary]
      simp [summaryFreed, setGroup]
    · rw [hbits]
      exact ⟨fun h => h.1, fun h => ⟨h, fun h' => hb h'.1⟩⟩
  have hset : ∀ i, start ≤ i → i < start + length →
      bit (a.blocks (a.fGroups group).fStart) i = true := by
    intro i hi hi'
    have := hrun.allocated i hi hi'
    rwa [groupBit, Nat.div_eq_of_lt (by omega), Nat.mod_eq_of_lt (by omega),
      Nat.add_zero] at this
  have hcount : Nat.count (fun i => bit ((a.Free dev ⟨group, start, length⟩).2.blocks
      (a.fGroups group).fStart) i = false) (a.fGroups group).fNumBits =
      Nat.count (fun i => bit (a.blocks (a.fGroups group).fStart) i = false)
        (a.fGroups group).fNumBits + length := by
    refine count_mark hinside (fun i hi hi' => ?_) (fun i hi hi' => ?_) (fun i hi => ?_)
    · rw [← Bool.not_eq_true, hbits]
      exact fun h' => h'.2 ⟨rfl, hi, hi'⟩
    · rw [hset i hi hi']
      simp
    · rw [← Bool.not_eq_true, ← Bool.not_eq_true, hbits]
      exact not_congr ⟨fun h' => h'.1, fun h' => ⟨h', fun h'' => hi h''.2⟩⟩
  refine h.change hchange hrun.group_lt ?_ (by rw [hused, hfreeBits]; omega)
  refine (groupConsistent_iff (by rw [hchange.numBits_eq, hstate]; exact hle)).2 ?_
  rw [hchange.start_eq, hchange.numBits_eq]
  refine ⟨by rw [hfreeBits, hold.1, hcount]; omega, fun i hi hlt => ?_⟩
  rw [hsummary] at hi
  simp only [summaryFreed, setGroup, ↓reduceIte] at hi
  rw [hbits]
  split at hi
  · exact ⟨hold.2 i (by omega) hlt, fun h' => by omega⟩
  · exact ⟨hold.2 i hi hlt, fun h' => by omega⟩

/-- **A successful `Free()` keeps the summaries.** -/
theorem BlockAllocator.Summaries.free (h : a.Summaries) (hstart : run.start < 65536) (hlength : run.length < 65536)
    (hok : (a.Free dev run).1 = .B_OK) (hcounts : CountsFree a run) :
    (a.Free dev run).2.Summaries := by
  obtain ⟨group, hgroup, hlt, hpos, hinside, hlog⟩ := Free_checks hok
  obtain ⟨halloc, hmagic⟩ := hcounts
  obtain ⟨allocation_group, start, length⟩ := run
  simp only at hgroup
  subst hgroup
  exact h.free_run ⟨hlt, hstart, hpos, hlength, hinside, hlog, halloc⟩ hmagic hok

/-! ## Runs -/

/-- The states after `initialize()` of a volume and successful calls that count right. -/
inductive SummaryRun (dev : Device) (a₀ : BlockAllocator) : BlockAllocator → Prop
  | initialized : SummaryRun dev a₀ (a₀.initializeGroups dev)
  | allocated {a : BlockAllocator} (group start maximum minimum : Nat) (run : block_run) :
      SummaryRun dev a₀ a → maximum < 65536 → minimum < 65536 →
      (a.AllocateBlocks dev group start maximum minimum run).1 = .B_OK →
      CountsAllocation dev a group start maximum minimum →
      SummaryRun dev a₀ (a.AllocateBlocks dev group start maximum minimum run).2.2
  | freed {a : BlockAllocator} (run : block_run) :
      SummaryRun dev a₀ a → run.start < 65536 → run.length < 65536 →
      (a.Free dev run).1 = .B_OK → CountsFree a run →
      SummaryRun dev a₀ (a.Free dev run).2

/-- What the summaries of a volume should say. -/
structure BlockAllocator.SummariesConsistent (a : BlockAllocator) : Prop where
  free_bits : ∀ g, g < a.fNumGroups → (a.fGroups g).fFreeBits =
    Nat.count (fun i => a.groupBit g i = false) (a.fGroups g).fNumBits
  first_free : ∀ g, g < a.fNumGroups → 0 < (a.fGroups g).fFreeBits →
    0 ≤ (a.fGroups g).fFirstFree → ∀ i : Nat, (i : Int) < (a.fGroups g).fFirstFree →
    i < (a.fGroups g).fNumBits → a.groupBit g i = true
  num_bits : ((Finset.range a.fNumGroups).sum fun g => (a.fGroups g).fNumBits) = a.NumBlocks
  used_blocks : a.used_blocks =
    a.NumBlocks - (Finset.range a.fNumGroups).sum fun g => (a.fGroups g).fFreeBits

theorem BlockAllocator.Summaries.sum_numBits (h : a.Summaries) :
    ((Finset.range a.fNumGroups).sum fun g => (a.fGroups g).fNumBits) = a.NumBlocks := by
  have hlow := h.single.last_lower
  obtain ⟨n, hn⟩ := Nat.exists_eq_succ_of_ne_zero (Nat.ne_of_gt h.single.groups_pos)
  rw [Finset.sum_congr rfl fun g hg => h.numBits_eq g (Finset.mem_range.1 hg), hn,
    Finset.sum_range_succ]
  have hfull : ∀ g, g ∈ Finset.range n → a.groupBits g = a.blockBits := by
    intro g hg
    have := Finset.mem_range.1 hg
    rw [groupBits, if_neg (by omega)]
  rw [Finset.sum_const_nat hfull, Finset.card_range, groupBits, if_pos (by omega)]
  rw [hn, Nat.succ_sub_one] at hlow
  omega

theorem BlockAllocator.Summaries.consistent_all (h : a.Summaries) :
    a.SummariesConsistent :=
  ⟨fun g hg => (h.consistent g hg).free_bits, fun g hg _ _ => (h.consistent g hg).first_free,
    h.sum_numBits, h.used_eq⟩

theorem SummaryRun.summaries {a₀ a : BlockAllocator} (h : SummaryRun dev a₀ a)
    (hsingle : a₀.SingleBlock)
    (hnew : ∀ g, g < a₀.fNumGroups → a₀.fGroups g = AllocationGroup.new)
    (hread : ∀ g, g < a₀.fNumGroups → dev.read (1 + g) = true) (hlast : a₀.ScansLastGroup) :
    a.Summaries := by
  induction h with
  | initialized => exact a₀.initializeGroups_summaries dev hsingle hnew hread hlast
  | allocated group start maximum minimum run _ hmax hmin hok hcounts ih =>
    exact ih.allocate hmax hmin hok hcounts
  | freed run _ hstart hlength hok hcounts ih => exact ih.free hstart hlength hok hcounts

/-- An unused volume before `initialize()`. -/
def newVolume (NumBlocks fNumGroups : Nat) : BlockAllocator :=
  { BlockSize := 1024
    NumBlocks := NumBlocks
    Log := ⟨0, 3, 7⟩
    used_blocks := 0
    fNumGroups := fNumGroups
    fBlocksPerGroup := 1
    fGroups := fun _ => AllocationGroup.new
    blocks := fun _ _ => 0#32 }

end BFS
