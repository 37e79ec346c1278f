import OpenBeOS.BFS.FindBlockRun

/-! # Blocks and block runs (`Volume`)

A block is addressed by its number or by a run of length one. `ToBlockRun()` keeps the bits of the
group where those of the block in its group are wanted, so that the two addresses agree for the
first block of a group only.
-/

namespace BFS

/-! ## The super block -/

/-- The fields of `disk_super_block` that are checked. -/
structure disk_super_block where
  magic1 : BitVec 32
  fs_byte_order : BitVec 32
  block_size : BitVec 32
  block_shift : BitVec 32
  num_blocks : BitVec 64
  inode_size : BitVec 32
  magic2 : BitVec 32
  blocks_per_ag : BitVec 32
  ag_shift : BitVec 32
  num_ags : BitVec 32
  magic3 : BitVec 32

/-- `'BFS1'` -/
def SUPER_BLOCK_MAGIC1 : BitVec 32 := 0x42465331
def SUPER_BLOCK_MAGIC2 : BitVec 32 := 0xdd121031
def SUPER_BLOCK_MAGIC3 : BitVec 32 := 0x15b6830e
/-- `'BIGE'` -/
def SUPER_BLOCK_FS_LENDIAN : BitVec 32 := 0x42494745

def VOLUME_READ_ONLY : BitVec 32 := 0x0001

/-- `divide_roundup(int64, int32)` -/
def divide_roundup (num : BitVec 64) (divisor : BitVec 32) : BitVec 64 :=
  (num + divisor.signExtend 64 - 1).sdiv (divisor.signExtend 64)

/-- The part of `Volume` that the addresses rely on. -/
structure MountedVolume where
  fSuperBlock : disk_super_block
  fFlags : BitVec 32

namespace MountedVolume

variable (volume : MountedVolume)

/-- `Volume::IsValidSuperBlock()` -/
def IsValidSuperBlock : Bool :=
  let fSuperBlock := volume.fSuperBlock
  if fSuperBlock.magic1 ≠ SUPER_BLOCK_MAGIC1
      ∨ fSuperBlock.magic2 ≠ SUPER_BLOCK_MAGIC2
      ∨ fSuperBlock.magic3 ≠ SUPER_BLOCK_MAGIC3
      ∨ fSuperBlock.block_size ≠ fSuperBlock.inode_size
      ∨ fSuperBlock.fs_byte_order ≠ SUPER_BLOCK_FS_LENDIAN
      ∨ 1#32 <<< fSuperBlock.block_shift ≠ fSuperBlock.block_size
      ∨ fSuperBlock.num_ags.toInt < 1
      ∨ fSuperBlock.ag_shift.toInt < 1
      ∨ fSuperBlock.blocks_per_ag.toInt < 1
      ∨ fSuperBlock.num_blocks.toInt < 10
      ∨ fSuperBlock.num_ags.signExtend 64 ≠
          divide_roundup fSuperBlock.num_blocks (1#32 <<< fSuperBlock.ag_shift) then false
  else true

def Panic : MountedVolume := { volume with fFlags := volume.fFlags ||| VOLUME_READ_ONLY }

def AllocationGroups : Nat := volume.fSuperBlock.num_ags.toNat

def AllocationGroupShift : Nat := volume.fSuperBlock.ag_shift.toNat

/-! ## The two addresses -/

def ToBlock (run : block_run) : BitVec 64 :=
  BitVec.ofInt 64 run.allocation_group <<< volume.AllocationGroupShift ||| BitVec.ofNat 64 run.start

def ToBlockRun (block : BitVec 64) : block_run where
  allocation_group := ((block.sshiftRight volume.AllocationGroupShift).setWidth 32).toInt
  start := ((block &&& ~~~ ((1#64 <<< volume.AllocationGroupShift) - 1)).setWidth 16).toNat
  length := 1

def IsValidBlockRun (run : block_run) : Status × MountedVolume :=
  if run.allocation_group < 0 ∨ run.allocation_group > volume.AllocationGroups
      ∨ run.start > (1#64 <<< volume.AllocationGroupShift).toInt
      ∨ run.length = 0
      ∨ run.length + run.start > (1#64 <<< volume.AllocationGroupShift).toInt then
    (.B_BAD_DATA, volume.Panic)
  else (.B_OK, volume)

/-! ## The addresses as numbers -/

variable {volume}

theorem two_pow_facts {shift : Nat} (h : shift ≤ 16) :
    0 < 2 ^ shift ∧ 2 ^ shift ≤ 65536 ∧ 2 ^ shift * 2 ^ (16 - shift) = 65536 := by
  refine ⟨Nat.two_pow_pos shift, Nat.pow_le_pow_right (n := 2) (by decide) h, ?_⟩
  rw [← Nat.pow_add, Nat.add_sub_cancel' h]

theorem toNat_one_shift {w shift : Nat} (h : shift ≤ 16) (hw : 17 < w) :
    (1#w <<< shift).toNat = 2 ^ shift := by
  have hlt : 2 ^ shift < 2 ^ w := Nat.pow_lt_pow_right (by decide) (by omega)
  have hone : 1 % 2 ^ w = 1 := Nat.mod_eq_of_lt (Nat.one_lt_two_pow (by omega))
  rw [BitVec.toNat_shiftLeft, BitVec.toNat_ofNat, hone, Nat.shiftLeft_eq, Nat.one_mul,
    Nat.mod_eq_of_lt hlt]

theorem toInt_one_shift {w shift : Nat} (h : shift ≤ 16) (hw : 17 < w) :
    (1#w <<< shift).toInt = (2 ^ shift : Nat) := by
  have hlt : 2 ^ (shift + 1) < 2 ^ w := Nat.pow_lt_pow_right (by decide) (by omega)
  rw [Nat.pow_succ] at hlt
  rw [BitVec.toInt_eq_toNat_of_lt, toNat_one_shift h hw]
  rw [toNat_one_shift h hw]
  omega

theorem and_not_mask (block : BitVec 64) {shift : Nat} (h : shift ≤ 16) :
    block &&& ~~~ ((1#64 <<< shift) - 1) = (block >>> shift) <<< shift := by
  obtain ⟨hpos, hle, -⟩ := two_pow_facts h
  have hmask : ((1#64 <<< shift) - 1).toNat = 2 ^ shift - 1 := by
    rw [BitVec.toNat_sub, toNat_one_shift h (by decide)]
    show (2 ^ 64 - 1 + 2 ^ shift) % 2 ^ 64 = _
    omega
  refine BitVec.eq_of_getLsbD_eq fun i hi => ?_
  have hbit : ((1#64 <<< shift) - 1).getLsbD i = decide (i < shift) := by
    rw [BitVec.getLsbD, hmask, Nat.testBit_two_pow_sub_one]
  rw [BitVec.getLsbD_and, BitVec.getLsbD_not, hbit, BitVec.getLsbD_shiftLeft,
    BitVec.getLsbD_ushiftRight]
  by_cases hlt : i < shift
  · simp [hlt]
  · simp [hlt, hi, Nat.add_sub_cancel' (Nat.le_of_not_gt hlt)]

theorem ToBlockRun_start (block : BitVec 64) (h : volume.AllocationGroupShift ≤ 16) :
    (volume.ToBlockRun block).start =
      block.toNat / 2 ^ volume.AllocationGroupShift * 2 ^ volume.AllocationGroupShift % 65536 := by
  have hle := Nat.div_mul_le_self block.toNat (2 ^ volume.AllocationGroupShift)
  have hlt := block.isLt
  show ((block &&& ~~~ ((1#64 <<< volume.AllocationGroupShift) - 1)).setWidth 16).toNat = _
  rw [and_not_mask block h, BitVec.toNat_setWidth, BitVec.toNat_shiftLeft, BitVec.toNat_ushiftRight,
    Nat.shiftRight_eq_div_pow, Nat.shiftLeft_eq]
  omega

theorem ToBlockRun_group {block : BitVec 64}
    (hblock : block.toNat / 2 ^ volume.AllocationGroupShift < 2 ^ 31) (hpos : 0 ≤ block.toInt) :
    (volume.ToBlockRun block).allocation_group =
      (block.toNat / 2 ^ volume.AllocationGroupShift : Nat) := by
  have hmsb : block.msb = false := by
    rw [BitVec.msb_eq_false_iff_two_mul_lt]
    rw [BitVec.toInt_eq_toNat_cond] at hpos
    have := block.isLt
    split at hpos <;> omega
  have hnat : ((block.sshiftRight volume.AllocationGroupShift).setWidth 32).toNat =
      block.toNat / 2 ^ volume.AllocationGroupShift := by
    rw [BitVec.toNat_setWidth, BitVec.toNat_sshiftRight_of_msb_false hmsb,
      Nat.shiftRight_eq_div_pow, Nat.mod_eq_of_lt (by omega)]
  show ((block.sshiftRight volume.AllocationGroupShift).setWidth 32).toInt = _
  rw [BitVec.toInt_eq_toNat_of_lt (by omega), hnat]

/-- What `ToBlock()` computes for a run inside a group. -/
theorem ToBlock_eq {run : block_run} (h : volume.AllocationGroupShift ≤ 16)
    (hstart : run.start < 2 ^ volume.AllocationGroupShift) :
    volume.ToBlock run = BitVec.ofInt 64
      (run.allocation_group * (2 ^ volume.AllocationGroupShift : Nat) + run.start) := by
  obtain ⟨hpos, hle, -⟩ := two_pow_facts h
  have hshift : BitVec.ofInt 64 run.allocation_group <<< volume.AllocationGroupShift =
      BitVec.ofInt 64 (run.allocation_group * (2 ^ volume.AllocationGroupShift : Nat)) := by
    rw [BitVec.ofInt_mul, BitVec.shiftLeft_eq_mul_twoPow]
    refine congrArg _ (BitVec.eq_of_toNat_eq ?_)
    rw [BitVec.toNat_twoPow, BitVec.ofInt_natCast, BitVec.toNat_ofNat]
  rw [BitVec.ofInt_add, ← hshift, BitVec.ofInt_natCast, BitVec.add_eq_or_of_and_eq_zero]
  · rfl
  · refine BitVec.eq_of_getLsbD_eq fun i hi => ?_
    rw [BitVec.getLsbD_and, BitVec.getLsbD_shiftLeft]
    by_cases hlt : i < volume.AllocationGroupShift
    · simp [hlt]
    · have hbit : (BitVec.ofNat 64 run.start).getLsbD i = false := by
        rw [BitVec.getLsbD, BitVec.toNat_ofNat, Nat.mod_eq_of_lt (by omega)]
        exact Nat.testBit_lt_two_pow (Nat.lt_of_lt_of_le hstart
          (Nat.pow_le_pow_right (by decide) (Nat.le_of_not_gt hlt)))
      rw [hbit, Bool.and_false, BitVec.getLsbD_zero]

/-- The groups of a valid super block hold its blocks. -/
theorem IsValidSuperBlock.bounds (hvalid : volume.IsValidSuperBlock)
    (h : volume.fSuperBlock.ag_shift.toInt ≤ 16) :
    volume.AllocationGroupShift ≤ 16 ∧ 1 ≤ volume.AllocationGroupShift ∧
      10 ≤ volume.fSuperBlock.num_blocks.toInt ∧ volume.AllocationGroups < 2 ^ 31 ∧
      volume.fSuperBlock.num_blocks.toInt ≤
        volume.AllocationGroups * (2 ^ volume.AllocationGroupShift : Nat) := by
  have hno : ¬ _ := fun hinvalid => absurd ((if_pos hinvalid).symm.trans hvalid) nofun
  simp only [not_or, not_not, not_lt] at hno
  obtain ⟨-, -, -, -, -, -, hgroups, hshift, -, hblocks, heq⟩ := hno
  generalize volume.fSuperBlock.num_blocks = blocks at *
  have hshift_eq : (volume.AllocationGroupShift : Int) = volume.fSuperBlock.ag_shift.toInt := by
    show (volume.fSuperBlock.ag_shift.toNat : Int) = _
    rw [BitVec.toInt_eq_toNat_cond] at hshift ⊢
    split at hshift <;> omega
  have hgroups_eq : (volume.AllocationGroups : Int) = volume.fSuperBlock.num_ags.toInt := by
    show (volume.fSuperBlock.num_ags.toNat : Int) = _
    rw [BitVec.toInt_eq_toNat_cond] at hgroups ⊢
    split at hgroups <;> omega
  have hle : volume.AllocationGroupShift ≤ 16 := by omega
  obtain ⟨hpos, hbound, -⟩ := two_pow_facts hle
  have htop := BitVec.toInt_lt (x := volume.fSuperBlock.num_ags)
  refine ⟨hle, by omega, hblocks, by omega, ?_⟩
  have hdivisor : ((1#32 <<< volume.fSuperBlock.ag_shift).signExtend 64).toInt =
      (2 ^ volume.AllocationGroupShift : Nat) := by
    rw [BitVec.toInt_signExtend_of_le (by decide)]
    exact toInt_one_shift hle (by decide)
  have hquotient := congrArg BitVec.toInt heq
  rw [BitVec.toInt_signExtend_of_le (by decide), divide_roundup,
    BitVec.toInt_sdiv_of_ne_or_ne _ _ (.inr ?_), BitVec.toInt_sub, BitVec.toInt_add, hdivisor,
    ← hgroups_eq] at hquotient
  · have htoInt := BitVec.toInt_lt (x := blocks)
    rw [show BitVec.toInt (1 : BitVec 64) = 1 from rfl] at hquotient
    generalize hd : ((2 ^ volume.AllocationGroupShift : Nat) : Int) = d at hquotient ⊢
    have hdpos : 0 < d := by omega
    generalize hm : ((blocks.toInt + d).bmod (2 ^ 64) - 1).bmod (2 ^ 64) = m at hquotient
    have hcases : m = blocks.toInt + d - 1 ∨ m < 0 := by
      rw [Int.bmod_def, Int.bmod_def] at hm
      split at hm <;> split at hm <;> omega
    rcases hcases with rfl | hneg
    · rw [Int.tdiv_eq_ediv_of_nonneg (by omega)] at hquotient
      have hdiv := Int.mul_ediv_add_emod (blocks.toInt + d - 1) d
      have hmod := Int.emod_lt_of_pos (blocks.toInt + d - 1) hdpos
      rw [hquotient, Int.mul_comm]
      omega
    · -- the sum has overflowed, so that the quotient is no count of groups
      have hle := Int.tdiv_nonneg (a := -m) (b := d) (by omega) (by omega)
      rw [Int.neg_tdiv] at hle
      omega
  · intro hminus
    rw [hminus] at hdivisor
    rw [show (-1#64).toInt = -1 from rfl] at hdivisor
    omega

/-! ## When they agree -/

section

variable {block : BitVec 64}

/-- The block is on the volume. -/
def OnVolume (volume : MountedVolume) (block : BitVec 64) : Prop :=
  0 ≤ block.toInt ∧ block.toInt < volume.fSuperBlock.num_blocks.toInt

instance (volume : MountedVolume) : Decidable (volume.OnVolume block) :=
  inferInstanceAs (Decidable (_ ∧ _))

theorem OnVolume.toNat (h : volume.OnVolume block) : (block.toNat : Int) = block.toInt := by
  have hpos := h.1
  rw [BitVec.toInt_eq_toNat_cond] at hpos ⊢
  have := block.isLt
  split at hpos <;> omega

theorem OnVolume.group_lt (hvalid : volume.IsValidSuperBlock)
    (h : volume.fSuperBlock.ag_shift.toInt ≤ 16) (hblock : volume.OnVolume block) :
    block.toNat / 2 ^ volume.AllocationGroupShift < volume.AllocationGroups := by
  obtain ⟨hle, -, -, -, hfits⟩ := IsValidSuperBlock.bounds hvalid h
  refine Nat.div_lt_of_lt_mul ?_
  have hnat := hblock.toNat
  have hlt := hblock.2
  rw [Nat.mul_comm, ← Int.ofNat_lt, Int.natCast_mul]
  omega

/-- The number of the block that `ToBlockRun()` addresses: the first of the group. -/
theorem ToBlock_ToBlockRun (hvalid : volume.IsValidSuperBlock)
    (h : volume.fSuperBlock.ag_shift.toInt ≤ 16) (hblock : volume.OnVolume block) :
    volume.ToBlock (volume.ToBlockRun block) =
      (block >>> volume.AllocationGroupShift) <<< volume.AllocationGroupShift := by
  obtain ⟨hle, -, -, hgroups, -⟩ := IsValidSuperBlock.bounds hvalid h
  have hgroup := OnVolume.group_lt hvalid h hblock
  have hword : BitVec.ofInt 64 (volume.ToBlockRun block).allocation_group =
      block >>> volume.AllocationGroupShift := by
    rw [ToBlockRun_group (by omega) hblock.1, BitVec.ofInt_natCast]
    refine BitVec.eq_of_toNat_eq ?_
    rw [BitVec.toNat_ofNat, BitVec.toNat_ushiftRight, Nat.shiftRight_eq_div_pow,
      Nat.mod_eq_of_lt (by omega)]
  have hstart : BitVec.ofNat 64 (volume.ToBlockRun block).start =
      (((block >>> volume.AllocationGroupShift) <<<
        volume.AllocationGroupShift).setWidth 16).setWidth 64 := by
    rw [← and_not_mask block hle, ← BitVec.ofNat_toNat 64]
    rfl
  rw [ToBlock, hword, hstart]
  -- the low bits of the group are there already
  refine BitVec.eq_of_getLsbD_eq fun i hi => ?_
  rw [BitVec.getLsbD_or, BitVec.getLsbD_setWidth, BitVec.getLsbD_setWidth]
  generalize ((block >>> volume.AllocationGroupShift) <<<
    volume.AllocationGroupShift).getLsbD i = bit
  cases bit <;> simp

end

/-- A run of one block inside a group of the volume. -/
structure OneBlock (volume : MountedVolume) (run : block_run) : Prop where
  fits : -2 ^ 31 ≤ run.allocation_group
  group_lt : run.allocation_group < volume.AllocationGroups
  start_lt : run.start < 2 ^ volume.AllocationGroupShift
  length_eq : run.length = 1

/-- What `ToBlockRun()` makes of the number of a run of one block. -/
theorem ToBlockRun_ToBlock {run : block_run} (hvalid : volume.IsValidSuperBlock)
    (h : volume.fSuperBlock.ag_shift.toInt ≤ 16) (hrun : volume.OneBlock run) :
    volume.ToBlockRun (volume.ToBlock run) = { run with
        start :=
          (run.allocation_group * (2 ^ volume.AllocationGroupShift : Nat) % 65536).toNat } := by
  obtain ⟨hle, -, -, hgroups, -⟩ := IsValidSuperBlock.bounds hvalid h
  obtain ⟨hpos, hbound, -⟩ := two_pow_facts hle
  obtain ⟨hfits, hgroup, hstart, hlength⟩ := hrun
  have hlow := Int.mul_le_mul_of_nonneg_right hfits
    (Int.natCast_nonneg (2 ^ volume.AllocationGroupShift))
  have hhigh := Int.mul_le_mul_of_nonneg_right (Int.le_of_lt (Int.lt_trans hgroup
    (Int.ofNat_lt.2 hgroups))) (Int.natCast_nonneg (2 ^ volume.AllocationGroupShift))
  have hdvd : ((2 ^ volume.AllocationGroupShift : Nat) : Int) ∣ (2 ^ 64 : Nat) :=
    Int.natCast_dvd_natCast.2 (Nat.pow_dvd_pow 2 (by omega))
  have hblock := ToBlock_eq hle hstart
  rw [block_run.mk.injEq]
  refine ⟨?_, ?_, hlength.symm⟩
  · have hshifted : (volume.ToBlock run).sshiftRight volume.AllocationGroupShift =
        BitVec.ofInt 64 run.allocation_group := by
      refine BitVec.eq_of_toInt_eq ?_
      rw [BitVec.toInt_sshiftRight, hblock, BitVec.toInt_ofInt_eq_self (by decide) (by omega)
        (by omega), BitVec.toInt_ofInt_eq_self (by decide) (by omega) (by omega),
        Int.shiftRight_eq_div_pow, Int.add_comm, Int.add_mul_ediv_right _ _ (by omega),
        Int.ediv_eq_zero_of_lt (by omega) (by omega), Int.zero_add]
    have hcut : (BitVec.ofInt 64 run.allocation_group).setWidth 32 =
        BitVec.ofInt 32 run.allocation_group := by
      refine BitVec.eq_of_toNat_eq ?_
      rw [BitVec.toNat_setWidth, BitVec.toNat_ofInt, BitVec.toNat_ofInt]
      omega
    show (((volume.ToBlock run).sshiftRight volume.AllocationGroupShift).setWidth 32).toInt = _
    rw [hshifted, hcut, BitVec.toInt_ofInt_eq_self (by decide) (by omega) (by omega)]
  · have hsplit := Nat.div_add_mod (volume.ToBlock run).toNat (2 ^ volume.AllocationGroupShift)
    have hmod : (volume.ToBlock run).toNat % 2 ^ volume.AllocationGroupShift = run.start := by
      rw [← Int.ofNat_inj, Int.natCast_emod, hblock, BitVec.toNat_ofInt,
        Int.toNat_of_nonneg (by omega), Int.emod_emod_of_dvd _ hdvd,
        Int.mul_comm, Int.mul_add_emod_self_left, Int.emod_eq_of_lt (by omega) (by omega)]
    have hnat : ((volume.ToBlock run).toNat : Int) = _ :=
      (congrArg (fun block => (BitVec.toNat block : Int)) hblock)
    rw [ToBlockRun_start _ hle, Nat.mul_comm]
    rw [BitVec.toNat_ofInt] at hnat
    omega

/-! ## The claims of the two addresses -/

/-- All blocks of the run are in a group that the volume has. -/
def InGroup (volume : MountedVolume) (run : block_run) : Prop :=
  (0 ≤ run.allocation_group ∧ run.allocation_group < volume.AllocationGroups) ∧
    ∀ i, run.Contains run.allocation_group i → i < 2 ^ volume.AllocationGroupShift

/-- Numbers and runs of one block are the same addresses, and an accepted run is inside a group. -/
def AddressesAgree (volume : MountedVolume) : Prop :=
  (∀ block, volume.OnVolume block → volume.ToBlock (volume.ToBlockRun block) = block ∧
      (volume.IsValidBlockRun (volume.ToBlockRun block)).1 = .B_OK) ∧
    (∀ run, volume.OneBlock run → volume.ToBlockRun (volume.ToBlock run) = run) ∧
    ∀ run, (volume.IsValidBlockRun run).1 = .B_OK → volume.InGroup run

theorem IsValidBlockRun_iff (h : volume.AllocationGroupShift ≤ 16) (run : block_run) :
    (volume.IsValidBlockRun run).1 = .B_OK ↔
      (0 ≤ run.allocation_group ∧ run.allocation_group ≤ volume.AllocationGroups) ∧
        0 < run.length ∧ run.start + run.length ≤ 2 ^ volume.AllocationGroupShift := by
  unfold IsValidBlockRun
  rw [toInt_one_shift h (by decide)]
  split
  · rename_i hinvalid
    simp only [reduceCtorEq, false_iff]
    omega
  · rename_i hvalid
    simp only [true_iff]
    omega

theorem start_lt_iff {k d e : Nat} (hd : 0 < d) (hde : d * e = 65536) :
    k * d % 65536 < d ↔ e ∣ k := by
  rw [← hde, Nat.mul_comm k d, Nat.mul_mod_mul_left, Nat.dvd_iff_mod_eq_zero]
  constructor
  · intro hlt
    exact Nat.lt_one_iff.1 (Nat.lt_of_mul_lt_mul_left (hlt.trans_eq (Nat.mul_one d).symm))
  · intro hzero
    rwa [hzero, Nat.mul_zero]

/-- A number is the address of its run for the first block of a group, the run of a number is
accepted where the start is cut to zero, and an accepted run may be in the group behind the last. -/
theorem addresses_agree_iff (volume : MountedVolume) (hvalid : volume.IsValidSuperBlock)
    (h : volume.fSuperBlock.ag_shift.toInt ≤ 16) :
    (∀ block, volume.OnVolume block → (volume.ToBlock (volume.ToBlockRun block) = block ↔
        2 ^ volume.AllocationGroupShift ∣ block.toNat) ∧
      ((volume.IsValidBlockRun (volume.ToBlockRun block)).1 = .B_OK ↔
        2 ^ (16 - volume.AllocationGroupShift) ∣
          block.toNat / 2 ^ volume.AllocationGroupShift)) ∧
    (∀ run, volume.OneBlock run → (volume.ToBlockRun (volume.ToBlock run) = run ↔ run.start = 0 ∧
          ((2 ^ (16 - volume.AllocationGroupShift) : Nat) : Int) ∣ run.allocation_group)) ∧
    ∀ run, (volume.IsValidBlockRun run).1 = .B_OK →
      (volume.InGroup run ↔ run.allocation_group ≠ volume.AllocationGroups) := by
  obtain ⟨hle, -, -, hgroups, -⟩ := IsValidSuperBlock.bounds hvalid h
  obtain ⟨hpos, hbound, hde⟩ := two_pow_facts hle
  refine ⟨fun block hblock => ⟨?_, ?_⟩, fun run hrun => ?_, fun run hrun => ?_⟩
  · have hlt := block.isLt
    have hround := Nat.div_mul_le_self block.toNat (2 ^ volume.AllocationGroupShift)
    rw [ToBlock_ToBlockRun hvalid h hblock, ← BitVec.toNat_inj, BitVec.toNat_shiftLeft,
      BitVec.toNat_ushiftRight, Nat.shiftRight_eq_div_pow, Nat.shiftLeft_eq,
      Nat.mod_eq_of_lt (by omega)]
    constructor
    · intro heq
      exact ⟨_, (heq.symm.trans (Nat.mul_comm _ _))⟩
    · exact Nat.div_mul_cancel
  · have hgroup := OnVolume.group_lt hvalid h hblock
    rw [IsValidBlockRun_iff hle, ToBlockRun_start block hle,
      ToBlockRun_group (by omega) hblock.1, ← start_lt_iff hpos hde]
    generalize block.toNat / 2 ^ volume.AllocationGroupShift = group at hgroup ⊢
    show _ ∧ 0 < 1 ∧ _ + 1 ≤ _ ↔ _
    omega
  · have hstart := hrun.start_lt
    have hlt : ∀ g : Int, (g * (2 ^ volume.AllocationGroupShift : Nat) % 65536).toNat = run.start ↔
        run.start = 0 ∧ ((2 ^ (16 - volume.AllocationGroupShift) : Nat) : Int) ∣ g := by
      intro g
      rw [show (65536 : Int) = ((2 ^ volume.AllocationGroupShift : Nat) : Int) *
          (2 ^ (16 - volume.AllocationGroupShift) : Nat) from by rw [← Int.natCast_mul, hde]; rfl,
        Int.mul_comm g, Int.mul_emod_mul_of_pos _ _ (by omega), Int.dvd_iff_emod_eq_zero]
      have hmod := Int.emod_nonneg g (b := (2 ^ (16 - volume.AllocationGroupShift) : Nat)) (by
        have := Nat.two_pow_pos (16 - volume.AllocationGroupShift)
        omega)
      generalize g % (2 ^ (16 - volume.AllocationGroupShift) : Nat) = m at hmod ⊢
      obtain ⟨m, rfl⟩ := Int.eq_ofNat_of_zero_le hmod
      rw [← Int.natCast_mul, Int.toNat_natCast]
      constructor
      · intro heq
        have hzero : m = 0 := Nat.lt_one_iff.1
          (Nat.lt_of_mul_lt_mul_left ((heq.trans_lt hstart).trans_eq (Nat.mul_one _).symm))
        rw [hzero, Nat.mul_zero] at heq
        exact ⟨heq.symm, congrArg _ hzero⟩
      · rintro ⟨hzero, hm⟩
        rw [Int.natCast_eq_zero.1 hm, hzero, Nat.mul_zero]
    rw [ToBlockRun_ToBlock hvalid h hrun, ← hlt]
    constructor
    · intro heq
      exact congrArg block_run.start heq
    · intro heq
      rw [heq]
  · obtain ⟨hgroup, hlength, hfits⟩ := (IsValidBlockRun_iff hle run).1 hrun
    constructor
    · intro hin
      exact ne_of_lt hin.1.2
    · intro hne
      refine ⟨⟨hgroup.1, by omega⟩, fun i hi => ?_⟩
      have := hi.2.2
      omega

/-- A volume of 5000 blocks, in three groups of 2048. -/
def smallVolume : MountedVolume where
  fSuperBlock :=
    { magic1 := SUPER_BLOCK_MAGIC1
      fs_byte_order := SUPER_BLOCK_FS_LENDIAN
      block_size := 1024
      block_shift := 10
      num_blocks := 5000
      inode_size := 1024
      magic2 := SUPER_BLOCK_MAGIC2
      blocks_per_ag := 1
      ag_shift := 11
      num_ags := 3
      magic3 := SUPER_BLOCK_MAGIC3 }
  fFlags := 0

theorem addresses_agree_iff_small : smallVolume.ToBlock (smallVolume.ToBlockRun 4096) = 4096 ∧
      smallVolume.ToBlock (smallVolume.ToBlockRun 4097) ≠ 4097 := by
  have hagree := addresses_agree_iff smallVolume (by decide +kernel) (by decide)
  refine ⟨((hagree.1 4096 (by decide)).1).2 (by decide), fun heq => ?_⟩
  exact absurd (((hagree.1 4097 (by decide)).1).1 heq) (by decide)

/-- The root of the indices in the block 4097 would be noted as the run of the block 4096. -/
theorem addresses_disagree :
    (smallVolume.IsValidSuperBlock ∧ smallVolume.fSuperBlock.ag_shift.toInt ≤ 16) ∧
      smallVolume.ToBlockRun 4097 = ⟨2, 4096, 1⟩ ∧
      (smallVolume.IsValidBlockRun ⟨3, 0, 1⟩).1 = .B_OK ∧ ¬ smallVolume.AddressesAgree := by
  refine ⟨by decide +kernel, by decide +kernel, by decide +kernel, fun hagree => ?_⟩
  exact absurd (hagree.1 4097 (by decide)).1 (by decide +kernel)

end MountedVolume

end BFS
