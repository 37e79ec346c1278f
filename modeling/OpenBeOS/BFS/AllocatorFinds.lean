import OpenBeOS.BFS.AllocateBlocks

/-! # What the search of `AllocateBlocks()` overlooks

`searchBits_finds` says when the scan of a bitmap block finds a range, `searchGroups_notFound`
when the two passes over the groups find none. When the wanted maximum is the minimum there is
no second pass, and in the first group nobody looks at the blocks before `start`.
-/

namespace BFS

open Bitmap Nat

/-! ## The scan of a bitmap block -/

/-- `n` unused bits in a row between `bit` and `stop`. -/
def UnusedRun (used : Nat → Bool) (bit stop n : Nat) : Prop :=
  ∃ s, bit ≤ s ∧ s + n ≤ stop ∧ ∀ i, s ≤ i → i < s + n → used (toUint16 i) = false

variable {used : Nat → Bool}

theorem UnusedRun.mono {bit bit' stop n n' : Nat}
    (h : UnusedRun used bit stop n) (hbit : bit' ≤ bit) (hn : n' ≤ n) :
    UnusedRun used bit' stop n' := by
  obtain ⟨s, hs, hstop, hfree⟩ := h
  exact ⟨s, by omega, by omega, fun i h1 h2 => hfree i h1 (by omega)⟩

/-- The range is the unused bits just before `bit`, none of them before `first`. -/
structure Range.Trails (used : Nat → Bool) (first bit : Nat) (r : Range) : Prop where
  inside : first + r.range ≤ bit
  unused : ∀ i, bit - r.range ≤ i → i < bit → used (toUint16 i) = false

theorem Range.Trails.extend {first bit numBits block : Nat} {r : Range}
    (h : r.Trails used first bit) (hbit : used (toUint16 bit) = false) :
    (r.extend numBits block bit).Trails used first (bit + 1) := by
  have hrange := r.extend_range numBits block bit
  have hinside := h.inside
  refine ⟨by omega, fun i h1 h2 => ?_⟩
  by_cases hi : i = bit
  · rw [hi, hbit]
  · exact h.unused i (by omega) (by omega)

theorem Range.Trails.reset {first bit : Nat} {r : Range}
    (h : r.Trails used first bit) : Range.Trails used first (bit + 1) { r with range := 0 } :=
  ⟨by have := h.inside; simp only; omega, fun i h1 h2 => by simp only at h1; omega⟩

section Scan

variable {used : Nat → Bool} {numBits block maximum minimum first : Nat} {secondPass : Bool}

/-- What the scan collects are unused bits. -/
theorem searchBits_unused (fuel : Nat) : ∀ (bit : Nat) (r : Range), r.Trails used first bit →
    UnusedRun used first (bit + fuel)
      (searchBits used numBits block maximum minimum secondPass fuel bit r).range := by
  induction fuel with
  | zero =>
    intro bit r h
    have hinside := h.inside
    refine ⟨bit - r.range, by omega, ?_, fun i h1 h2 => h.unused i h1 ?_⟩
    · simp only [searchBits]
      omega
    · simp only [searchBits] at h2
      omega
  | succ fuel ih =>
    intro bit r h
    have hstop : bit + (fuel + 1) = bit + 1 + fuel := by omega
    have hweaken : ∀ {n : Nat}, UnusedRun used first bit n →
        UnusedRun used first (bit + (fuel + 1)) n :=
      fun h => h.imp fun s hs => ⟨hs.1, by omega, hs.2.2⟩
    have hnow : ∀ {bit : Nat} {r : Range}, r.Trails used first bit →
        UnusedRun used first bit r.range := by
      intro bit r h
      have hinside := h.inside
      exact ⟨bit - r.range, by omega, by omega, fun i h1 h2 => h.unused i h1 (by omega)⟩
    simp only [searchBits]
    split
    · rename_i hbit
      have hext : (r.extend numBits block bit).Trails used first (bit + 1) := h.extend hbit
      split
      · obtain ⟨s, hs, hend, hfree⟩ := hnow hext
        exact ⟨s, hs, by omega, hfree⟩
      · rw [hstop]
        exact ih _ _ hext
    · split
      · exact hweaken (hnow h)
      · rw [hstop]
        exact ih _ _ h.reset

/-- A range that the pass looks for is not missed: the scan has it already, or it is still to
come. -/
theorem searchBits_complete {n : Nat} (hn : 0 < n) (hmax : n ≤ maximum)
    (hpass : (secondPass = false ∧ n = maximum) ∨ (secondPass = true ∧ n = minimum))
    (fuel : Nat) : ∀ (bit : Nat) (r : Range), r.range < maximum →
      (n ≤ r.range ∨ ∃ s, bit ≤ s + r.range ∧ bit < s + n ∧ s + n ≤ bit + fuel ∧
        ∀ i, s ≤ i → i < s + n → used (toUint16 i) = false) →
      n ≤ (searchBits used numBits block maximum minimum secondPass fuel bit r).range := by
  induction fuel with
  | zero =>
    intro bit r _ h
    obtain h | ⟨s, -, hlt, hend, -⟩ := h
    · exact h
    · omega
  | succ fuel ih =>
    intro bit r hr h
    have hext := r.extend_range numBits block bit
    simp only [searchBits]
    split
    · split
      · omega
      · refine ih _ _ (by omega) ?_
        obtain h | ⟨s, hs, hlt, hend, hfree⟩ := h
        · exact .inl (by omega)
        · by_cases hlast : s + n = bit + 1
          · exact .inl (by omega)
          · exact .inr ⟨s, by omega, by omega, by omega, hfree⟩
    · rename_i hbit
      split
      · rename_i hstop
        obtain ⟨hfirst, -⟩ | ⟨-, rfl⟩ := hpass
        · exact absurd hstop.1 (by simp [hfirst])
        · exact hstop.2
      · rename_i hgo
        refine ih _ _ (by simp only; omega) (.inr ?_)
        obtain h | ⟨s, hs, hlt, hend, hfree⟩ := h
        · -- a range of this size would have ended the scan
          obtain ⟨-, rfl⟩ | ⟨hsecond, rfl⟩ := hpass
          · omega
          · exact absurd ⟨hsecond, h⟩ hgo
        · have hbehind : bit < s := by
            by_contra hle
            exact hbit (hfree bit (by omega) hlt)
          exact ⟨s, by simp only; omega, by omega, by omega, hfree⟩

theorem searchBits_finds {n fuel bit : Nat} (hn : 0 < n) (hmax : n ≤ maximum)
    (hpass : (secondPass = false ∧ n = maximum) ∨ (secondPass = true ∧ n = minimum)) :
    n ≤ (searchBits used numBits block maximum minimum secondPass fuel bit ⟨0, 0, 0⟩).range ↔
      UnusedRun used bit (bit + fuel) n := by
  have hnone : Range.Trails used bit bit ⟨0, 0, 0⟩ :=
    ⟨le_refl _, fun i h1 h2 => by simp only at h1; omega⟩
  constructor
  · intro h
    exact (searchBits_unused fuel bit _ hnone).mono (le_refl _) h
  · rintro ⟨s, hs, hend, hfree⟩
    exact searchBits_complete hn hmax hpass fuel bit _ (by simp only; omega)
      (.inr ⟨s, by simp only; omega, by omega, hend, hfree⟩)

end Scan

/-! ## The search of a group -/

/-- `n` free blocks in a row in a group, from its block `start` on. -/
def BlockAllocator.FreeRun (a : BlockAllocator) (group start n : Nat) : Prop :=
  ∃ s, start ≤ s ∧ s + n ≤ (a.fGroups group).fNumBits ∧
    ∀ i, s ≤ i → i < s + n → a.groupBit group i = false

/-- The same as the scan sees it: `IsUsed()` takes a `uint16`. -/
def BlockAllocator.SeenRun (a : BlockAllocator) (group start n : Nat) : Prop :=
  UnusedRun (a.groupBit group) start (a.fGroups group).fNumBits n

/-- Every group has one bitmap block. -/
structure BlockAllocator.OneBlockGroups (a : BlockAllocator) : Prop where
  geometry : a.ValidGeometry
  one_block : a.fBlocksPerGroup = 1

section Group

variable {dev : Device} {a : BlockAllocator} {group : Nat}

section

variable (h : a.OneBlockGroups) (hg : group < a.fNumGroups)
include h hg

theorem BlockAllocator.OneBlockGroups.numBits_le : (a.fGroups group).fNumBits ≤ a.blockBits := by
  have hle := h.geometry.numBits_le group hg
  rwa [h.one_block, one_mul] at hle

theorem BlockAllocator.OneBlockGroups.numBlockBits_eq (hpos : 0 < (a.fGroups group).fNumBits) :
    a.NumBlockBits group = (a.fGroups group).fNumBits := by
  unfold NumBlockBits
  rcases lt_or_eq_of_le (h.numBits_le hg) with hlt | heq
  · rw [mod_eq_of_lt hlt, if_pos (by omega)]
  · rw [heq, mod_self, if_neg (by simp)]

theorem BlockAllocator.OneBlockGroups.isUsed_eq {i : Nat} (hi : i < (a.fGroups group).fNumBits) :
    AllocationBlock.IsUsed (a.blocks (a.fGroups group).fStart) (a.fGroups group).fNumBits
      (toUint16 i) = a.groupBit group (toUint16 i) := by
  have hle := h.numBits_le hg
  have hmod : toUint16 i ≤ i := mod_le _ _
  rw [AllocationBlock.IsUsed, if_neg (by omega), groupBit, div_eq_of_lt (by omega),
    mod_eq_of_lt (by omega), add_zero]

/-- A group is searched in vain when its bitmap block could be read and shows no range. -/
theorem BlockAllocator.OneBlockGroups.searchBlocks_notFound {maximum minimum numBlocks start : Nat} {secondPass : Bool}
    (hstart : start < (a.fGroups group).fNumBits) (hpos : 0 < numBlocks)
    (hmax : numBlocks ≤ maximum)
    (hpass : (secondPass = false ∧ numBlocks = maximum) ∨
      (secondPass = true ∧ numBlocks = minimum)) :
    searchBlocks dev a group maximum minimum numBlocks secondPass
        (a.fBlocksPerGroup - start / a.blockBits) (start / a.blockBits) start ⟨0, 0, 0⟩ =
          .notFound ↔
      dev.read (a.fGroups group).fStart = true ∧ ¬a.SeenRun group start numBlocks := by
  have hle := h.numBits_le hg
  have hbits := h.numBlockBits_eq hg (by omega)
  have hscan := @searchBits_finds
    (AllocationBlock.IsUsed (a.blocks (a.fGroups group).fStart) (a.fGroups group).fNumBits)
    (a.fGroups group).fNumBits 0 maximum minimum secondPass numBlocks
    ((a.fGroups group).fNumBits - start) start hpos hmax hpass
  have hseen : UnusedRun (AllocationBlock.IsUsed (a.blocks (a.fGroups group).fStart)
      (a.fGroups group).fNumBits) start (a.fGroups group).fNumBits numBlocks ↔
      a.SeenRun group start numBlocks := by
    constructor
    · rintro ⟨s, hs, hend, hfree⟩
      refine ⟨s, hs, hend, fun i h1 h2 => ?_⟩
      rw [← h.isUsed_eq hg (by omega)]
      exact hfree i h1 h2
    · rintro ⟨s, hs, hend, hfree⟩
      refine ⟨s, hs, hend, fun i h1 h2 => ?_⟩
      rw [h.isUsed_eq hg (by omega)]
      exact hfree i h1 h2
  rw [show start + ((a.fGroups group).fNumBits - start) = (a.fGroups group).fNumBits by omega,
    hseen] at hscan
  rw [div_eq_of_lt (show start < a.blockBits by omega), h.one_block]
  simp only [searchBlocks, add_zero, hbits, mod_eq_of_lt hstart]
  split
  · rename_i hread
    simp [hread]
  · rename_i hread
    have hok : dev.read (a.fGroups group).fStart = true := by simpa using hread
    rw [← hscan]
    split
    · rename_i hfound
      simp only [reduceCtorEq, hok, true_and, false_iff, not_not]
      exact hfound
    · rename_i hfound
      simp only [hok, true_and, true_iff]
      exact hfound

end

/-! ## Where the search starts in a group -/

/-- `if (start >= fGroups[group].fNumBits || fGroups[group].IsFull()) continue;` -/
def BlockAllocator.Skips (a : BlockAllocator) (group start : Nat) : Prop :=
  start ≥ (a.fGroups group).fNumBits ∨ (a.fGroups group).IsFull

theorem BlockAllocator.GroupConsistent.firstFree_lt (h : a.GroupConsistent group)
    (hfull : (a.fGroups group).IsFull = false) :
    (a.fGroups group).fFirstFree < (a.fGroups group).fNumBits := by
  by_contra hge
  have hused : ∀ i, i < (a.fGroups group).fNumBits → ¬a.groupBit group i = false := by
    intro i hi
    rw [h.first_free i (by omega) hi]
    simp
  have hcount := count_iff_forall_not.2 hused
  have hfree := h.free_bits
  rw [hcount] at hfree
  simp [AllocationGroup.IsFull, hfree] at hfull

theorem BlockAllocator.GroupConsistent.not_seenRun_of_full (h : a.GroupConsistent group)
    (hfull : (a.fGroups group).IsFull = true) {start n : Nat} (hn : 0 < n) :
    ¬a.SeenRun group start n := by
  rintro ⟨s, -, hend, hfree⟩
  have hzero : (a.fGroups group).fFreeBits = 0 := by simpa [AllocationGroup.IsFull] using hfull
  have hcount : Nat.count (fun i => a.groupBit group i = false) (a.fGroups group).fNumBits = 0 := by
    have hbits := h.free_bits
    omega
  have hlt : toUint16 s < (a.fGroups group).fNumBits := by
    have hle : toUint16 s ≤ s := mod_le _ _
    omega
  exact count_iff_forall_not.1 hcount _ hlt (hfree s (le_refl _) (by omega))

/-- The search may start at the first free block: before it the scan sees nothing. -/
theorem BlockAllocator.GroupConsistent.seenRun_start (h : a.GroupConsistent group) {start n : Nat}
    (hn : 0 < n) :
    a.SeenRun group
        (if (start : Int) < (a.fGroups group).fFirstFree then
          toUint16 (a.fGroups group).fFirstFree.toNat else start) n ↔
      a.SeenRun group start n := by
  split
  · rename_i hlt
    -- the bit the scan looks at lies at or before the block it stands for
    have hseen : ∀ s, s < (a.fGroups group).fNumBits → a.groupBit group (toUint16 s) = false →
        (a.fGroups group).fFirstFree ≤ toUint16 s := by
      intro s hs hfree
      have hle : toUint16 s ≤ s := mod_le _ _
      by_contra hbelow
      rw [h.first_free _ (by omega) (by omega)] at hfree
      cases hfree
    constructor
    · rintro ⟨s, hs, hend, hfree⟩
      have hfirst := hseen s (by omega) (hfree s (le_refl _) (by omega))
      have hle : toUint16 s ≤ s := mod_le _ _
      exact ⟨s, by omega, hend, hfree⟩
    · rintro ⟨s, hs, hend, hfree⟩
      have hfirst := hseen s (by omega) (hfree s (le_refl _) (by omega))
      have hle : toUint16 s ≤ s := mod_le _ _
      have hcut : toUint16 (a.fGroups group).fFirstFree.toNat ≤ (a.fGroups group).fFirstFree.toNat :=
        mod_le _ _
      exact ⟨s, by omega, hend, hfree⟩
  · exact Iff.rfl

end Group

/-! ## The two passes -/

/-- The blocks a pass looks for in a group. -/
def BlockAllocator.passSize (a : BlockAllocator) (maximum minimum i : Nat) : Nat :=
  if i ≥ a.fNumGroups then minimum else maximum

/-- The pass goes on behind this group: it is skipped, or its bitmap block shows no range. -/
def BlockAllocator.GoesOn (dev : Device) (a : BlockAllocator) (numBlocks group start : Nat) :
    Prop :=
  a.Skips group start ∨
    (dev.read (a.fGroups group).fStart = true ∧ ¬a.SeenRun group start numBlocks)

section Passes

variable {dev : Device} {a : BlockAllocator} {maximum minimum : Nat}

/-- One group: unless it is skipped, or there is no second pass, it is searched from `start`. -/
theorem searchGroups_step (h : a.OneBlockGroups)
    (hgroups : ∀ g, g < a.fNumGroups → a.GroupConsistent g) (hmin : 1 ≤ minimum)
    (hle : minimum ≤ maximum) (fuel i group start : Nat) :
    searchGroups dev a maximum minimum (fuel + 1) i group start = .notFound ↔
      (¬a.Skips (group % a.fNumGroups) start ∧ i ≥ a.fNumGroups ∧ maximum = minimum) ∨
      a.GoesOn dev (a.passSize maximum minimum i) (group % a.fNumGroups) start ∧
        searchGroups dev a maximum minimum fuel (i + 1) (group % a.fNumGroups + 1) 0 =
          .notFound := by
  have hg : group % a.fNumGroups < a.fNumGroups := mod_lt _ h.geometry.groups_pos
  generalize hgroup : group % a.fNumGroups = g at hg
  have hcons := hgroups g hg
  simp only [searchGroups, hgroup]
  by_cases hskip : start ≥ (a.fGroups g).fNumBits ∨ (a.fGroups g).IsFull = true
  · rw [if_pos hskip]
    exact ⟨fun hrest => .inr ⟨.inl hskip, hrest⟩,
      fun hor => hor.elim (fun hno => absurd hskip hno.1) And.right⟩
  · rw [if_neg hskip]
    by_cases hsecond : i ≥ a.fNumGroups ∧ maximum = minimum
    · rw [if_pos hsecond]
      exact ⟨fun _ => .inl ⟨hskip, hsecond⟩, fun _ => rfl⟩
    · rw [if_neg hsecond]
      obtain ⟨hstart, hfull⟩ := not_or.1 hskip
      have hfirst := hcons.firstFree_lt (by simpa using hfull)
      have hscan : (if (start : Int) < (a.fGroups g).fFirstFree then
          toUint16 (a.fGroups g).fFirstFree.toNat else start) < (a.fGroups g).fNumBits := by
        have hcut : toUint16 (a.fGroups g).fFirstFree.toNat ≤ (a.fGroups g).fFirstFree.toNat :=
          mod_le _ _
        split <;> omega
      have hsize : 0 < a.passSize maximum minimum i ∧ a.passSize maximum minimum i ≤ maximum := by
        unfold BlockAllocator.passSize
        split <;> omega
      have hpass : (decide (i ≥ a.fNumGroups) = false ∧ a.passSize maximum minimum i = maximum) ∨
          (decide (i ≥ a.fNumGroups) = true ∧ a.passSize maximum minimum i = minimum) := by
        unfold BlockAllocator.passSize
        by_cases hi : i ≥ a.fNumGroups
        · exact .inr ⟨by simpa using hi, if_pos hi⟩
        · exact .inl ⟨by simpa using hi, if_neg hi⟩
      have hsearch := @BlockAllocator.OneBlockGroups.searchBlocks_notFound dev a g h hg maximum
        minimum _ _ _ hscan hsize.1 hsize.2 hpass
      rw [hcons.seenRun_start hsize.1] at hsearch
      have hpassSize : (if i ≥ a.fNumGroups then minimum else maximum) =
          a.passSize maximum minimum i := rfl
      rw [hpassSize]
      generalize searchBlocks _ _ _ _ _ _ _ _ _ _ _ = result at hsearch
      constructor
      · intro hnone
        cases result with
        | notFound => exact .inr ⟨.inr (hsearch.1 rfl), hnone⟩
        | error | found g' b' n' r' => cases hnone
      · rintro (hno | ⟨hgo, hrest⟩)
        · exact absurd hno.2 hsecond
        · obtain hno | hvain := hgo
          · exact absurd hno hskip
          · rw [hsearch.2 hvain]
            exact hrest

/-- Nothing is found exactly when every group of each pass is passed over. -/
theorem searchGroups_notFound (h : a.OneBlockGroups)
    (hgroups : ∀ g, g < a.fNumGroups → a.GroupConsistent g) (hmin : 1 ≤ minimum)
    (hle : minimum ≤ maximum) (fuel : Nat) : ∀ i group start : Nat,
    searchGroups dev a maximum minimum fuel i group start = .notFound ↔
      ∀ k, k < fuel → ¬(i + k ≥ a.fNumGroups ∧ maximum = minimum) →
        a.GoesOn dev (a.passSize maximum minimum (i + k)) ((group + k) % a.fNumGroups)
          (if k = 0 then start else 0) := by
  induction fuel with
  | zero =>
    intro i group start
    simp [searchGroups]
  | succ fuel ih =>
    intro i group start
    have hnext : ∀ k, (group % a.fNumGroups + 1 + k) % a.fNumGroups =
        (group + (k + 1)) % a.fNumGroups := by
      intro k
      rw [add_assoc, mod_add_mod, add_comm 1 k]
    rw [searchGroups_step h hgroups hmin hle, ih]
    constructor
    · rintro (⟨-, hsecond⟩ | ⟨hfirst, hrest⟩) k hk hgo
      · exact absurd ⟨by omega, hsecond.2⟩ hgo
      · rcases k with _ | k
        · exact hfirst
        · have := hrest k (by omega)
          rw [hnext, show i + 1 + k = i + (k + 1) by omega] at this
          simpa using this hgo
    · intro hall
      by_cases hsecond : i ≥ a.fNumGroups ∧ maximum = minimum
      · by_cases hskip : a.Skips (group % a.fNumGroups) start
        · refine .inr ⟨.inl hskip, fun k _ hgo => absurd ⟨by omega, hsecond.2⟩ hgo⟩
        · exact .inl ⟨hskip, hsecond⟩
      · refine .inr ⟨by simpa using hall 0 (by omega) hsecond, fun k hk hgo => ?_⟩
        have := hall (k + 1) (by omega) (by rwa [show i + (k + 1) = i + 1 + k by omega])
        rw [hnext, show i + 1 + k = i + (k + 1) by omega]
        simpa using this

/-! ## When the call finds space -/

/-- From where the last pass that looks at a group looks at its blocks: where the wanted maximum
is the minimum, there is only one pass, and it starts in the middle of the first group. -/
def BlockAllocator.lookedFrom (a : BlockAllocator) (maximum minimum first start group : Nat) :
    Nat :=
  if maximum = minimum ∧ group = first % a.fNumGroups then start else 0

/-- The search comes to an end in some group: its bitmap block shows a range where the last pass
looks at it, or cannot be read. -/
def BlockAllocator.LooksAtSpace (dev : Device) (a : BlockAllocator)
    (first start maximum minimum : Nat) : Prop :=
  ∃ g, g < a.fNumGroups ∧ (a.SeenRun g (a.lookedFrom maximum minimum first start g) minimum ∨
      (¬a.Skips g (a.lookedFrom maximum minimum first start g) ∧
        dev.read (a.fGroups g).fStart = false))

theorem BlockAllocator.GoesOn.iff_not {numBlocks g start : Nat} (hcons : a.GroupConsistent g)
    (hn : 0 < numBlocks) :
    a.GoesOn dev numBlocks g start ↔ ¬(a.SeenRun g start numBlocks ∨
        (¬a.Skips g start ∧ dev.read (a.fGroups g).fStart = false)) := by
  have hseen : a.SeenRun g start numBlocks → ¬a.Skips g start := by
    rintro hrun (hstart | hfull)
    · obtain ⟨s, hs, hend, -⟩ := hrun
      omega
    · exact hcons.not_seenRun_of_full hfull hn hrun
  unfold BlockAllocator.GoesOn
  cases dev.read (a.fGroups g).fStart <;> simp <;> tauto

theorem BlockAllocator.GoesOn.mono {numBlocks numBlocks' g start start' : Nat}
    (h : a.GoesOn dev numBlocks g start) (hstart : start ≤ start') (hn : numBlocks ≤ numBlocks') :
    a.GoesOn dev numBlocks' g start' := by
  obtain (hskip | hfull) | ⟨hread, hseen⟩ := h
  · exact .inl (.inl (le_trans hskip hstart))
  · exact .inl (.inr hfull)
  · exact .inr ⟨hread, fun hrun => hseen (UnusedRun.mono hrun hstart hn)⟩

theorem exists_step {n : Nat} (first : Nat) {g : Nat} (hg : g < n) :
    ∃ k, k < n ∧ (first + k) % n = g := by
  have hfirst : first % n < n := mod_lt _ (by omega)
  refine ⟨(g + n - first % n) % n, mod_lt _ (by omega), ?_⟩
  have hsum : first + (g + n - first % n) = g + n * (first / n + 1) := by
    have hdiv := div_add_mod first n
    rw [mul_succ]
    omega
  rw [add_mod_mod, hsum, add_mul_mod_self_left, mod_eq_of_lt hg]

theorem step_eq_zero_iff {n first k : Nat} (hk : k < n) : (first + k) % n = first % n ↔ k = 0 := by
  constructor
  · intro h
    have hzero : Nat.ModEq n k 0 := Nat.ModEq.add_left_cancel' first h
    rwa [Nat.ModEq, mod_eq_of_lt hk, zero_mod] at hzero
  · rintro rfl
    rfl

/-- The search ends without a result exactly when no group brings it to an end. -/
theorem searchGroups_notFound_iff (h : a.OneBlockGroups)
    (hgroups : ∀ g, g < a.fNumGroups → a.GroupConsistent g) (hmin : 1 ≤ minimum)
    (hle : minimum ≤ maximum) (first start : Nat) :
    searchGroups dev a maximum minimum (a.fNumGroups * 2) 0 first start = .notFound ↔
      ¬a.LooksAtSpace dev first start maximum minimum := by
  have hpos := h.geometry.groups_pos
  have hlooks : ¬a.LooksAtSpace dev first start maximum minimum ↔ ∀ g, g < a.fNumGroups →
      a.GoesOn dev minimum g (a.lookedFrom maximum minimum first start g) := by
    constructor
    · intro hno g hg
      exact (BlockAllocator.GoesOn.iff_not (hgroups g hg) hmin).2 fun hend => hno ⟨g, hg, hend⟩
    · rintro hall ⟨g, hg, hend⟩
      exact (BlockAllocator.GoesOn.iff_not (hgroups g hg) hmin).1 (hall g hg) hend
  rw [hlooks, searchGroups_notFound h hgroups hmin hle]
  simp only [zero_add]
  unfold BlockAllocator.lookedFrom BlockAllocator.passSize
  by_cases hone : maximum = minimum
  · -- one pass: each group once, the first one from `start` on
    subst hone
    constructor
    · intro hall g hg
      obtain ⟨k, hk, rfl⟩ := exists_step first hg
      have hgo := hall k (by omega) (by omega)
      simpa only [ite_self, true_and, step_eq_zero_iff hk] using hgo
    · intro hall k hk hgo
      have hgroup := hall ((first + k) % a.fNumGroups) (mod_lt _ hpos)
      simpa only [ite_self, true_and, step_eq_zero_iff (show k < a.fNumGroups by omega)]
        using hgroup
  · -- the second pass decides: it looks for less, and at all blocks
    constructor
    · intro hall g hg
      obtain ⟨k, hk, rfl⟩ := exists_step first hg
      have hgo := hall (a.fNumGroups + k) (by omega) (fun hno => hone hno.2)
      rw [if_pos (by omega), if_neg (by omega), ← add_assoc, add_right_comm, add_mod_right] at hgo
      rwa [if_neg fun hno => hone hno.1]
    · intro hall k hk _
      have hgroup := hall ((first + k) % a.fNumGroups) (mod_lt _ hpos)
      rw [if_neg fun hno => hone hno.1] at hgroup
      exact hgroup.mono (zero_le _) (by split <;> omega)

end Passes

/-- **The call finds space whenever there is some exactly when the search looks at it.** It
answers `B_DEVICE_FULL` only for want of `minimum` free blocks in a row, unless they lie before
`start` in the first group and there is no second pass. -/
theorem allocateBlocks_full_iff (dev : Device) (a : BlockAllocator)
    (group start maximum minimum : Nat) (run : block_run) (h : a.OneBlockGroups)
    (hgroups : ∀ g, g < a.fNumGroups → a.GroupConsistent g) (hmin : 1 ≤ minimum)
    (hle : minimum ≤ maximum) :
    ((a.AllocateBlocks dev group start maximum minimum run).1 = .B_DEVICE_FULL →
        ∀ g, g < a.fNumGroups → ¬a.FreeRun g 0 minimum) ↔
      (∀ g, g < a.fNumGroups → ¬a.FreeRun g 0 minimum) ∨
        a.LooksAtSpace dev group start maximum minimum := by
  have hfull : (a.AllocateBlocks dev group start maximum minimum run).1 = .B_DEVICE_FULL ↔
      ¬a.LooksAtSpace dev group start maximum minimum := by
    rw [← searchGroups_notFound_iff h hgroups hmin hle, BlockAllocator.AllocateBlocks]
    cases searchGroups dev a maximum minimum (a.fNumGroups * 2) 0 group start with
    | notFound | error => simp
    | found g block numBlocks r =>
      simp only [reduceCtorEq, iff_false]
      unfold BlockAllocator.allocateRange BlockAllocator.finishAllocation
      simp only
      split_ifs <;> simp
  rw [hfull]
  tauto

/-- With a second pass nothing is overlooked in groups of at most 2¹⁶ blocks. -/
theorem looksAtSpace_of_lt (dev : Device) {a : BlockAllocator} {maximum minimum g : Nat}
    (hlt : minimum < maximum) (hg : g < a.fNumGroups) (hbits : (a.fGroups g).fNumBits ≤ 65536)
    (hfree : a.FreeRun g 0 minimum) (group start : Nat) :
    a.LooksAtSpace dev group start maximum minimum := by
  obtain ⟨s, -, hend, hunused⟩ := hfree
  refine ⟨g, hg, .inl ⟨s, ?_, hend, fun i h1 h2 => ?_⟩⟩
  · rw [BlockAllocator.lookedFrom, if_neg fun h => absurd h.1 (by omega)]
    exact Nat.zero_le s
  · rw [toUint16_of_lt (by omega)]
    exact hunused i h1 h2

/-- A volume of sixteen blocks; only block 10 is free. -/
def lastBlockVolume : BlockAllocator :=
  { BlockSize := 1024
    NumBlocks := 16
    Log := ⟨0, 3, 7⟩
    used_blocks := 15
    fNumGroups := 1
    fBlocksPerGroup := 1
    fGroups := fun _ =>
      { fNumBits := 16, fStart := 1, fFirstFree := 10, fLargest := 1, fLargestFirst := 10
        fFreeBits := 1 }
    blocks := fun b k => if b = 1 ∧ k = 0 then 0xfbff#32 else 0#32 }

theorem lastBlockVolume_oneBlock : lastBlockVolume.OneBlockGroups :=
  ⟨⟨⟨10, rfl⟩, by decide, by decide, fun _ _ => show 16 ≤ 1 * (1024 * 8) by decide⟩, rfl⟩

theorem lastBlockVolume_consistent (g : Nat) (hg : g < lastBlockVolume.fNumGroups) :
    lastBlockVolume.GroupConsistent g := by
  obtain rfl : g = 0 := lt_one_iff.1 hg
  refine ⟨by decide, ?_⟩
  have hused : ∀ i, i < 10 → lastBlockVolume.groupBit 0 i = true := by decide
  intro i hi _
  have hfirst : (i : Int) < 10 := hi
  exact hused i (by omega)

/-- From block 5 on the search finds block 10. -/
theorem allocateBlocks_full_iff_below :
    ((lastBlockVolume.AllocateBlocks soundDevice 0 5 1 1 ⟨0, 0, 0⟩).1 = .B_DEVICE_FULL →
        ∀ g, g < lastBlockVolume.fNumGroups → ¬lastBlockVolume.FreeRun g 0 1) ↔
      (∀ g, g < lastBlockVolume.fNumGroups → ¬lastBlockVolume.FreeRun g 0 1) ∨
        lastBlockVolume.LooksAtSpace soundDevice 0 5 1 1 :=
  allocateBlocks_full_iff soundDevice lastBlockVolume 0 5 1 1 ⟨0, 0, 0⟩ lastBlockVolume_oneBlock
    lastBlockVolume_consistent (le_refl _) (le_refl _)

/-- A request for one block that starts behind the only free block finds the volume full. -/
theorem allocateBlocks_overlooks_block :
    ¬∀ (dev : Device) (a : BlockAllocator) (group start maximum minimum : Nat) (run : block_run),
      a.OneBlockGroups → (∀ g, g < a.fNumGroups → a.GroupConsistent g) →
      1 ≤ minimum → minimum ≤ maximum →
      (a.AllocateBlocks dev group start maximum minimum run).1 = .B_DEVICE_FULL →
        ∀ g, g < a.fNumGroups → ¬a.FreeRun g 0 minimum := by
  intro h
  have hfull : (lastBlockVolume.AllocateBlocks soundDevice 0 12 1 1 ⟨0, 0, 0⟩).1 =
      .B_DEVICE_FULL := by rfl
  refine h soundDevice lastBlockVolume 0 12 1 1 ⟨0, 0, 0⟩ lastBlockVolume_oneBlock
    lastBlockVolume_consistent (le_refl _) (le_refl _) hfull 0 (by decide)
    ⟨10, by decide, by decide, fun i h1 h2 => ?_⟩
  obtain rfl : i = 10 := by omega
  decide

end BFS
