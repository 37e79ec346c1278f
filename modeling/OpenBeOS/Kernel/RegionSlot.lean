import OpenBeOS.Kernel.Region

/-! # The slots for regions

Both walks of the search in terms of the gaps between the regions, and from that the requests for
which it keeps the list in order (`map_backing_store_slot_iff`).
-/

namespace Kernel

open Intervals RegionAddr VmError List

/-! ## The walks -/

theorem searchStart_spec (stop : addr) :
    ∀ (rest passed : List vm_region), (∀ r ∈ passed, r.base < stop) →
      (searchStart stop passed rest).1.reverse ++ (searchStart stop passed rest).2 =
          passed.reverse ++ rest ∧
        (∀ r ∈ (searchStart stop passed rest).1, r.base < stop) ∧
        ∀ r, (searchStart stop passed rest).2.head? = some r → stop ≤ r.base
  | [], passed, hpassed => ⟨rfl, hpassed, nofun⟩
  | next_r :: rest, passed, hpassed => by
    unfold searchStart
    by_cases hstop : next_r.base ≥ stop
    · rw [if_pos hstop]
      refine ⟨rfl, hpassed, ?_⟩
      rintro r ⟨⟩
      exact hstop
    · rw [if_neg hstop]
      have hpassed' : ∀ r ∈ next_r :: passed, r.base < stop := by
        intro r hr
        rcases mem_cons.mp hr with rfl | hr
        · exact BitVec.not_le.mp hstop
        · exact hpassed r hr
      obtain ⟨hlist, hbefore, hhead⟩ := searchStart_spec stop rest (next_r :: passed) hpassed'
      exact ⟨by rw [hlist]; simp, hbefore, hhead⟩

theorem le_lo_of_head {stop : Nat} {rest : List vm_region}
    (hsorted : Sorted vm_region.lo vm_region.hi rest)
    (hhead : ∀ r, rest.head? = some r → stop ≤ r.lo) : ∀ r ∈ rest, stop ≤ r.lo := by
  cases rest with
  | nil => exact nofun
  | cons next_r rest =>
    intro r hr
    have hnext := hhead next_r rfl
    rcases mem_cons.mp hr with rfl | hr
    · exact hnext
    · have hle := (pairwise_cons.mp hsorted.2).1 r hr
      have hlt := hsorted.1 next_r (mem_cons_self ..)
      omega

theorem addr.toNat_pred {size : addr} (hsize : 0 < size.toNat) :
    (size - 1).toNat = size.toNat - 1 := by
  have hone : (1 : addr).toNat = 1 := rfl
  have hlt := size.isLt
  rw [BitVec.toNat_sub, hone]
  omega

theorem addr.ne_zero {size : addr} (hsize : 0 < size.toNat) : size ≠ 0 := by
  rintro rfl
  exact absurd hsize (Nat.lt_irrefl 0)

theorem vm_virtual_map.toNat_last {map : vm_virtual_map} (hmap : 0 < map.size.toNat)
    (hfits : map.top ≤ 2 ^ 32) : (map.base + (map.size - 1)).toNat = map.top - 1 := by
  unfold vm_virtual_map.top at *
  rw [BitVec.toNat_add, addr.toNat_pred hmap]
  omega

theorem vm_region.toNat_hi (r : vm_region) : (r.base + r.size).toNat = r.hi % 2 ^ 32 :=
  BitVec.toNat_add _ _

theorem noRoom_of_large {size top : Nat} (htop : top ≤ 2 ^ 32) :
    ∀ {rest : List vm_region} {next_r : vm_region},
      Sorted vm_region.lo vm_region.hi (next_r :: rest) → 2 ^ 32 < next_r.hi + size →
      NoRoom vm_region.lo vm_region.hi size top next_r.hi rest
  | [], next_r, _, hlarge => by
    show top < next_r.hi + size
    omega
  | r :: rest, next_r, hsorted, hlarge => by
    have hnext : next_r.hi ≤ r.lo := (pairwise_cons.mp hsorted.2).1 r (mem_cons_self ..)
    have hlo := hsorted.tail.1 r (mem_cons_self ..)
    have hlt : r.lo < 2 ^ 32 := r.base.isLt
    exact ⟨by omega, noRoom_of_large htop hsorted.tail (by omega)⟩

/-- The hole found is one, or the sum that found it wrapped, and then there is none; if no hole is
found, there is none and no sum wrapped. -/
theorem findHole_spec {map : vm_virtual_map} {size : addr} (hsize : 0 < size.toNat)
    (hmap : 0 < map.size.toNat) (hfits : map.top ≤ 2 ^ 32) :
    ∀ (rest : List vm_region) (last_r : vm_region) (passed : List vm_region),
      Sorted vm_region.lo vm_region.hi (last_r :: rest) →
      (∀ r ∈ last_r :: rest, r.hi ≤ map.top) →
      (findHole map size passed last_r rest).passed.reverse ++
          (findHole map size passed last_r rest).rest = passed.reverse ++ last_r :: rest ∧
        ((∃ x pre, (findHole map size passed last_r rest).base = some (x.base + x.size) ∧
            (findHole map size passed last_r rest).passed = x :: pre ∧
            x.hi + size.toNat ≤ map.top ∧
            ∀ y ∈ (findHole map size passed last_r rest).rest, x.hi + size.toNat ≤ y.lo) ∨
          NoRoom vm_region.lo vm_region.hi size.toNat map.top last_r.hi rest ∧
            ((findHole map size passed last_r rest).base ≠ none ∧
                (∃ r ∈ last_r :: rest, 2 ^ 32 < r.hi + size.toNat) ∨
              (findHole map size passed last_r rest).base = none ∧
                ∀ r ∈ last_r :: rest, r.hi + size.toNat ≤ 2 ^ 32))
  | [], last_r, passed, hsorted, htop => by
    have hlast := htop last_r (mem_cons_self ..)
    have hlt := hsorted.1 last_r (mem_cons_self ..)
    have hsum : (last_r.base + last_r.size + (size - 1)).toNat =
        (last_r.hi + (size.toNat - 1)) % 2 ^ 32 := by
      rw [BitVec.toNat_add, vm_region.toNat_hi, addr.toNat_pred hsize, Nat.mod_add_mod]
    unfold findHole
    split <;> rename_i hhole <;>
      rw [ge_iff_le, BitVec.le_def, map.toNat_last hmap hfits, hsum] at hhole
    · refine ⟨by simp, ?_⟩
      by_cases hwrap : 2 ^ 32 < last_r.hi + size.toNat
      · refine Or.inr ⟨?_, Or.inl ⟨nofun, last_r, mem_cons_self .., hwrap⟩⟩
        show map.top < last_r.hi + size.toNat
        omega
      · exact Or.inl ⟨last_r, passed, rfl, rfl, by omega, nofun⟩
    · refine ⟨by simp, Or.inr ⟨?_, Or.inr ⟨rfl, ?_⟩⟩⟩
      · show map.top < last_r.hi + size.toNat
        omega
      · intro r hr
        rw [mem_singleton.mp hr]
        omega
  | next_r :: rest, last_r, passed, hsorted, htop => by
    have hrest := hsorted.tail
    have htop' : ∀ r ∈ next_r :: rest, r.hi ≤ map.top := fun r hr => htop r (mem_cons_of_mem _ hr)
    have hnext : last_r.hi ≤ next_r.lo := (pairwise_cons.mp hsorted.2).1 next_r (mem_cons_self ..)
    have hlo := hrest.1 next_r (mem_cons_self ..)
    have hlt : next_r.base.toNat < 2 ^ 32 := next_r.base.isLt
    have hsum : (last_r.base + last_r.size + size).toNat = (last_r.hi + size.toNat) % 2 ^ 32 := by
      rw [BitVec.toNat_add, vm_region.toNat_hi, Nat.mod_add_mod]
    have hbase : next_r.lo = next_r.base.toNat := rfl
    unfold findHole
    split <;> rename_i hhole <;> rw [ge_iff_le, BitVec.le_def, hsum, ← hbase] at hhole
    · refine ⟨by simp, ?_⟩
      by_cases hwrap : 2 ^ 32 ≤ last_r.hi + size.toNat
      · -- the sum wrapped: nothing behind has room either
        refine Or.inr ⟨⟨by omega, ?_⟩, Or.inl ⟨nofun, next_r, by simp, by omega⟩⟩
        exact noRoom_of_large hfits hrest (by omega)
      · refine Or.inl ⟨last_r, passed, rfl, rfl, ?_, ?_⟩
        · have := htop' next_r (mem_cons_self ..)
          omega
        · apply le_lo_of_head hrest
          rintro r ⟨⟩
          omega
    · have hroom : next_r.lo < last_r.hi + size.toNat ∧ last_r.hi + size.toNat ≤ 2 ^ 32 := by
        omega
      obtain ⟨hlist, hspot⟩ := findHole_spec hsize hmap hfits rest next_r (last_r :: passed)
        hrest htop'
      refine ⟨by rw [hlist]; simp, ?_⟩
      rcases hspot with hproper | ⟨hnoroom, hwrapped | hnone⟩
      · exact Or.inl hproper
      · obtain ⟨hsome, r, hr, hwrap⟩ := hwrapped
        exact Or.inr ⟨⟨hroom.1, hnoroom⟩, Or.inl ⟨hsome, r, mem_cons_of_mem _ hr, hwrap⟩⟩
      · refine Or.inr ⟨⟨hroom.1, hnoroom⟩, Or.inr ⟨hnone.1, ?_⟩⟩
        intro r hr
        rcases mem_cons.mp hr with rfl | hr
        · exact hroom.2
        · exact hnone.2 r hr

theorem noRoom_of_prefix {size top first : Nat} {x : vm_region} {rest : List vm_region}
    (hrest : NoRoom vm_region.lo vm_region.hi size top x.hi rest) :
    ∀ {pre : List vm_region} {start : Nat},
      (∀ r ∈ pre ++ [x], first ≤ r.hi ∧ r.lo < first + size) → first ≤ start →
      NoRoom vm_region.lo vm_region.hi size top start (pre ++ x :: rest)
  | [], start, hpre, hstart => by
    have hx := hpre x (by simp)
    exact ⟨by omega, hrest⟩
  | r :: pre, start, hpre, hstart => by
    have hr := hpre r (by simp)
    have hpre' : ∀ r ∈ pre ++ [x], first ≤ r.hi ∧ r.lo < first + size :=
      fun r' hr' => hpre r' (mem_cons_of_mem _ hr')
    exact ⟨by omega, noRoom_of_prefix hrest hpre' hr.1⟩

/-- For an exact address, a spot is found unless the last region walked past ends behind it; at
address 0, the test is passed whatever that region is if it is the last one of all. -/
theorem findSpot_exact (map : vm_virtual_map) {start size : addr} {passed rest : List vm_region}
    (hsorted : Sorted vm_region.lo vm_region.hi (passed.reverse ++ rest))
    (hhi : ∀ r ∈ passed, r.hi ≤ 2 ^ 32)
    (hhead : ∀ r, rest.head? = some r → start + size ≤ r.base) :
    (findSpot map start size REGION_ADDR_EXACT_ADDRESS passed rest =
        .ok ⟨some start, passed, rest⟩ ∧
      ∀ r, passed.head? = some r → r.hi ≤ start.toNat ∨ start = 0 ∧ rest = []) ∨
    (findSpot map start size REGION_ADDR_EXACT_ADDRESS passed rest = .ok ⟨none, passed, rest⟩ ∧
      ∃ r, passed.head? = some r ∧ start.toNat < r.hi ∧ (start = 0 → rest ≠ [])) := by
  cases passed with
  | nil =>
    left
    cases rest with
    | nil => exact ⟨rfl, nofun⟩
    | cons next_r rest =>
      simp only [findSpot, ge_iff_le]
      rw [if_pos (hhead next_r rfl)]
      exact ⟨rfl, nofun⟩
  | cons last_r pre =>
    have hlast := hhi last_r (mem_cons_self ..)
    have hlt : last_r.lo < last_r.hi := hsorted.1 last_r (by simp)
    cases rest with
    | nil =>
      have hend : (last_r.base + (last_r.size - 1)).toNat = last_r.hi - 1 := by
        unfold vm_region.hi vm_region.lo at *
        rw [BitVec.toNat_add, addr.toNat_pred (by omega)]
        omega
      simp only [findSpot]
      by_cases hzero : start = 0
      · left
        have hpred : (start - 1).toNat = 2 ^ 32 - 1 := by
          rw [hzero]
          rfl
        rw [if_pos (by rw [BitVec.le_def, hend, hpred]; omega)]
        exact ⟨rfl, fun _ _ => Or.inr ⟨hzero, trivial⟩⟩
      · have hpos : 0 < start.toNat := by
          rcases Nat.eq_zero_or_pos start.toNat with h | h
          · exact absurd (BitVec.eq_of_toNat_eq h) hzero
          · exact h
        by_cases hle : last_r.hi ≤ start.toNat
        · left
          rw [if_pos (by rw [BitVec.le_def, hend, addr.toNat_pred hpos]; omega)]
          exact ⟨rfl, by rintro r ⟨⟩; exact Or.inl hle⟩
        · right
          rw [if_neg (by rw [BitVec.le_def, hend, addr.toNat_pred hpos]; omega)]
          exact ⟨rfl, last_r, rfl, by omega, fun h => absurd h hzero⟩
    | cons next_r rest =>
      have hnext : last_r.hi ≤ next_r.lo := hsorted.before (by simp) (by simp)
      have hlt' : next_r.lo < 2 ^ 32 := next_r.base.isLt
      have hend : (last_r.base + last_r.size).toNat = last_r.hi := by
        rw [vm_region.toNat_hi]
        omega
      simp only [findSpot, ge_iff_le]
      by_cases hle : last_r.hi ≤ start.toNat
      · left
        rw [if_pos ⟨by rw [BitVec.le_def, hend]; exact hle, hhead next_r rfl⟩]
        exact ⟨rfl, by rintro r ⟨⟩; exact Or.inl hle⟩
      · right
        rw [if_neg (by rw [BitVec.le_def, hend]; exact fun h => hle h.1)]
        exact ⟨rfl, last_r, rfl, by omega, fun _ => nofun⟩

theorem findSpot_any_nil {map : vm_virtual_map} {size : addr} {rest : List vm_region}
    (hhead : ∀ r, rest.head? = some r → map.base + size ≤ r.base) :
    findSpot map map.base size REGION_ADDR_ANY_ADDRESS [] rest = .ok ⟨some map.base, [], rest⟩ := by
  cases rest with
  | nil => rfl
  | cons next_r rest =>
    simp only [findSpot, ge_iff_le]
    rw [if_pos (hhead next_r rfl)]

/-! ## The slot -/

theorem hasGap_of_slotOk {map : vm_virtual_map} {vaddr size : addr} {addr_type : RegionAddr} {region : vm_region}
    {map' : vm_virtual_map} (h : SlotOk map vaddr size addr_type (.ok (region, map'))) :
    map.HasGap size := by
  obtain ⟨hsize, hbase, htop, -, hclear, -⟩ := h
  rw [← hsize] at hclear ⊢
  exact ⟨region.lo, hbase, htop, hclear⟩

section Slot

variable {map : vm_virtual_map} (hwf : map.WellFormed)
include hwf

/-- Between the regions before and behind it, a region of the map is a slot. -/
theorem slotOk_insert {vaddr size base : addr} {addr_type : RegionAddr}
    {passed rest : List vm_region} (hlist : passed.reverse ++ rest = map.region_list)
    (hsize : 0 < size.toNat) (hbase : map.base.toNat ≤ base.toNat)
    (htop : base.toNat + size.toNat ≤ map.top) (hbefore : ∀ r ∈ passed, r.hi ≤ base.toNat)
    (hbehind : ∀ r ∈ rest, base.toNat + size.toNat ≤ r.lo)
    (hexact : addr_type = REGION_ADDR_EXACT_ADDRESS → base = vaddr) :
    SlotOk map vaddr size addr_type
      (insertRegion map size ⟨some base, passed, rest⟩) := by
  have hsorted : Sorted vm_region.lo vm_region.hi (passed.reverse ++ ⟨base, size⟩ :: rest) := by
    have hold := hwf.sorted
    rw [← hlist] at hold
    apply hold.insert
    · show base.toNat < base.toNat + size.toNat
      omega
    · exact fun r hr => hbefore r (mem_reverse.mp hr)
    · exact hbehind
  refine ⟨rfl, hbase, htop, hexact, ?_, ?_, ?_, ⟨hwf.nonempty, hwf.fits, ?_, hsorted⟩⟩
  · rw [← hlist, Clear.append]
    exact ⟨fun r hr => Or.inr (hbefore r (mem_reverse.mp hr)), fun r hr => Or.inl (hbehind r hr)⟩
  · rw [← hlist]
    exact perm_middle
  · refine hsorted.2.imp_of_mem ?_
    intro r r' hr _ hle
    have hlt := hsorted.1 r hr
    rw [BitVec.le_def]
    exact Nat.le_trans (Nat.le_of_lt hlt) hle
  · intro r hr
    have hinside := hwf.inside
    rw [← hlist] at hinside
    rcases mem_append.mp hr with hr | hr
    · exact hinside r (mem_append_left _ hr)
    · rcases mem_cons.mp hr with rfl | hr
      · exact ⟨hbase, htop⟩
      · exact hinside r (mem_append_right _ hr)

theorem find_and_insert_walk {start size stop : addr} (addr_type : RegionAddr)
    (hok : ¬ (start < map.base ∨ size = 0 ∨ stop - 1 > map.base + (map.size - 1) ∨
      start + size > stop)) :
    ∃ passed rest, passed.reverse ++ rest = map.region_list ∧
      (∀ r ∈ passed, r.lo < (start + size).toNat) ∧ (∀ r ∈ rest, (start + size).toNat ≤ r.lo) ∧
      (∀ r, rest.head? = some r → start + size ≤ r.base) ∧
      find_and_insert_region_slot map start size stop addr_type =
        findSpot map start size addr_type passed rest >>= insertRegion map size := by
  obtain ⟨hlist, hbefore, hhead⟩ := searchStart_spec (start + size) map.region_list [] nofun
  rw [reverse_nil, nil_append] at hlist
  refine ⟨_, _, hlist, fun r hr => BitVec.lt_def.mp (hbefore r hr), ?_, hhead, ?_⟩
  · have hsorted := hwf.sorted
    rw [← hlist] at hsorted
    exact le_lo_of_head hsorted.append_right fun r hr => BitVec.le_def.mp (hhead r hr)
  · rw [find_and_insert_region_slot, if_neg hok]

theorem passed_eq_nil {stop : Nat} {passed rest : List vm_region}
    (hlist : passed.reverse ++ rest = map.region_list) (hbefore : ∀ r ∈ passed, r.lo < stop)
    (hstop : stop ≤ map.base.toNat) : passed = [] := by
  cases passed with
  | nil => rfl
  | cons r pre =>
    have hlt := hbefore r (mem_cons_self ..)
    have hmem : r ∈ map.region_list := by
      rw [← hlist]
      simp
    have hle := (hwf.inside r hmem).1
    omega

/-! ### Any address -/

theorem slotOk_any_wrapped {vaddr size : addr} {rest : List vm_region} (hsize : 0 < size.toNat)
    (hlist : rest = map.region_list) (hwrap : 2 ^ 32 ≤ map.base.toNat + size.toNat)
    (hgap : map.HasGap size) :
    SlotOk map vaddr size REGION_ADDR_ANY_ADDRESS (insertRegion map size ⟨some map.base, [], rest⟩) := by
  have hfits := hwf.fits
  obtain ⟨g, hg, htop, hclear⟩ := hgap
  have hnil : rest = [] := by
    cases rest with
    | nil => rfl
    | cons r rest =>
      have hmem : r ∈ map.region_list := by
        rw [← hlist]
        exact mem_cons_self ..
      have hin := hwf.inside r hmem
      have hlt := hwf.sorted.1 r hmem
      rcases hclear r hmem with h | h <;> omega
  rw [hnil] at hlist ⊢
  exact slotOk_insert hwf hlist hsize (Nat.le_refl _) (by omega) nofun nofun nofun

/-- The search from the last region walked past on. -/
theorem slotOk_any_hole {vaddr size : addr} {last_r : vm_region} {pre rest : List vm_region}
    (hsize : 0 < size.toNat) (hlist : (last_r :: pre).reverse ++ rest = map.region_list)
    (hbefore : ∀ r ∈ last_r :: pre, r.lo < map.base.toNat + size.toNat) :
    SlotOk map vaddr size REGION_ADDR_ANY_ADDRESS
        (insertRegion map size (findHole map size pre last_r rest)) ↔
      map.HasGap size ∨ ∀ r ∈ map.region_list, r.hi + size.toNat ≤ 2 ^ 32 := by
  have hlist' : pre.reverse ++ last_r :: rest = map.region_list := by
    rw [← hlist]
    simp
  have hsorted := hwf.sorted
  rw [← hlist'] at hsorted
  have hin : ∀ r ∈ pre.reverse ++ last_r :: rest, map.base.toNat ≤ r.lo ∧ r.hi ≤ map.top := by
    rw [hlist']
    exact hwf.inside
  obtain ⟨hsplit, hspot⟩ := findHole_spec hsize hwf.nonempty hwf.fits rest last_r pre
    hsorted.append_right (fun r hr => (hin r (mem_append_right _ hr)).2)
  generalize findHole map size pre last_r rest = spot at hsplit hspot
  obtain ⟨base, passed, rest'⟩ := spot
  rw [hlist'] at hsplit
  simp only at hsplit hspot
  have hfits := hwf.fits
  rcases hspot with ⟨x, pre', rfl, rfl, htop, hbehind⟩ | ⟨hroom, hspot⟩
  · -- a hole was found
    have hsorted' := hwf.sorted
    rw [← hsplit, reverse_cons] at hsorted'
    have hx : x ∈ map.region_list := by
      rw [← hsplit]
      simp
    have hbase : (x.base + x.size).toNat = x.hi := by
      rw [vm_region.toNat_hi]
      omega
    have hxlo := hwf.sorted.1 x hx
    have hxin := (hwf.inside x hx).1
    have hok := @slotOk_insert map hwf vaddr _ _ REGION_ADDR_ANY_ADDRESS _ _
      hsplit hsize (show map.base.toNat ≤ (x.base + x.size).toNat by omega) (by omega)
      (by
        intro r hr
        rw [hbase]
        exact hsorted'.last_before (by simpa [or_comm] using hr))
      (by rwa [hbase]) nofun
    exact ⟨fun _ => Or.inl (hasGap_of_slotOk hok), fun _ => hok⟩
  · -- there is no hole
    have hfull : ¬ map.HasGap size := by
      rintro ⟨g, hg, htop, hclear⟩
      refine NoRoom.not_clear ?_ hg htop hclear
      rw [← hlist']
      refine noRoom_of_prefix hroom ?_ (Nat.le_refl _)
      intro r hr
      have hr' : r ∈ pre.reverse ++ last_r :: rest := by
        simp only [mem_append, mem_cons, not_mem_nil, or_false] at hr ⊢
        rcases hr with h | h
        · exact Or.inl h
        · exact Or.inr (Or.inl h)
      have hlt := hsorted.1 r hr'
      have hlo := (hin r hr').1
      exact ⟨by omega, hbefore r (by simpa [or_comm] using hr)⟩
    rcases hspot with ⟨hsome, r, hr, hwrap⟩ | ⟨rfl, hnowrap⟩
    · obtain ⟨b, rfl⟩ := Option.ne_none_iff_exists'.mp hsome
      refine iff_of_false (fun h => hfull (hasGap_of_slotOk h)) ?_
      rintro (hgap | hall)
      · exact hfull hgap
      · have := hall r (by rw [← hlist']; exact mem_append_right _ hr)
        omega
    · refine iff_of_true (fun _ _ => hfull) (Or.inr ?_)
      intro r hr
      rw [← hlist'] at hr
      rcases mem_append.mp hr with hr | hr
      · have hle := hsorted.before hr (mem_cons_self ..)
        have hlast := hnowrap last_r (mem_cons_self ..)
        have hlt := hsorted.1 last_r (by simp)
        omega
      · exact hnowrap r hr

theorem slotOk_anyAddress (vaddr : addr) {size : addr} (hsize : 0 < size.toNat) :
    SlotOk map vaddr size REGION_ADDR_ANY_ADDRESS
        (map_backing_store_slot map vaddr size REGION_ADDR_ANY_ADDRESS) ↔
      AnyAddressSafe map size := by
  have hne := addr.ne_zero hsize
  have hfits := hwf.fits
  have hlt := size.isLt
  have hlast := map.toNat_last hwf.nonempty hfits
  have hstop : (map.base + size).toNat = (map.base.toNat + size.toNat) % 2 ^ 32 :=
    BitVec.toNat_add _ _
  have htop : map.top = map.base.toNat + map.size.toNat := rfl
  have hpos := hwf.nonempty
  unfold map_backing_store_slot AnyAddressSafe
  simp only [hne, false_or]
  by_cases hrefused : map.base < map.base ∨ size = 0 ∨
      map.base + (map.size - 1) - 1 > map.base + (map.size - 1) ∨
      map.base + size > map.base + (map.size - 1)
  · rw [find_and_insert_region_slot, if_pos hrefused]
    refine iff_of_true nofun (Or.inr ?_)
    have hlarge : map.top = 1 ∨ map.top ≤ (map.base.toNat + size.toNat) % 2 ^ 32 := by
      rcases hrefused with h | h | h | h
      · exact absurd h (BitVec.lt_irrefl _)
      · exact absurd h hne
      · left
        by_contra hone
        rw [gt_iff_lt, BitVec.lt_def, addr.toNat_pred (by omega), hlast] at h
        omega
      · right
        rw [gt_iff_lt, BitVec.lt_def, hstop, hlast] at h
        omega
    exact ⟨by omega, Or.inl (by omega)⟩
  · obtain ⟨passed, rest, hlist, hbefore, hrest, hhead, heq⟩ :=
      find_and_insert_walk hwf REGION_ADDR_ANY_ADDRESS hrefused
    have hsmall : (map.base.toNat + size.toNat) % 2 ^ 32 < map.top := by
      have h : map.base + size ≤ map.base + (map.size - 1) :=
        BitVec.not_lt.mp fun h => hrefused (Or.inr (Or.inr (Or.inr h)))
      rw [BitVec.le_def, hstop, hlast] at h
      omega
    rw [heq]
    rw [hstop] at hbefore hrest
    by_cases hwrap : 2 ^ 32 ≤ map.base.toNat + size.toNat
    · -- the region goes to the base of the map, whatever is there
      obtain rfl := passed_eq_nil hwf hlist hbefore (by omega)
      rw [findSpot_any_nil hhead]
      constructor
      · exact fun h => Or.inl (hasGap_of_slotOk h)
      · rintro (hgap | ⟨hno, -⟩)
        · exact slotOk_any_wrapped hwf hsize hlist hwrap hgap
        · omega
    · rw [Nat.mod_eq_of_lt (by omega)] at hsmall hbefore hrest
      cases passed with
      | nil =>
        rw [findSpot_any_nil hhead]
        have hok := @slotOk_insert map hwf vaddr _ _ REGION_ADDR_ANY_ADDRESS _ _
          hlist hsize (Nat.le_refl _) (by omega) nofun hrest nofun
        exact ⟨fun _ => Or.inl (hasGap_of_slotOk hok), fun _ => hok⟩
      | cons last_r pre =>
        have hhole := @slotOk_any_hole map hwf vaddr _ _ _ _ hsize hlist hbefore
        refine hhole.trans (or_congr_right ⟨fun h => ⟨by omega, Or.inr h⟩, ?_⟩)
        rintro ⟨-, h | h⟩
        · omega
        · exact h

/-! ### An exact address -/

theorem hi_le_of_head {passed rest : List vm_region} {x : vm_region}
    (hlist : passed.reverse ++ rest = map.region_list) (hx : passed.head? = some x) :
    ∀ r ∈ passed, r.hi ≤ x.hi := by
  cases passed with
  | nil => exact nofun
  | cons last_r pre =>
    cases hx
    have hsorted := hwf.sorted
    rw [← hlist, reverse_cons] at hsorted
    exact fun r hr => hsorted.last_before (by simpa [or_comm] using hr)

theorem exactSafe_of_refused {vaddr size : addr} (hsize : 0 < size.toNat)
    (hrefused : vaddr < map.base ∨ size = 0 ∨ vaddr + size - 1 > map.base + (map.size - 1) ∨
      vaddr + size > vaddr + size) : ExactAddressSafe map vaddr size := by
  have hlt := vaddr.isLt
  have hlt' := size.isLt
  have hstop : (vaddr + size).toNat = (vaddr.toNat + size.toNat) % 2 ^ 32 := BitVec.toNat_add _ _
  rcases hrefused with h | h | h | h
  · exact Or.inr (Or.inl h)
  · exact Or.inl h
  · refine Or.inr (Or.inr ?_)
    rw [gt_iff_lt, BitVec.lt_def, map.toNat_last hwf.nonempty hwf.fits] at h
    by_cases hzero : (vaddr + size).toNat = 0
    · have hbound := (vaddr + size - 1).isLt
      have hfits := hwf.fits
      exact Or.inr (Or.inl ⟨by omega, Or.inl (by omega)⟩)
    · rw [addr.toNat_pred (by omega), hstop] at h
      by_cases hwrap : vaddr.toNat + size.toNat < 2 ^ 32
      · refine Or.inl ⟨hwrap, fun hvaddr => Or.inr (Or.inl ?_)⟩
        have hnat : vaddr.toNat = 0 := by
          rw [hvaddr]
          rfl
        omega
      · exact Or.inr (Or.inr ⟨by omega, Or.inl (by omega)⟩)
  · exact absurd h (BitVec.lt_irrefl _)

/-- A request that ends below `2 ^ 32`. -/
theorem slotOk_exact_below {vaddr size : addr} {passed rest : List vm_region}
    (hsize : 0 < size.toNat) (hbase : map.base.toNat ≤ vaddr.toNat)
    (htop : vaddr.toNat + size.toNat ≤ map.top) (hlist : passed.reverse ++ rest = map.region_list)
    (hbefore : ∀ r ∈ passed, r.lo < vaddr.toNat + size.toNat)
    (hrest : ∀ r ∈ rest, vaddr.toNat + size.toNat ≤ r.lo)
    (hspot : ∀ r, passed.head? = some r → r.hi ≤ vaddr.toNat ∨ vaddr = 0 ∧ rest = []) :
    SlotOk map vaddr size REGION_ADDR_EXACT_ADDRESS
        (insertRegion map size ⟨some vaddr, passed, rest⟩) ↔
      (vaddr = 0 → map.region_list = [] ∨ map.top < size.toNat ∨
        ∃ r ∈ map.region_list, size.toNat ≤ r.lo) := by
  by_cases hhead : ∀ r, passed.head? = some r → r.hi ≤ vaddr.toNat
  · have hends : ∀ r ∈ passed, r.hi ≤ vaddr.toNat := by
      intro r hr
      cases hx : passed.head? with
      | none =>
        rw [List.head?_eq_none_iff.mp hx] at hr
        cases hr
      | some x => exact Nat.le_trans (hi_le_of_head hwf hlist hx r hr) (hhead x hx)
    refine iff_of_true (slotOk_insert hwf hlist hsize hbase htop hends hrest fun _ => rfl) ?_
    intro hzero
    have hnat : vaddr.toNat = 0 := by
      rw [hzero]
      rfl
    rcases hrest' : rest with - | ⟨r, rest'⟩
    · left
      cases passed with
      | nil => rw [← hlist, hrest']; rfl
      | cons r pre =>
        have hr := hends r (mem_cons_self ..)
        have hlt := hwf.sorted.1 r (by rw [← hlist]; simp)
        omega
    · have hr := hrest r (by rw [hrest']; exact mem_cons_self ..)
      exact Or.inr (Or.inr ⟨r, by rw [← hlist, hrest']; simp, by omega⟩)
  · -- from address 0 on, all regions start inside the request
    obtain ⟨x, hx⟩ := not_forall.mp hhead
    obtain ⟨hx, hlt⟩ := Classical.not_imp.mp hx
    obtain ⟨hzero, hrest'⟩ := (hspot x hx).resolve_left (by omega)
    have hnat : vaddr.toNat = 0 := by
      rw [hzero]
      rfl
    have hmem : x ∈ passed := mem_of_head? hx
    have hxlist : x ∈ map.region_list := by
      rw [← hlist]
      exact mem_append_left _ (mem_reverse.mpr hmem)
    refine iff_of_false ?_ ?_
    · rintro ⟨-, -, -, -, hclear, -⟩
      have hxlo := hbefore x hmem
      rcases hclear x hxlist with h | h <;> unfold vm_region.lo at * <;> simp only at h <;> omega
    · intro h
      rcases h hzero with hnil | hlarge | ⟨r, hr, hle⟩
      · rw [hnil] at hxlist
        cases hxlist
      · omega
      · rw [← hlist, hrest', append_nil] at hr
        have := hbefore r (mem_reverse.mp hr)
        omega

/-- A request that ends right at `2 ^ 32` goes to the front of the list. -/
theorem slotOk_exact_at {vaddr size : addr} {rest : List vm_region} (hsize : 0 < size.toNat)
    (hbase : map.base.toNat ≤ vaddr.toNat) (hend : vaddr.toNat + size.toNat = 2 ^ 32)
    (htop : map.top = 2 ^ 32) (hlist : rest = map.region_list) :
    SlotOk map vaddr size REGION_ADDR_EXACT_ADDRESS (insertRegion map size ⟨some vaddr, [], rest⟩) ↔
      map.region_list = [] := by
  constructor
  · rintro ⟨-, -, -, -, hclear, -, hsorted, -⟩
    rcases hlist' : map.region_list with - | ⟨r, rs⟩
    · rfl
    · have hmem : r ∈ map.region_list := by
        rw [hlist']
        exact mem_cons_self ..
      have hlt := hwf.sorted.1 r hmem
      have hin := hwf.inside r hmem
      have hle : vaddr.toNat ≤ r.lo :=
        BitVec.le_def.mp ((pairwise_cons.mp hsorted).1 r (hlist ▸ hmem))
      rcases hclear r hmem with h | h <;> change _ ≤ _ at h <;>
        simp only [vm_region.lo, vm_region.hi] at * <;> omega
  · intro hnil
    rw [hnil] at hlist
    subst hlist
    exact slotOk_insert hwf (by rw [hnil]; rfl) hsize hbase (by omega) nofun nofun fun _ => rfl

theorem slotOk_exactAddress {vaddr size : addr} (hsize : 0 < size.toNat) :
    SlotOk map vaddr size REGION_ADDR_EXACT_ADDRESS
        (map_backing_store_slot map vaddr size REGION_ADDR_EXACT_ADDRESS) ↔
      ExactAddressSafe map vaddr size := by
  have hne := addr.ne_zero hsize
  have hfits := hwf.fits
  have hlt := size.isLt
  have hlt' := vaddr.isLt
  have hlast := map.toNat_last hwf.nonempty hfits
  have hpos := hwf.nonempty
  have htop : map.top = map.base.toNat + map.size.toNat := rfl
  have hstop : (vaddr + size).toNat = (vaddr.toNat + size.toNat) % 2 ^ 32 := BitVec.toNat_add _ _
  unfold map_backing_store_slot
  by_cases hrefused : vaddr < map.base ∨ size = 0 ∨
      vaddr + size - 1 > map.base + (map.size - 1) ∨ vaddr + size > vaddr + size
  · simp only [find_and_insert_region_slot, if_pos hrefused]
    exact iff_of_true nofun (exactSafe_of_refused hwf hsize hrefused)
  · obtain ⟨passed, rest, hlist, hbefore, hrest, hhead, heq⟩ :=
      find_and_insert_walk hwf REGION_ADDR_EXACT_ADDRESS hrefused
    have hbase : ¬ vaddr < map.base := fun h => hrefused (Or.inl h)
    have hbase' : map.base.toNat ≤ vaddr.toNat := BitVec.le_def.mp (BitVec.not_lt.mp hbase)
    have hsmall : (vaddr + size - 1).toNat ≤ map.top - 1 := by
      have h : vaddr + size - 1 ≤ map.base + (map.size - 1) :=
        BitVec.not_lt.mp fun h => hrefused (Or.inr (Or.inr (Or.inl h)))
      rw [BitVec.le_def, hlast] at h
      exact h
    have hsorted := hwf.sorted
    rw [← hlist] at hsorted
    have hhi : ∀ r ∈ passed, r.hi ≤ 2 ^ 32 := by
      intro r hr
      have := hwf.inside r (by rw [← hlist]; simp [hr])
      omega
    have hspot := findSpot_exact map hsorted hhi hhead
    simp only [heq, ExactAddressSafe, hne, hbase, false_or]
    rw [hstop] at hbefore hrest
    rcases Nat.lt_trichotomy (vaddr.toNat + size.toNat) (2 ^ 32) with hbelow | hat | habove
    · rw [Nat.mod_eq_of_lt hbelow] at hbefore hrest hstop
      rw [addr.toNat_pred (by omega), hstop] at hsmall
      refine Iff.trans ?_ ⟨fun h => Or.inl ⟨hbelow, h⟩, ?_⟩
      rotate_left
      · rintro (h | h | h)
        · exact h.2
        · omega
        · omega
      rcases hspot with ⟨hfound, hends⟩ | ⟨hnone, r, -, -, hrest'⟩
      · rw [hfound]
        exact slotOk_exact_below hwf hsize hbase' (by omega) hlist hbefore hrest hends
      · rw [hnone]
        refine iff_of_true (fun _ => nofun) fun hzero => Or.inr (Or.inr ?_)
        obtain ⟨next_r, rest', rfl⟩ := exists_cons_of_ne_nil (hrest' hzero)
        have := hrest next_r (mem_cons_self ..)
        exact ⟨next_r, by rw [← hlist]; simp, by omega⟩
    · have hzero : vaddr + size = 0 := BitVec.eq_of_toNat_eq (by rw [hstop, hat]; rfl)
      have htop : map.top = 2 ^ 32 := by
        rw [hzero] at hsmall
        have hpred : (0 - 1 : addr).toNat = 2 ^ 32 - 1 := rfl
        omega
      obtain rfl := passed_eq_nil hwf hlist hbefore (by omega)
      rcases hspot with ⟨hfound, -⟩ | ⟨-, r, hr, -⟩
      · rw [hfound]
        refine (slotOk_exact_at hwf hsize hbase' hat htop hlist).trans ?_
        refine ⟨fun h => Or.inr (Or.inl ⟨hat, Or.inr h⟩), ?_⟩
        rintro (h | ⟨-, h | h⟩ | h)
        · omega
        · omega
        · exact h
        · omega
      · cases hr
    · have hmod : (vaddr.toNat + size.toNat) % 2 ^ 32 = vaddr.toNat + size.toNat - 2 ^ 32 := by
        omega
      rw [hmod] at hbefore hrest hstop
      rw [addr.toNat_pred (by omega), hstop] at hsmall
      rcases hspot with ⟨hfound, hends⟩ | ⟨hnone, x, hx, hxlt, -⟩
      · rw [hfound]
        refine iff_of_false ?_ ?_
        · rintro ⟨-, -, htop, -⟩
          change vaddr.toNat + size.toNat ≤ map.top at htop
          omega
        · rintro (h | h | ⟨-, h | ⟨r, hr, hrlo, hrhi⟩⟩)
          · exact absurd h.1 (by omega)
          · exact absurd h.1 (by omega)
          · omega
          · have hrp : r ∈ passed := by
              rw [← hlist] at hr
              rcases mem_append.mp hr with hr | hr
              · exact mem_reverse.mp hr
              · have := hrest r hr
                omega
            cases hx : passed.head? with
            | none =>
              rw [List.head?_eq_none_iff.mp hx] at hrp
              cases hrp
            | some x =>
              have hle := hi_le_of_head hwf hlist hx r hrp
              rcases hends x hx with h | ⟨h, -⟩
              · omega
              · have hnat : vaddr.toNat = 0 := by
                  rw [h]
                  rfl
                omega
      · rw [hnone]
        refine iff_of_true (fun _ => nofun) (Or.inr (Or.inr ⟨habove, Or.inr ?_⟩))
        have hmem : x ∈ passed := mem_of_head? hx
        have hlo := hbefore x hmem
        exact ⟨x, by rw [← hlist]; simp [hmem], by omega, hxlt⟩

/-- The slot found keeps the region list sorted and disjoint, and one is found if there is one,
just for the requests whose sums do not wrap. -/
theorem map_backing_store_slot_iff (vaddr size : addr) (addr_type : RegionAddr) :
    SlotOk map vaddr size addr_type (map_backing_store_slot map vaddr size addr_type) ↔
      SlotSafe map vaddr size addr_type := by
  rcases Nat.eq_zero_or_pos size.toNat with hzero | hsize
  · -- a request for nothing is refused
    have hsize : size = 0 := BitVec.eq_of_toNat_eq hzero
    have hrefused : ∀ start stop addr_type,
        find_and_insert_region_slot map start size stop addr_type = .error ERR_VM_BAD_ADDRESS :=
      fun _ _ _ => if_pos (Or.inr (Or.inl hsize))
    cases addr_type <;> simp only [map_backing_store_slot, hrefused]
    · exact iff_of_true nofun (Or.inl hsize)
    · exact iff_of_true nofun (Or.inl hsize)
    · exact iff_of_true nofun trivial
  · cases addr_type with
    | REGION_ADDR_ANY_ADDRESS => exact slotOk_anyAddress hwf vaddr hsize
    | REGION_ADDR_EXACT_ADDRESS => exact slotOk_exactAddress hwf hsize
    | other => exact iff_of_true nofun trivial

theorem removeRegion_wellFormed (region : vm_region) : (removeRegion map region).WellFormed := by
  unfold removeRegion
  split
  · refine ⟨hwf.nonempty, hwf.fits, ?_, hwf.sorted.sublist erase_sublist⟩
    exact fun r hr => hwf.inside r (mem_of_mem_erase hr)
  · exact hwf

end Slot

/-! ## A map that ends at `2 ^ 32` -/

/-- The kernel's addresses, with a region on the last page. -/
def lastPageMap : vm_virtual_map := ⟨[⟨0xfffff000, 0x1000⟩], 0, 0x80000000, 0x80000000⟩

theorem lastPageMap_wellFormed : lastPageMap.WellFormed where
  nonempty := by decide
  fits := by decide
  inside := by decide
  sorted := ⟨by decide, pairwise_singleton _ _⟩

theorem map_backing_store_slot_last_page : SlotOk lastPageMap 0 0x1000 REGION_ADDR_ANY_ADDRESS
      (map_backing_store_slot lastPageMap 0 0x1000 REGION_ADDR_ANY_ADDRESS) := by
  apply (map_backing_store_slot_iff lastPageMap_wellFormed 0 0x1000 REGION_ADDR_ANY_ADDRESS).mpr
  refine Or.inr (Or.inl ⟨0x80000000, by decide, by decide, ?_⟩)
  intro r hr
  obtain rfl := mem_singleton.mp hr
  exact Or.inl (by decide)

/-- The last page is mapped once more. -/
theorem map_backing_store_slot_overlaps :
    ¬ ∀ (map : vm_virtual_map), map.WellFormed → ∀ (vaddr size : addr) (addr_type : RegionAddr),
      SlotOk map vaddr size addr_type (map_backing_store_slot map vaddr size addr_type) := by
  intro h
  have hok := h lastPageMap lastPageMap_wellFormed 0xfffff000 0x1000 REGION_ADDR_EXACT_ADDRESS
  have hslot : map_backing_store_slot lastPageMap 0xfffff000 0x1000 REGION_ADDR_EXACT_ADDRESS =
      .ok (⟨0xfffff000, 0x1000⟩,
        ⟨[⟨0xfffff000, 0x1000⟩, ⟨0xfffff000, 0x1000⟩], 1, 0x80000000, 0x80000000⟩) := rfl
  rw [hslot] at hok
  obtain ⟨-, -, -, -, hclear, -⟩ := hok
  rcases hclear ⟨0xfffff000, 0x1000⟩ (mem_singleton_self _) with h | h
  · exact absurd h (by decide)
  · exact absurd h (by decide)

end Kernel
