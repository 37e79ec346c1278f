import OpenBeOS.Kernel.Region
import OpenBeOS.Kernel.VmCache

/-! # Resizing the regions of a cache

`vm_resize_region` of `vm.c`. It looks at the region behind each one, also where there is none, takes
regions that touch for regions that overlap, undoes with the size of one region, and ends without a
`return`. `resize_all_or_nothing_iff` says when a call is all or nothing all the same.
-/

namespace Kernel

open Function List

/-- Regions and address spaces are given by numbers. `region_list` are the regions of an address
space in the order of their `aspace_next` pointers, `cache_list` those of a cache in the order of
their `cache_next` pointers. -/
structure VmRegions where
  region_table : List Nat
  region : Nat → vm_region
  aspace : Nat → Nat
  region_list : Nat → List Nat
  map_base : Nat → addr
  map_size : Nat → addr
  cache_ref : Nat → Nat
  cache_list : Nat → List Nat
  virtual_size : Nat → off_t

namespace VmRegions

def B_NO_ERROR : Int := 0

def B_ERROR : Int := -1

/-! ## The function -/

def vm_get_region_by_id (s : VmRegions) (rid : Nat) : Option Nat :=
  if rid ∈ s.region_table then some rid else none

section

variable (s : VmRegions) (r : Nat)

def base : addr := (s.region r).base

def size : addr := (s.region r).size

def aspace_next : Option Nat :=
  ((s.region_list (s.aspace r)).dropWhile (· ≠ r)).tail.head?

def setSize (size : addr) : VmRegions :=
  { s with region := update s.region r { s.region r with size } }

end

/-- The first loop: whether it has failed, or `none` where it reads through a null pointer. -/
def resizeLoop (newSize : addr) : List Nat → VmRegions → Option (Bool × VmRegions)
  | [], s => some (false, s)
  | current :: rest, s =>
    match s.aspace_next current with
    | none => none
    | some next =>
      if s.base next ≤ s.base current + newSize then some (true, s)
      else resizeLoop newSize rest (s.setSize current newSize)

/-- `garbage` is what the caller finds for a result when there is no `return`. -/
def vm_resize_region (s : VmRegions) (garbage : Int) (rid : Nat) (newSize : addr) :
    Option (Int × VmRegions) :=
  match s.vm_get_region_by_id rid with
  | none => some (B_ERROR, s)
  | some myRegion =>
    let myCacheRef := s.cache_ref myRegion
    let oldSize := s.size myRegion
    match resizeLoop newSize (s.cache_list myCacheRef) s with
    | none => none
    | some (true, s') =>
      some (B_ERROR, (s.cache_list myCacheRef).foldl (fun s r => s.setSize r oldSize) s')
    | some (false, s') =>
      some (garbage, { s' with
        virtual_size := update s'.virtual_size myCacheRef (newSize.setWidth 64) })

/-! ## What it should do -/

def lo (s : VmRegions) (r : Nat) : Nat := (s.region r).lo

def hi (s : VmRegions) (r : Nat) : Nat := (s.region r).hi

/-- The address behind an address space. -/
def top (s : VmRegions) (a : Nat) : Nat := (s.map_base a).toNat + (s.map_size a).toNat

/-- The regions of an address space are inside its map, and each one ends before those behind it
start. -/
structure InOrder (s : VmRegions) (a : Nat) : Prop where
  inside : ∀ r ∈ s.region_list a, (s.map_base a).toNat ≤ s.lo r ∧ s.hi r ≤ s.top a
  disjoint : (s.region_list a).Pairwise fun r r' => s.hi r ≤ s.lo r'

/-- There is room for a region up to the next one, or up to the end of the map. -/
def CanGrow (s : VmRegions) (newSize : addr) (r : Nat) : Prop :=
  match s.aspace_next r with
  | none => s.lo r + newSize.toNat ≤ s.top (s.aspace r)
  | some next => s.lo r + newSize.toNat ≤ s.lo next

/-- An error, with all sizes as before, as some region cannot grow; or all regions of the cache have
the new size, and their address spaces are in order. -/
def AllOrNothing (s : VmRegions) (cache : Nat) (newSize : addr) : Option (Int × VmRegions) → Prop
  | none => False
  | some (status, s') =>
    (status ≠ B_NO_ERROR ∧ (∀ r, s'.size r = s.size r) ∧
        s'.virtual_size cache = s.virtual_size cache ∧
        ∃ r ∈ s.cache_list cache, ¬ s.CanGrow newSize r) ∨
      (status = B_NO_ERROR ∧ (∀ r ∈ s.cache_list cache, s'.size r = newSize) ∧
        ∀ r ∈ s.cache_list cache, s'.InOrder (s.aspace r))

/-- The regions of a cache are in their address spaces, and these are in order. -/
structure WellFormed (s : VmRegions) : Prop where
  mapped : ∀ a, ∀ r ∈ s.region_list a, s.aspace r = a
  listed : ∀ cache, ∀ r ∈ s.cache_list cache, r ∈ s.region_list (s.aspace r)
  cached : ∀ r ∈ s.region_table, r ∈ s.cache_list (s.cache_ref r)
  nodup : ∀ a, (s.region_list a).Nodup
  order : ∀ a, s.InOrder a
  fits : ∀ a, s.top a ≤ 2 ^ 32

section

variable (s : VmRegions) (newSize : addr) (r : Nat)

/-- The test of the loop is passed. -/
def Passes : Prop :=
  ∃ next, s.aspace_next r = some next ∧ ¬ s.base next ≤ s.base r + newSize

/-- The test of the loop fails. -/
def Stops : Prop :=
  ∃ next, s.aspace_next r = some next ∧ s.base next ≤ s.base r + newSize

/-- At least one address is left up to the next region. -/
def HasSpace : Prop :=
  ∃ next, s.aspace_next r = some next ∧ s.lo r + newSize.toNat < s.lo next

end

/-- All regions have space, and the caller finds `B_NO_ERROR` by chance; or the test fails before the
loop gets to the last region of an address space, some region cannot grow, and all regions have the
size of the one asked for. -/
def ResizeSafe (s : VmRegions) (garbage : Int) (r : Nat) (newSize : addr) : Prop :=
  (garbage = B_NO_ERROR ∧ ∀ r' ∈ s.cache_list (s.cache_ref r), s.HasSpace newSize r') ∨
    ((∃ pre stop post, s.cache_list (s.cache_ref r) = pre ++ stop :: post ∧
        (∀ r' ∈ pre, s.Passes newSize r') ∧ s.Stops newSize stop) ∧
      (∀ r' ∈ s.cache_list (s.cache_ref r), s.size r' = s.size r) ∧
      ∃ r' ∈ s.cache_list (s.cache_ref r), ¬ s.CanGrow newSize r')

/-! ## The loops -/

variable {s s' : VmRegions} {newSize : addr}

/-- What the loops leave alone. -/
structure Same (s s' : VmRegions) : Prop where
  base : ∀ r, s'.base r = s.base r
  aspace : s'.aspace = s.aspace
  region_list : s'.region_list = s.region_list
  maps : s'.map_base = s.map_base ∧ s'.map_size = s.map_size
  virtual_size : s'.virtual_size = s.virtual_size

theorem same_setSize (s : VmRegions) (r : Nat) (size : addr) : s.Same (s.setSize r size) := by
  refine ⟨fun r' => ?_, rfl, rfl, ⟨rfl, rfl⟩, rfl⟩
  by_cases hr : r' = r
  · subst hr
    show (update s.region r' _ r').base = _
    rw [update_self]
    rfl
  · exact congrArg vm_region.base (update_of_ne hr ..)

theorem Same.trans {s'' : VmRegions} (h : s.Same s') (h' : s'.Same s'') : s.Same s'' :=
  ⟨fun r => (h'.base r).trans (h.base r), h'.aspace.trans h.aspace,
    h'.region_list.trans h.region_list,
    ⟨h'.maps.1.trans h.maps.1, h'.maps.2.trans h.maps.2⟩, h'.virtual_size.trans h.virtual_size⟩

theorem Same.aspace_next (h : s.Same s') (r : Nat) : s'.aspace_next r = s.aspace_next r := by
  unfold VmRegions.aspace_next
  rw [h.aspace, h.region_list]

theorem size_setSize (s : VmRegions) (r r' : Nat) (size : addr) :
    (s.setSize r size).size r' = if r' = r then size else s.size r' := by
  by_cases hr : r' = r
  · subst hr
    rw [if_pos rfl]
    show (update s.region r' _ r').size = _
    rw [update_self]
  · rw [if_neg hr]
    exact congrArg vm_region.size (update_of_ne hr ..)

theorem undo_spec (oldSize : addr) : ∀ (rs : List Nat) (s : VmRegions),
      s.Same (rs.foldl (fun s r => s.setSize r oldSize) s) ∧
        ∀ r, (rs.foldl (fun s r => s.setSize r oldSize) s).size r =
          if r ∈ rs then oldSize else s.size r
  | [], s => ⟨⟨fun _ => rfl, rfl, rfl, ⟨rfl, rfl⟩, rfl⟩, fun _ => rfl⟩
  | current :: rest, s => by
    obtain ⟨hsame, hsize⟩ := undo_spec oldSize rest (s.setSize current oldSize)
    refine ⟨(same_setSize s current oldSize).trans hsame, fun r => ?_⟩
    rw [foldl_cons, hsize r, size_setSize]
    by_cases hrest : r ∈ rest
    · rw [if_pos hrest, if_pos (mem_cons_of_mem _ hrest)]
    · rw [if_neg hrest]
      exact if_congr (by simp [hrest]) rfl rfl

variable {pre post : List Nat} {r : Nat}

theorem Same.passes (h : s.Same s') : s'.Passes newSize r ↔ s.Passes newSize r := by
  unfold Passes
  simp only [h.aspace_next, h.base]

theorem resizeLoop_cons {current : Nat} (h : s.Passes newSize current) (rest : List Nat) :
    resizeLoop newSize (current :: rest) s =
      resizeLoop newSize rest (s.setSize current newSize) := by
  obtain ⟨next, hnext, htest⟩ := h
  rw [resizeLoop, hnext]
  exact if_neg htest

theorem resizeLoop_passes :
    ∀ (pre : List Nat) (rest : List Nat) (s : VmRegions), (∀ r ∈ pre, s.Passes newSize r) →
      ∃ s', resizeLoop newSize (pre ++ rest) s = resizeLoop newSize rest s' ∧ s.Same s' ∧
        ∀ r, s'.size r = if r ∈ pre then newSize else s.size r
  | [], rest, s, _ => ⟨s, rfl, ⟨fun _ => rfl, rfl, rfl, ⟨rfl, rfl⟩, rfl⟩, fun _ => rfl⟩
  | current :: pre, rest, s, h => by
    have hsame := same_setSize s current newSize
    obtain ⟨s', hloop, hsame', hsize⟩ := resizeLoop_passes pre rest (s.setSize current newSize)
      fun r hr => hsame.passes.mpr (h r (mem_cons_of_mem _ hr))
    refine ⟨s', ?_, hsame.trans hsame', fun r => ?_⟩
    · rw [cons_append, resizeLoop_cons (h current mem_cons_self), hloop]
    · rw [hsize r, size_setSize]
      by_cases hpre : r ∈ pre
      · rw [if_pos hpre, if_pos (mem_cons_of_mem _ hpre)]
      · rw [if_neg hpre]
        exact if_congr (by simp [hpre]) rfl rfl

theorem exists_stop (s : VmRegions) (newSize : addr) (rs : List Nat) :
    (∀ r ∈ rs, s.Passes newSize r) ∨ ∃ pre stop post, rs = pre ++ stop :: post ∧
      (∀ r ∈ pre, s.Passes newSize r) ∧ ¬ s.Passes newSize stop := by
  induction rs with
  | nil => exact .inl nofun
  | cons r rs ih =>
    by_cases hr : s.Passes newSize r
    · rcases ih with hall | ⟨pre, stop, post, rfl, hpre, hstop⟩
      · exact .inl (forall_mem_cons.mpr ⟨hr, hall⟩)
      · exact .inr ⟨r :: pre, stop, post, rfl, forall_mem_cons.mpr ⟨hr, hpre⟩, hstop⟩
    · exact .inr ⟨[], r, rs, rfl, nofun, hr⟩

theorem Stops.not_passes (h : s.Stops newSize r) : ¬ s.Passes newSize r := by
  rintro ⟨next, hnext, htest⟩
  obtain ⟨next', hnext', htest'⟩ := h
  cases hnext.symm.trans hnext'
  exact htest htest'

theorem HasSpace.passes (h : s.HasSpace newSize r) : s.Passes newSize r := by
  obtain ⟨next, hnext, hlt⟩ := h
  refine ⟨next, hnext, ?_⟩
  have hnextLt : s.lo next < 2 ^ 32 := (s.base next).isLt
  rw [BitVec.le_def, BitVec.toNat_add, Nat.mod_eq_of_lt (by unfold lo vm_region.lo at *; unfold base; omega)]
  unfold lo vm_region.lo at hlt
  unfold base
  omega

theorem stop_unique {pre pre' post post' : List Nat} {stop stop' : Nat}
    (h : pre ++ stop :: post = pre' ++ stop' :: post') (hpre : ∀ r ∈ pre, s.Passes newSize r)
    (hpre' : ∀ r ∈ pre', s.Passes newSize r) (hstop : ¬ s.Passes newSize stop)
    (hstop' : ¬ s.Passes newSize stop') : stop = stop' := by
  rcases append_eq_append_iff.mp h with ⟨between, rfl, hrest⟩ | ⟨between, rfl, hrest⟩
  · cases between with
    | nil => exact (List.cons.inj hrest).1
    | cons r between =>
      cases hrest
      exact absurd (hpre' stop (by simp)) hstop
  · cases between with
    | nil => exact (List.cons.inj hrest).1.symm
    | cons r between =>
      cases hrest
      exact absurd (hpre stop' (by simp)) hstop'

/-! ## Regions and their neighbours -/

theorem WellFormed.aspace_next (h : s.WellFormed) {a r : Nat}
    (hlist : s.region_list a = pre ++ r :: post) : s.aspace_next r = post.head? := by
  have hmem : r ∈ s.region_list a := hlist ▸ by simp
  have hpre : ∀ x ∈ pre, decide (x ≠ r) = true := by
    intro x hx
    have hnodup := h.nodup a
    rw [hlist] at hnodup
    exact decide_eq_true ((nodup_append.mp hnodup).2.2 x hx r mem_cons_self)
  unfold VmRegions.aspace_next
  rw [h.mapped a r hmem, hlist, dropWhile_append_of_pos hpre, dropWhile_cons_of_neg (by simp)]
  rfl

theorem WellFormed.exists_next (h : s.WellFormed) {cache r next : Nat}
    (hr : r ∈ s.cache_list cache) (hnext : s.aspace_next r = some next) :
    ∃ pre post, s.region_list (s.aspace r) = pre ++ r :: next :: post := by
  obtain ⟨pre, post, hlist⟩ := append_of_mem (h.listed cache r hr)
  rw [h.aspace_next hlist] at hnext
  obtain ⟨rest, rfl⟩ := List.head?_eq_some_iff.mp hnext
  exact ⟨pre, rest, hlist⟩

theorem InOrder.next {a r next : Nat} (h : s.InOrder a)
    (hlist : s.region_list a = pre ++ r :: next :: post) : s.hi r ≤ s.lo next := by
  have hsorted := h.disjoint
  rw [hlist] at hsorted
  exact (pairwise_cons.mp (pairwise_append.mp hsorted).2.1).1 next mem_cons_self

/-- Regions that grow into free space leave the address spaces in order. -/
theorem WellFormed.grown (h : s.WellFormed) {cache : Nat} (hsame : s.Same s')
    (hsize : ∀ r, s'.size r = if r ∈ s.cache_list cache then newSize else s.size r)
    (hspace : ∀ r ∈ s.cache_list cache, s.HasSpace newSize r) (a : Nat) : s'.InOrder a := by
  have hlo : ∀ r, s'.lo r = s.lo r := fun r => congrArg BitVec.toNat (hsame.base r)
  have hlist : s'.region_list a = s.region_list a := by rw [hsame.region_list]
  -- a region has not changed, or ends before the one behind it
  have hend : ∀ r, s'.hi r = s.hi r ∨
      ∃ next, s.aspace_next r = some next ∧ s'.hi r < s.lo next := by
    intro r
    have hhi : s'.hi r = s.lo r + (s'.size r).toNat := congrArg (· + _) (hlo r)
    rw [hhi, hsize r]
    by_cases hr : r ∈ s.cache_list cache
    · rw [if_pos hr]
      exact .inr (hspace r hr)
    · rw [if_neg hr]
      exact .inl rfl
  have hbehind : ∀ {pre r post}, s.region_list a = pre ++ r :: post →
      s'.hi r = s.hi r ∨ ∃ next rest, post = next :: rest ∧ s'.hi r < s.lo next := by
    intro pre r post hsplit
    refine (hend r).imp_right ?_
    rintro ⟨next, hnext, hlt⟩
    rw [h.aspace_next hsplit] at hnext
    obtain ⟨rest, rfl⟩ := List.head?_eq_some_iff.mp hnext
    exact ⟨next, rest, rfl, hlt⟩
  have hlohi : ∀ r, s.lo r ≤ s.hi r := fun r => Nat.le_add_right _ _
  refine ⟨fun r hr => ?_, ?_⟩
  · rw [hlist] at hr
    obtain ⟨hbase, hle⟩ := (h.order a).inside r hr
    have htop : s'.map_base a = s.map_base a ∧ s'.top a = s.top a := by
      unfold top
      rw [hsame.maps.1, hsame.maps.2]
      exact ⟨rfl, rfl⟩
    rw [htop.1, htop.2, hlo r]
    refine ⟨hbase, ?_⟩
    obtain ⟨pre, post, hsplit⟩ := append_of_mem hr
    rcases hbehind hsplit with hold | ⟨next, rest, rfl, hlt⟩
    · omega
    · have hin := ((h.order a).inside next (by rw [hsplit]; simp)).2
      have := hlohi next
      omega
  · rw [hlist]
    -- by induction over what is behind a part of the list
    have hparts : ∀ (post pre : List Nat), s.region_list a = pre ++ post →
        post.Pairwise fun r r' => s'.hi r ≤ s'.lo r' := by
      intro post
      induction post with
      | nil => exact fun _ _ => List.Pairwise.nil
      | cons r post ih =>
        intro pre hsplit
        have hsorted := (h.order a).disjoint
        rw [hsplit] at hsorted
        obtain ⟨hr, hpost⟩ := pairwise_cons.mp (pairwise_append.mp hsorted).2.1
        refine pairwise_cons.mpr ⟨fun r' hr' => ?_, ih (pre ++ [r]) (by simp [hsplit])⟩
        rw [hlo r']
        rcases hbehind hsplit with hold | ⟨next, rest, rfl, hlt⟩
        · rw [hold]
          exact hr r' hr'
        · rcases mem_cons.mp hr' with rfl | hr'
          · omega
          · have := (pairwise_cons.mp hpost).1 r' hr'
            have := hlohi next
            omega
    exact hparts _ [] rfl

theorem WellFormed.overlaps (h : s.WellFormed) {cache r : Nat} (hr : r ∈ s.cache_list cache)
    (hpasses : s.Passes newSize r) (hspace : ¬ s.HasSpace newSize r) (hsame : s.Same s')
    (hsize : s'.size r = newSize) : ¬ s'.InOrder (s.aspace r) := by
  obtain ⟨next, hnext, htest⟩ := hpasses
  obtain ⟨pre, post, hlist⟩ := h.exists_next hr hnext
  intro horder
  have hle := horder.next (hsame.region_list ▸ hlist)
  have hhi : s'.hi r = (s.base r).toNat + newSize.toNat := by
    rw [← hsize, ← hsame.base r]
    rfl
  have hnextLo : s'.lo next = (s.base next).toNat := congrArg BitVec.toNat (hsame.base next)
  have hlt := (s.base next).isLt
  rw [BitVec.le_def, BitVec.toNat_add, Nat.mod_eq_of_lt (by omega)] at htest
  refine hspace ⟨next, hnext, ?_⟩
  show (s.base r).toNat + newSize.toNat < (s.base next).toNat
  omega

theorem WellFormed.canGrow (h : s.WellFormed) {cache r : Nat} (hr : r ∈ s.cache_list cache)
    (hpasses : s.Passes newSize r) (hsize : s.size r = newSize) : s.CanGrow newSize r := by
  obtain ⟨next, hnext, -⟩ := hpasses
  obtain ⟨pre, post, hlist⟩ := h.exists_next hr hnext
  have hle := (h.order _).next hlist
  unfold CanGrow
  rw [hnext, ← hsize]
  exact hle

/-! ## The result -/

/-- All regions pass the test. -/
theorem resize_passed (h : s.WellFormed) {rid : Nat} (hrid : rid ∈ s.region_table) {garbage : Int}
    (hall : ∀ r ∈ s.cache_list (s.cache_ref rid), s.Passes newSize r) :
    s.AllOrNothing (s.cache_ref rid) newSize (s.vm_resize_region garbage rid newSize) ↔
      s.ResizeSafe garbage rid newSize := by
  have hget : s.vm_get_region_by_id rid = some rid := if_pos hrid
  obtain ⟨s', hloop, hsame, hsize⟩ := resizeLoop_passes _ [] s hall
  rw [append_nil] at hloop
  have hnew : ∀ r ∈ s.cache_list (s.cache_ref rid), s'.size r = newSize := fun r hr => by
    rw [hsize r, if_pos hr]
  unfold vm_resize_region
  rw [hget]
  dsimp only
  rw [hloop]
  constructor
  · rintro (⟨-, hold, -, r, hr, hgrow⟩ | ⟨hstatus, -, horder⟩)
    · exact absurd (h.canGrow hr (hall r hr) ((hold r).symm.trans (hnew r hr))) hgrow
    · refine .inl ⟨hstatus, fun r hr => ?_⟩
      by_contra hspace
      have hbad := h.overlaps hr (hall r hr) hspace hsame (hnew r hr)
      exact hbad ⟨(horder r hr).inside, (horder r hr).disjoint⟩
  · rintro (⟨hstatus, hspace⟩ | ⟨⟨pre, stop, post, hlist, -, hstop⟩, -⟩)
    · refine .inr ⟨hstatus, hnew, fun r _ => ?_⟩
      have hgrown := h.grown hsame hsize hspace (s.aspace r)
      exact ⟨hgrown.inside, hgrown.disjoint⟩
    · exact absurd (hall stop (by rw [hlist]; simp)) hstop.not_passes

/-- A region stops the loop. -/
theorem resize_stopped {rid : Nat} (hrid : rid ∈ s.region_table) {garbage : Int} {stop : Nat}
    (hlist : s.cache_list (s.cache_ref rid) = pre ++ stop :: post)
    (hpre : ∀ r ∈ pre, s.Passes newSize r) (hstop : ¬ s.Passes newSize stop) :
    s.AllOrNothing (s.cache_ref rid) newSize (s.vm_resize_region garbage rid newSize) ↔
      s.ResizeSafe garbage rid newSize := by
  have hget : s.vm_get_region_by_id rid = some rid := if_pos hrid
  have hmem : stop ∈ s.cache_list (s.cache_ref rid) := by rw [hlist]; simp
  obtain ⟨s', hloop, hsame, hsize⟩ := resizeLoop_passes pre (stop :: post) s hpre
  rw [← hlist] at hloop
  unfold vm_resize_region
  rw [hget]
  dsimp only
  rw [hloop, resizeLoop, hsame.aspace_next]
  have hnoSpace : ¬ ∀ r ∈ s.cache_list (s.cache_ref rid), s.HasSpace newSize r :=
    fun hspace => hstop (hspace stop hmem).passes
  cases hnext : s.aspace_next stop with
  | none =>
    refine iff_of_false not_false ?_
    rintro (⟨-, hspace⟩ | ⟨⟨pre', stop', post', hlist', hpre', hstop'⟩, -⟩)
    · exact hnoSpace hspace
    · -- the loop gets to the last region of an address space first
      obtain rfl := stop_unique (hlist.symm.trans hlist') hpre hpre' hstop hstop'.not_passes
      obtain ⟨next, hsome, -⟩ := hstop'
      cases hnext.symm.trans hsome
  | some next =>
    have htest : s.base next ≤ s.base stop + newSize := by
      by_contra htest
      exact hstop ⟨next, hnext, htest⟩
    dsimp only
    rw [if_pos (by rw [hsame.base, hsame.base]; exact htest)]
    obtain ⟨hundone, hundoneSize⟩ := undo_spec (s.size rid) (s.cache_list (s.cache_ref rid)) s'
    constructor
    · rintro (⟨-, hold, -, hgrow⟩ | ⟨hstatus, -⟩)
      · refine .inr ⟨⟨pre, stop, post, hlist, hpre, next, hnext, htest⟩, fun r hr => ?_, hgrow⟩
        rw [← hold r, hundoneSize r, if_pos hr]
      · exact absurd hstatus (by decide)
    · rintro (⟨-, hspace⟩ | ⟨-, hsizes, hgrow⟩)
      · exact absurd hspace hnoSpace
      · refine .inl ⟨by decide, fun r => ?_, ?_, hgrow⟩
        · rw [hundoneSize r]
          by_cases hr : r ∈ s.cache_list (s.cache_ref rid)
          · rw [if_pos hr, hsizes r hr]
          · have hnot : r ∉ pre := fun hin => hr (by rw [hlist]; simp [hin])
            rw [if_neg hr, hsize r, if_neg hnot]
        · rw [hundone.virtual_size, hsame.virtual_size]

/-- A call is all or nothing exactly when it is safe. -/
theorem resize_all_or_nothing_iff (h : s.WellFormed) {rid : Nat} (hrid : rid ∈ s.region_table)
    (garbage : Int) (newSize : addr) :
    s.AllOrNothing (s.cache_ref rid) newSize (s.vm_resize_region garbage rid newSize) ↔
      s.ResizeSafe garbage rid newSize := by
  rcases exists_stop s newSize (s.cache_list (s.cache_ref rid)) with
    hall | ⟨pre, stop, post, hlist, hpre, hstop⟩
  · exact resize_passed h hrid hall
  · exact resize_stopped hrid hlist hpre hstop

/-- Two regions of a cache, of different sizes, each with a region of another cache behind it. -/
def twoMappings : VmRegions where
  region_table := [0, 1, 2, 3]
  region
    | 0 => ⟨0x1000, 0x1000⟩
    | 1 => ⟨0x1000, 0x2000⟩
    | 2 => ⟨0x3000, 0x1000⟩
    | _ => ⟨0x8000, 0x1000⟩
  aspace
    | 0 => 0
    | 2 => 0
    | _ => 1
  region_list
    | 0 => [0, 2]
    | 1 => [1, 3]
    | _ => []
  map_base _ := 0x1000
  map_size _ := 0x10000
  cache_ref
    | 0 => 0
    | 1 => 0
    | _ => 1
  cache_list
    | 0 => [0, 1]
    | 1 => [2, 3]
    | _ => []
  virtual_size _ := 0x2000

theorem twoMappings_wellFormed : twoMappings.WellFormed where
  mapped
    | 0 => by decide
    | 1 => by decide
    | _ + 2 => nofun
  listed
    | 0 => by decide
    | 1 => by decide
    | _ + 2 => nofun
  cached := by decide
  nodup
    | 0 => by decide
    | 1 => by decide
    | _ + 2 => nodup_nil
  order
    | 0 => ⟨by decide, by decide⟩
    | 1 => ⟨by decide, by decide⟩
    | _ + 2 => ⟨nofun, List.Pairwise.nil⟩
  fits _ := by
    show 0x1000 + 0x10000 ≤ 2 ^ 32
    decide

/-- Both regions have space for the new size. -/
theorem resize_all_or_nothing_both :
    twoMappings.AllOrNothing 0 0x1800 (twoMappings.vm_resize_region B_NO_ERROR 0 0x1800) := by
  have hmem : 0 ∈ twoMappings.region_table := by decide
  refine (resize_all_or_nothing_iff twoMappings_wellFormed hmem B_NO_ERROR 0x1800).mpr
    (.inl ⟨rfl, ?_⟩)
  have hfirst : twoMappings.HasSpace 0x1800 0 := ⟨2, rfl, by decide⟩
  have hsecond : twoMappings.HasSpace 0x1800 1 := ⟨3, rfl, by decide⟩
  exact forall_mem_cons.mpr ⟨hfirst, forall_mem_cons.mpr ⟨hsecond, nofun⟩⟩

/-- The first region has no room, and the second one gets its size. -/
theorem resize_not_undone : twoMappings.WellFormed ∧ ¬ twoMappings.AllOrNothing 0 0x4000
    (twoMappings.vm_resize_region B_NO_ERROR 0 0x4000) := by
  refine ⟨twoMappings_wellFormed, ?_⟩
  rintro (⟨-, hold, -⟩ | ⟨hstatus, -⟩)
  · exact absurd (hold 1) (by decide)
  · exact absurd hstatus (by decide)

end VmRegions

end Kernel
