import OpenBeOS.Kernel.Elf

/-! # The life of kernel images

What the loader holds after any sequence of loads and unloads: the resources of the images in the
list, and nothing else.
-/

namespace Kernel

open Reachable Ledger Function List

/-- The regions of an image. -/
def Image.regions (image : Image) : List Resource :=
  image.region1.toList.map .region ++ image.region0.toList.map .region

/-- What a loaded image has; the kernel was not loaded here. -/
def Image.owned (image : Image) : List Resource :=
  match image.vnode with
  | none => []
  | some vnode => image.regions ++ [.memory image.block, .memory image.eheader, .reference vnode]

namespace Elf

variable {s : Elf} {image : Image} {rs : List Resource} {block eheader vnode fd pheaders : Nat}

/-! ## The error labels -/

theorem Holds.error0 (h : s.ledger.Holds (.reference vnode :: .descriptor fd :: rs)) :
    (s.error0 (some vnode) fd).ledger.Holds rs := h.release.release

theorem Holds.error1
    (h : s.ledger.Holds (.memory eheader :: .reference vnode :: .descriptor fd :: rs)) :
    (s.error1 eheader vnode fd).ledger.Holds rs := Holds.error0 (s := s.release _) h.release

theorem Holds.error3 (h : s.ledger.Holds (.memory image.block :: .memory pheaders ::
      .memory eheader :: .reference vnode :: .descriptor fd :: rs)) :
    (s.error3 image (some pheaders) eheader vnode fd).ledger.Holds rs :=
  Holds.error1 (s := (s.release _).release _) h.release.release

theorem Holds.vm_delete_region {id : Option Nat}
    (h : s.ledger.Holds (id.toList.map .region ++ rs)) : (s.vm_delete_region id).ledger.Holds rs := by
  cases id with
  | none => exact h
  | some id => exact h.release

theorem Holds.error4 (h : s.ledger.Holds (image.regions ++ (.memory image.block ::
      .memory pheaders :: .memory eheader :: .reference vnode :: .descriptor fd :: rs))) :
    (s.error4 image (some pheaders) eheader vnode fd).ledger.Holds rs := by
  rw [Image.regions, append_assoc] at h
  have hdeleted := Holds.vm_delete_region (Holds.vm_delete_region h)
  exact Holds.error3 (s := (s.vm_delete_region _).vm_delete_region _) hdeleted

theorem vm_delete_region_images (s : Elf) (id : Option Nat) :
    (s.vm_delete_region id).kernel_images = s.kernel_images := by
  cases id <;> rfl

theorem error4_images (s : Elf) (image : Image) (pheaders eheader vnode fd : Nat) :
    (s.error4 image (some pheaders) eheader vnode fd).kernel_images = s.kernel_images :=
  (vm_delete_region_images _ _).trans (vm_delete_region_images _ _)

/-! ## The loop over the program headers -/

/-- Each of the two regions is created once at most, and none fails to be when the other is there. -/
def Clean : Bool → Bool → List Segment → Prop
  | _, _, [] => True
  | ro, rw, seg :: segments =>
    match seg.kind with
    | .other => Clean ro rw segments
    | .readOnly =>
      ro = false ∧
        if seg.created then seg.len < 0 ∨ Clean true rw segments else rw = false
    | .writable =>
      rw = false ∧
        if seg.created then seg.len < 0 ∨ Clean ro true segments else ro = false

/-- The regions that are left behind the loop. -/
def SegmentsEnd.left : SegmentsEnd → Image → List Resource
  | .error3 _, _ => []
  | _, image => image.regions

/-- The images are the same but for their regions. -/
def Image.SameBut (image image' : Image) : Prop :=
  image'.id = image.id ∧ image'.ref_count = image.ref_count ∧ image'.vnode = image.vnode ∧
    image'.eheader = image.eheader ∧ image'.block = image.block

section

variable (h : s.ledger.Holds (image.regions ++ rs))
include h

theorem regions_acquire0 (hnone : image.region0 = none) :
    (s.acquire .region).2.ledger.Holds
      ({ image with region0 := some (s.acquire .region).1 }.regions ++ rs) := by
  have hacquired : (s.acquire .region).2.ledger.Holds (.region s.fresh :: (image.regions ++ rs)) :=
    h.acquire _
  refine hacquired.perm ?_
  rw [Image.regions, hnone, Option.toList_none, map_nil, append_nil, Image.regions, append_assoc]
  exact perm_middle.symm

theorem regions_acquire1 (hnone : image.region1 = none) :
    (s.acquire .region).2.ledger.Holds
      ({ image with region1 := some (s.acquire .region).1 }.regions ++ rs) := by
  have hacquired : (s.acquire .region).2.ledger.Holds (.region s.fresh :: (image.regions ++ rs)) :=
    h.acquire _
  rw [Image.regions, hnone, Option.toList_none, map_nil, nil_append] at hacquired
  exact hacquired

theorem regions_none (hro : image.region0 = none)
    (hrw : image.region1 = none) : s.ledger.Holds rs := by
  rwa [Image.regions, hro, hrw] at h

end

theorem loadSegments_readOnly {seg : Segment} (hkind : seg.kind = .readOnly)
    (segments : List Segment) (s : Elf) (image : Image) :
    s.loadSegments image (seg :: segments) =
      if seg.created then
        if seg.len < 0 then (.error4 seg.len,
          { image with region0 := some (s.acquire .region).1 }, (s.acquire .region).2)
        else (s.acquire .region).2.loadSegments
          { image with region0 := some (s.acquire .region).1 } segments
      else (.error3 ERR_INVALID_BINARY, { image with region0 := none }, s) := by
  rw [loadSegments, hkind]

theorem loadSegments_writable {seg : Segment} (hkind : seg.kind = .writable)
    (segments : List Segment) (s : Elf) (image : Image) :
    s.loadSegments image (seg :: segments) =
      if seg.created then
        if seg.len < 0 then (.error4 seg.len,
          { image with region1 := some (s.acquire .region).1 }, (s.acquire .region).2)
        else (s.acquire .region).2.loadSegments
          { image with region1 := some (s.acquire .region).1 } segments
      else (.error3 ERR_INVALID_BINARY, { image with region1 := none }, s) := by
  rw [loadSegments, hkind]

theorem loadSegments_spec (segments : List Segment) (s : Elf) (image : Image)
    (hclean : Clean image.region0.isSome image.region1.isSome segments)
    (h : s.ledger.Holds (image.regions ++ rs)) :
    ∃ stop image' s', s.loadSegments image segments = (stop, image', s') ∧
      s'.kernel_images = s.kernel_images ∧ Image.SameBut image image' ∧
      s'.ledger.Holds (stop.left image' ++ rs) := by
  induction segments generalizing s image with
  | nil => exact ⟨.done, image, s, rfl, rfl, ⟨rfl, rfl, rfl, rfl, rfl⟩, h⟩
  | cons seg segments ih =>
    unfold Clean at hclean
    split at hclean
    · rename_i hkind
      have hskip : s.loadSegments image (seg :: segments) = s.loadSegments image segments := by
        rw [loadSegments, hkind]
      rw [hskip]
      exact ih s image hclean h
    · rename_i hkind
      rw [loadSegments_readOnly hkind]
      obtain ⟨hro, hclean⟩ := hclean
      have hnone : image.region0 = none := Option.not_isSome_iff_eq_none.mp (by rw [hro]; nofun)
      by_cases hcreated : seg.created = true
      · rw [if_pos hcreated] at hclean ⊢
        have hheld := regions_acquire0 h hnone
        by_cases hlen : seg.len < 0
        · rw [if_pos hlen]
          exact ⟨_, _, _, rfl, rfl, ⟨rfl, rfl, rfl, rfl, rfl⟩, hheld⟩
        · rw [if_neg hlen]
          exact ih (s.acquire .region).2 { image with region0 := some (s.acquire .region).1 }
            (hclean.resolve_left hlen) hheld
      · rw [if_neg hcreated] at hclean ⊢
        have hnone' : image.region1 = none :=
          Option.not_isSome_iff_eq_none.mp (by rw [hclean]; nofun)
        exact ⟨_, _, _, rfl, rfl, ⟨rfl, rfl, rfl, rfl, rfl⟩, regions_none h hnone hnone'⟩
    · rename_i hkind
      rw [loadSegments_writable hkind]
      obtain ⟨hrw, hclean⟩ := hclean
      have hnone : image.region1 = none := Option.not_isSome_iff_eq_none.mp (by rw [hrw]; nofun)
      by_cases hcreated : seg.created = true
      · rw [if_pos hcreated] at hclean ⊢
        have hheld := regions_acquire1 h hnone
        by_cases hlen : seg.len < 0
        · rw [if_pos hlen]
          exact ⟨_, _, _, rfl, rfl, ⟨rfl, rfl, rfl, rfl, rfl⟩, hheld⟩
        · rw [if_neg hlen]
          exact ih (s.acquire .region).2 { image with region1 := some (s.acquire .region).1 }
            (hclean.resolve_left hlen) hheld
      · rw [if_neg hcreated] at hclean ⊢
        have hnone' : image.region0 = none :=
          Option.not_isSome_iff_eq_none.mp (by rw [hclean]; nofun)
        exact ⟨_, _, _, rfl, rfl, ⟨rfl, rfl, rfl, rfl, rfl⟩, regions_none h hnone' hnone⟩

/-! ## A load -/

/-- A load whose failures leave nothing behind. -/
def CleanLoad (env : Load) : Prop :=
  env.eheaderMem = true → 0 ≤ env.eheaderLen → env.eheaderLen = env.eheaderSize → 0 ≤ env.verify →
    env.imageMem = true → env.pheadersMem = true ∧
      (0 ≤ env.pheadersLen → env.pheadersLen = env.pheadersSize → Clean false false env.segments)

/-- What a load leaves: a new image with what it has, or nothing new. -/
def Loaded (s s' : Elf) (vnode : Nat) (rs : List Resource) : Except Int Nat → Prop
  | .error _ => s'.kernel_images = s.kernel_images ∧ s'.ledger.Holds rs
  | .ok id => ∃ image, s'.kernel_images = image :: s.kernel_images ∧ image.id = id ∧
      image.vnode = some vnode ∧ image.ref_count = 1 ∧ s'.ledger.Holds (image.owned ++ rs)

theorem finishLoad_spec (env : Load) (hvnode : image.vnode = some vnode)
    (heheader : image.eheader = eheader) (hcount : image.ref_count = 1)
    (h : s.ledger.Holds (image.regions ++ (.memory image.block :: .memory pheaders ::
      .memory eheader :: .reference vnode :: .descriptor fd :: rs))) :
    Loaded s (s.finishLoad env image pheaders eheader vnode fd).2 vnode rs
      (s.finishLoad env image pheaders eheader vnode fd).1 := by
  have hfailed : ∀ err, Loaded s (s.error4 image (some pheaders) eheader vnode fd) vnode rs
      (.error err) := fun _ => ⟨error4_images .., Holds.error4 h⟩
  unfold finishLoad
  split
  · exact hfailed _
  · split
    · exact hfailed _
    · split
      · exact hfailed _
      · refine ⟨image, rfl, rfl, hvnode, hcount, ?_⟩
        have hkept : image.owned ++ rs = image.regions ++ ([.memory image.block, .memory eheader,
            .reference vnode] ++ rs) := by
          rw [Image.owned, hvnode, heheader, append_assoc]
        have hperm : (image.regions ++ (.memory image.block :: .memory pheaders ::
            .memory eheader :: .reference vnode :: .descriptor fd :: rs)).Perm
            (.memory pheaders :: .descriptor fd :: (image.owned ++ rs)) := by
          rw [hkept, perm_iff_count]
          intro r
          simp only [count_append, count_cons, count_nil]
          omega
        exact (h.perm hperm).release.release

theorem loadImage_spec (env : Load) (hvnode : image.vnode = some vnode)
    (heheader : image.eheader = eheader) (hcount : image.ref_count = 1)
    (hregions : image.region0 = none ∧ image.region1 = none) (hmem : env.pheadersMem = true)
    (hclean : 0 ≤ env.pheadersLen → env.pheadersLen = env.pheadersSize →
      Clean false false env.segments)
    (h : s.ledger.Holds (.memory image.block :: .memory eheader :: .reference vnode ::
      .descriptor fd :: rs)) :
    Loaded s (s.loadImage env image eheader vnode fd).2 vnode rs
      (s.loadImage env image eheader vnode fd).1 := by
  have hheld : (s.acquire .memory).2.ledger.Holds (.memory image.block ::
      .memory (s.acquire .memory).1 :: .memory eheader :: .reference vnode :: .descriptor fd ::
        rs) := (h.acquire (.memory s.fresh)).perm (.swap ..)
  have herror3 : ∀ err, Loaded s ((s.acquire .memory).2.error3 image
      (some (s.acquire .memory).1) eheader vnode fd) vnode rs (.error err) :=
    fun _ => ⟨rfl, Holds.error3 hheld⟩
  unfold loadImage
  rw [if_neg (not_not_intro hmem)]
  dsimp only
  split
  · exact herror3 _
  · rename_i hlen
    split
    · exact herror3 _
    · rename_i hsize
      have hempty : image.regions = [] := by
        rw [Image.regions, hregions.1, hregions.2]
        rfl
      have hsegments : Clean image.region0.isSome image.region1.isSome env.segments := by
        rw [hregions.1, hregions.2]
        exact hclean (by omega) (not_not.mp hsize)
      have hstart : (s.acquire .memory).2.ledger.Holds (image.regions ++
          (.memory image.block :: .memory (s.acquire .memory).1 :: .memory eheader ::
            .reference vnode :: .descriptor fd :: rs)) := by
        rw [hempty]
        exact hheld
      obtain ⟨stop, image', s', hloop, himages, hsame, hleft⟩ :=
        loadSegments_spec env.segments (s.acquire .memory).2 image hsegments hstart
      obtain ⟨-, hcount', hvnode', heheader', hblock⟩ := hsame
      rw [hloop]
      rw [← hblock] at hleft
      cases stop with
      | done =>
        have hfinish := finishLoad_spec (s := s') env (hvnode'.trans hvnode)
          (heheader'.trans heheader) (hcount'.trans hcount) hleft
        dsimp only
        revert hfinish
        generalize s'.finishLoad env image' _ eheader vnode fd = result
        obtain ⟨outcome, s''⟩ := result
        cases outcome with
        | error err => exact fun hfailed => ⟨hfailed.1.trans himages, hfailed.2⟩
        | ok id =>
          rintro ⟨image'', hcons, hrest⟩
          exact ⟨image'', hcons.trans (congrArg _ himages), hrest⟩
      | error3 err => exact ⟨himages, Holds.error3 hleft⟩
      | error4 err => exact ⟨(error4_images ..).trans himages, Holds.error4 hleft⟩

theorem loadNew_spec (env : Load) (hclean : CleanLoad env)
    (h : s.ledger.Holds (.reference vnode :: .descriptor fd :: rs)) :
    Loaded s (s.loadNew env vnode fd).2 vnode rs (s.loadNew env vnode fd).1 := by
  have hheld : (s.acquire .memory).2.ledger.Holds (.memory (s.acquire .memory).1 ::
      .reference vnode :: .descriptor fd :: rs) := h.acquire _
  have herror1 : ∀ err, Loaded s ((s.acquire .memory).2.error1 (s.acquire .memory).1 vnode fd)
      vnode rs (.error err) := fun _ => ⟨rfl, Holds.error1 hheld⟩
  unfold loadNew
  by_cases heheader : env.eheaderMem = true
  · rw [if_neg (not_not_intro heheader)]
    dsimp only
    split
    · exact herror1 _
    · rename_i hlen
      split
      · exact herror1 _
      · rename_i hsize
        split
        · exact herror1 _
        · rename_i hverify
          by_cases himage : env.imageMem = true
          · rw [if_neg (not_not_intro himage)]
            obtain ⟨hpheaders, hsegments⟩ := hclean heheader (by omega) (not_not.mp hsize)
              (by omega) himage
            exact loadImage_spec (s := { ((s.acquire .memory).2.acquire .memory).2 with
                next_image_id := s.next_image_id + 1 }) env rfl rfl rfl ⟨rfl, rfl⟩ hpheaders
              hsegments (hheld.acquire _)
          · rw [if_pos himage]
            exact herror1 _
  · rw [if_pos heheader]
    exact ⟨rfl, Holds.error0 h⟩

end Elf

/-! ## Runs -/

inductive ElfCall where
  | elf_load_kspace (env : Load)
  | elf_unload_kspace (env : Unload)

/-- The loader, and by how much the successful loads of a vnode exceed its unloads. -/
structure Loader where
  elf : Elf
  loads : Nat → Int

namespace Loader

/-- The kernel's own image, as `elf_init` makes it. -/
def kernel_image : Image where
  id := 0
  ref_count := 1
  vnode := none
  region0 := some 0
  region1 := some 1
  eheader := 0
  block := 2

def elf_init : Elf where
  kernel_images := [kernel_image]
  next_image_id := 1
  fresh := 3
  ledger := ⟨[], false⟩

def Init (s : Loader) : Prop := s = ⟨elf_init, fun _ => 0⟩

/-- `n` is counted for a call that succeeds. -/
def count {α : Type} (loads : Nat → Int) (vnode : Option Nat) (n : Int) : Except Int α → Nat → Int
  | .error _ => loads
  | .ok _ =>
    match vnode with
    | none => loads
    | some vnode => update loads vnode (loads vnode + n)

def call (s : Loader) : ElfCall → Loader
  | .elf_load_kspace env =>
    ⟨(s.elf.elf_load_kspace env).2, count s.loads env.vnode 1 (s.elf.elf_load_kspace env).1⟩
  | .elf_unload_kspace env =>
    ⟨(s.elf.elf_unload_kspace env).2, count s.loads env.vnode (-1) (s.elf.elf_unload_kspace env).1⟩

def Step (s : Loader) (c : ElfCall) (s' : Loader) : Prop := s' = s.call c

/-- Just the images whose loads exceed their unloads are in the list, counted right, one for each
vnode, and what they have is all that the loader has. -/
structure Accounted (s : Loader) : Prop where
  listed : ∀ v, (∃ image ∈ s.elf.kernel_images, image.vnode = some v) ↔ 0 < s.loads v
  counted : ∀ image ∈ s.elf.kernel_images, ∀ v, image.vnode = some v → image.ref_count = s.loads v
  single : (s.elf.kernel_images.filterMap Image.vnode).Nodup
  held : s.elf.ledger.Holds (s.elf.kernel_images.flatMap Image.owned)

/-- A loaded image is neither loaded again nor unloaded, and a load that fails can clean up. -/
def Keeps (s : Loader) : ElfCall → Prop
  | .elf_load_kspace env => ∀ v, 0 ≤ env.fd → env.vnode = some v →
      s.elf.find_image_by_vnode v = none ∧ Elf.CleanLoad env
  | .elf_unload_kspace env => ∀ v, 0 ≤ env.fd → env.vnode = some v →
      s.elf.find_image_by_vnode v = none

variable {s : Loader}

/-- The invariant of the runs: no image is unloaded more often than it is loaded. -/
structure Sound (s : Loader) : Prop where
  accounted : s.Accounted
  nonneg : ∀ v, 0 ≤ s.loads v

variable {elf : Elf}

theorem find_none_iff {v : Nat} :
    elf.find_image_by_vnode v = none ↔ ∀ image ∈ elf.kernel_images, image.vnode ≠ some v := by
  unfold Elf.find_image_by_vnode
  rw [List.find?_eq_none]
  simp

theorem Sound.same (h : s.Sound) (himages : elf.kernel_images = s.elf.kernel_images)
    (hheld : elf.ledger.Holds (s.elf.kernel_images.flatMap Image.owned)) :
    Sound ⟨elf, s.loads⟩ := by
  obtain ⟨⟨hlisted, hcounted, hsingle, -⟩, hnonneg⟩ := h
  refine ⟨⟨?_, ?_, ?_, ?_⟩, hnonneg⟩
  · intro v
    show (∃ image ∈ elf.kernel_images, _) ↔ _
    rw [himages]
    exact hlisted v
  · intro image himage
    refine hcounted image ?_
    rw [← himages]
    exact himage
  · show (elf.kernel_images.filterMap Image.vnode).Nodup
    rw [himages]
    exact hsingle
  · show elf.ledger.Holds (elf.kernel_images.flatMap Image.owned)
    rw [himages]
    exact hheld

/-- A new image for a vnode that had none. -/
theorem Sound.loaded (h : s.Sound) {v : Nat} {image : Image}
    (hfind : s.elf.find_image_by_vnode v = none)
    (himages : elf.kernel_images = image :: s.elf.kernel_images) (hvnode : image.vnode = some v)
    (hcount : image.ref_count = 1)
    (hheld : elf.ledger.Holds (image.owned ++ s.elf.kernel_images.flatMap Image.owned)) :
    Sound ⟨elf, update s.loads v (s.loads v + 1)⟩ := by
  obtain ⟨⟨hlisted, hcounted, hsingle, -⟩, hnonneg⟩ := h
  have hnew := find_none_iff.mp hfind
  -- the vnode has no loads yet
  have hzero : s.loads v = 0 := by
    have hle : ¬ 0 < s.loads v := fun hpos => by
      obtain ⟨image', hmem, hv⟩ := (hlisted v).mpr hpos
      exact hnew image' hmem hv
    have hge := hnonneg v
    omega
  have hv : update s.loads v (s.loads v + 1) v = 1 := by
    rw [update_self, hzero]
    rfl
  refine ⟨⟨?_, ?_, ?_, ?_⟩, ?_⟩
  · intro w
    show (∃ image ∈ elf.kernel_images, _) ↔ 0 < update s.loads v (s.loads v + 1) w
    rw [himages]
    by_cases hw : w = v
    · rw [hw, hv]
      exact ⟨fun _ => Int.one_pos, fun _ => ⟨image, mem_cons_self, hvnode⟩⟩
    · rw [update_of_ne hw, ← hlisted w]
      constructor
      · rintro ⟨image', hmem, hw'⟩
        rcases mem_cons.mp hmem with rfl | hmem
        · exact absurd (Option.some.inj (hw'.symm.trans hvnode)) hw
        · exact ⟨image', hmem, hw'⟩
      · rintro ⟨image', hmem, hw'⟩
        exact ⟨image', mem_cons_of_mem _ hmem, hw'⟩
  · intro image' hmem w hw'
    have hmem' : image' ∈ image :: s.elf.kernel_images := himages ▸ hmem
    rcases mem_cons.mp hmem' with rfl | hmem'
    · cases hw'.symm.trans hvnode
      exact hcount.trans hv.symm
    · have hw : w ≠ v := by
        rintro rfl
        exact hnew image' hmem' hw'
      exact (hcounted image' hmem' w hw').trans (update_of_ne hw ..).symm
  · show (elf.kernel_images.filterMap Image.vnode).Nodup
    rw [himages, filterMap_cons_some hvnode]
    refine nodup_cons.mpr ⟨fun hmem => ?_, hsingle⟩
    obtain ⟨image', hmem', hv'⟩ := mem_filterMap.mp hmem
    exact hnew image' hmem' hv'
  · show elf.ledger.Holds (elf.kernel_images.flatMap Image.owned)
    rw [himages]
    exact hheld
  · intro w
    show 0 ≤ update s.loads v (s.loads v + 1) w
    by_cases hw : w = v
    · rw [hw, hv]
      exact Int.zero_le_ofNat 1
    · rw [update_of_ne hw]
      exact hnonneg w

theorem Sound.load (h : s.Sound) (env : Load) (hkeeps : s.Keeps (.elf_load_kspace env)) :
    (s.call (.elf_load_kspace env)).Sound := by
  unfold call Elf.elf_load_kspace
  dsimp only
  by_cases hfd : env.fd < 0
  · rw [if_pos hfd]
    exact h.same rfl h.accounted.held
  · rw [if_neg hfd]
    cases hvnode : env.vnode with
    | none => exact h.same rfl (h.accounted.held.acquire _).release
    | some v =>
      obtain ⟨hfind, hclean⟩ := hkeeps v (by omega) hvnode
      have hfind' : ((s.elf.acquire .descriptor).2.hold (.reference v)).find_image_by_vnode v =
          none := hfind
      dsimp only
      rw [hfind']
      have hheld : ((s.elf.acquire .descriptor).2.hold (.reference v)).ledger.Holds
          (.reference v :: .descriptor s.elf.fresh ::
            s.elf.kernel_images.flatMap Image.owned) :=
        (h.accounted.held.acquire (.descriptor s.elf.fresh)).acquire (.reference v)
      have hloaded := Elf.loadNew_spec env hclean hheld
      have hfd' : (s.elf.acquire .descriptor).1 = s.elf.fresh := rfl
      rw [hfd']
      revert hloaded
      generalize ((s.elf.acquire .descriptor).2.hold (.reference v)).loadNew env v s.elf.fresh =
        result
      obtain ⟨outcome, elf⟩ := result
      cases outcome with
      | error err => exact fun hfailed => h.same hfailed.1 hfailed.2
      | ok id =>
        rintro ⟨image, himages, -, hv, hcount, hheld⟩
        exact h.loaded hfind himages hv hcount hheld

theorem Sound.unload (h : s.Sound) (env : Unload) (hkeeps : s.Keeps (.elf_unload_kspace env)) :
    (s.call (.elf_unload_kspace env)).Sound := by
  unfold call Elf.elf_unload_kspace
  dsimp only
  by_cases hfd : env.fd < 0
  · rw [if_pos hfd]
    exact h.same rfl h.accounted.held
  · rw [if_neg hfd]
    cases hvnode : env.vnode with
    | none => exact h.same rfl (h.accounted.held.acquire _).release
    | some v =>
      have hfind : ((s.elf.acquire .descriptor).2.hold (.reference v)).find_image_by_vnode v =
          none := hkeeps v (by omega) hvnode
      dsimp only
      rw [hfind]
      exact h.same rfl ((h.accounted.held.acquire (.descriptor s.elf.fresh)).acquire
        (.reference v)).release.release

theorem sound_of_reachable (h : By Init Keeps Step s) : s.Sound := by
  refine h.invariant Sound ?_ ?_
  · rintro s rfl
    refine ⟨⟨fun v => ?_, ?_, nodup_nil, .refl _, rfl⟩, fun _ => Int.le_refl 0⟩
    · refine ⟨?_, fun hpos => absurd hpos (Int.lt_irrefl 0)⟩
      rintro ⟨image, hmem, hv⟩
      rw [mem_singleton.mp hmem] at hv
      cases hv
    · intro image hmem v hv
      rw [mem_singleton.mp hmem] at hv
      cases hv
  · rintro s c s' hsound hkeeps rfl
    cases c with
    | elf_load_kspace env => exact hsound.load env hkeeps
    | elf_unload_kspace env => exact hsound.unload env hkeeps

/-- Behind every call of such a run the images and what they have are accounted for. -/
theorem images_accounted (h : By Init Keeps Step s) : s.Accounted := (sound_of_reachable h).accounted

/-- A binary with two segments whose load succeeds. -/
def plainLoad (vnode : Nat) : Load where
  fd := 0
  vnode := some vnode
  eheaderMem := true
  eheaderLen := 52
  eheaderSize := 52
  verify := 0
  imageMem := true
  pheadersMem := true
  pheadersLen := 64
  pheadersSize := 64
  segments := [⟨.readOnly, true, 100⟩, ⟨.writable, true, 100⟩]
  sameDelta := true
  parse := 0
  relocate := 0

/-- An image is loaded. -/
theorem images_accounted_loaded : ∃ s, By Init Keeps Step s ∧ s.loads 7 = 1 ∧ s.Accounted := by
  have hkeeps : Keeps ⟨elf_init, fun _ => 0⟩ (.elf_load_kspace (plainLoad 7)) := by
    intro v _ hv
    obtain rfl : 7 = v := Option.some.inj hv
    refine ⟨rfl, fun _ _ _ _ _ => ⟨rfl, fun _ _ => ⟨rfl, Or.inr ⟨rfl, Or.inr trivial⟩⟩⟩⟩
  have hreach : By Init Keeps Step (call ⟨elf_init, fun _ => 0⟩ (.elf_load_kspace (plainLoad 7))) :=
    .step (.init rfl) hkeeps rfl
  exact ⟨_, hreach, rfl, images_accounted hreach⟩

/-- An image that has been loaded once and is unloaded stays in the list. -/
theorem unloaded_image_stays : ∃ s, By Init (fun _ _ => True) Step s ∧ s.loads 7 = 0 ∧
      (∃ image ∈ s.elf.kernel_images, image.vnode = some 7) ∧ ¬ s.Accounted := by
  let s := call (call ⟨elf_init, fun _ => 0⟩ (.elf_load_kspace (plainLoad 7)))
    (.elf_unload_kspace ⟨0, some 7⟩)
  have hreach : By Init (fun _ _ => True) Step s := .step (.step (.init rfl) trivial rfl) trivial rfl
  have hmem : ∃ image ∈ s.elf.kernel_images, image.vnode = some 7 := ⟨_, mem_cons_self, rfl⟩
  have hzero : s.loads 7 = 0 := rfl
  refine ⟨s, hreach, hzero, hmem, fun haccounted => ?_⟩
  have hpos := (haccounted.listed 7).mp hmem
  rw [hzero] at hpos
  exact absurd hpos (Int.lt_irrefl 0)

end Loader

end Kernel
