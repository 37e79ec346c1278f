import OpenBeOS.Lib.Ledger
import OpenBeOS.Lib.Reachable

/-! # Kernel images

Loading and unloading of kernel images in `elf.c`. What the functions called return is given by a
`Load` or an `Unload`; the descriptors, references to vnodes, blocks of memory and regions that the
loader has are kept in a ledger. No image is ever linked to another one in the source.
-/

namespace Kernel

open Reachable

inductive Resource where
  | descriptor (fd : Nat)
  | reference (vnode : Nat)
  | memory (block : Nat)
  | region (id : Nat)
  deriving DecidableEq

/-- `block` is the memory of the structure itself; the kernel has no vnode. -/
structure Image where
  id : Nat
  ref_count : Int
  vnode : Option Nat
  region0 : Option Nat
  region1 : Option Nat
  eheader : Nat
  block : Nat

/-- `fresh` is the next descriptor, block or region. -/
structure Elf where
  kernel_images : List Image
  next_image_id : Nat
  fresh : Nat
  ledger : Ledger Resource

/-- What a program header is for. -/
inductive SegmentKind where
  | readOnly
  | writable
  | other
  deriving DecidableEq

/-- A program header, whether its region is created, and what reading it returns. -/
structure Segment where
  kind : SegmentKind
  created : Bool
  len : Int

/-- What is returned to `elf_load_kspace`; `vnode` is the vnode that the path leads to. -/
structure Load where
  fd : Int
  vnode : Option Nat
  eheaderMem : Bool
  eheaderLen : Int
  eheaderSize : Int
  verify : Int
  imageMem : Bool
  pheadersMem : Bool
  pheadersLen : Int
  pheadersSize : Int
  segments : List Segment
  sameDelta : Bool
  parse : Int
  relocate : Int

/-- What is returned to `elf_unload_kspace`. -/
structure Unload where
  fd : Int
  vnode : Option Nat

namespace Elf

def ERR_GENERAL : Int := -1
def ERR_INVALID_BINARY : Int := ERR_GENERAL - 7
def ERR_INVALID_HANDLE : Int := ERR_GENERAL - 8
def ERR_NOT_FOUND : Int := ERR_GENERAL - 12

/-- `ENOMEM`. -/
def ERR_NO_MEMORY : Int := -2147483648

section

variable (s : Elf)

def acquire (r : Nat → Resource) : Nat × Elf :=
  (s.fresh, { s with fresh := s.fresh + 1, ledger := s.ledger.acquire (r s.fresh) })

def hold (r : Resource) : Elf := { s with ledger := s.ledger.acquire r }

def release (r : Resource) : Elf := { s with ledger := s.ledger.release r }

/-- `kfree`, which takes NULL. -/
def kfree (block : Option Nat) : Elf :=
  match block with
  | none => s
  | some block => s.release (.memory block)

/-- There is no region without an id. -/
def vm_delete_region (id : Option Nat) : Elf :=
  match id with
  | none => s
  | some id => s.release (.region id)

def insert_image_in_list (image : Image) : Elf :=
  { s with kernel_images := image :: s.kernel_images }

def remove_image_from_list (image : Image) : Elf :=
  { s with kernel_images := s.kernel_images.eraseP fun i => i.block = image.block }

def find_image_by_vnode (vnode : Nat) : Option Image :=
  s.kernel_images.find? fun image => image.vnode = some vnode

/-- `atomic_add` on the count of an image. -/
def addRef (image : Image) (n : Int) : Elf :=
  { s with
    kernel_images := s.kernel_images.map fun i =>
      if i.block = image.block then { i with ref_count := i.ref_count + n } else i }

/-! ## Loading -/

def error0 (vnode : Option Nat) (fd : Nat) : Elf :=
  match vnode with
  | none => s.release (.descriptor fd)
  | some vnode => (s.release (.reference vnode)).release (.descriptor fd)

def error1 (eheader vnode fd : Nat) : Elf :=
  (s.release (.memory eheader)).error0 (some vnode) fd

def error2 (pheaders : Option Nat) (eheader vnode fd : Nat) : Elf :=
  (s.kfree pheaders).error1 eheader vnode fd

def error3 (image : Image) (pheaders : Option Nat) (eheader vnode fd : Nat) : Elf :=
  (s.release (.memory image.block)).error2 pheaders eheader vnode fd

def error4 (image : Image) (pheaders : Option Nat) (eheader vnode fd : Nat) : Elf :=
  ((s.vm_delete_region image.region1).vm_delete_region image.region0).error3 image pheaders eheader
    vnode fd

end

/-- Where the loop over the program headers ends, and the label it goes to. -/
inductive SegmentsEnd where
  | done
  | error3 (err : Int)
  | error4 (err : Int)

/-- The flags for handled segments are set anew for each header: they stop nothing. -/
def loadSegments (s : Elf) (image : Image) : List Segment → SegmentsEnd × Image × Elf
  | [] => (.done, image, s)
  | seg :: segments =>
    match seg.kind with
    | .other => loadSegments s image segments
    | .readOnly =>
      if seg.created then
        let (id, s) := s.acquire .region
        if seg.len < 0 then (.error4 seg.len, { image with region0 := some id }, s)
        else loadSegments s { image with region0 := some id } segments
      else (.error3 ERR_INVALID_BINARY, { image with region0 := none }, s)
    | .writable =>
      if seg.created then
        let (id, s) := s.acquire .region
        if seg.len < 0 then (.error4 seg.len, { image with region1 := some id }, s)
        else loadSegments s { image with region1 := some id } segments
      else (.error3 ERR_INVALID_BINARY, { image with region1 := none }, s)

/-- The part of `elf_load_kspace` behind the loop over the program headers. -/
def finishLoad (s : Elf) (env : Load) (image : Image) (pheaders eheader vnode fd : Nat) :
    Except Int Nat × Elf :=
  if image.region1.isSome ∧ ¬ env.sameDelta then
    (.error ERR_NO_MEMORY, s.error4 image (some pheaders) eheader vnode fd)
  else if env.parse < 0 then
    (.error env.parse, s.error4 image (some pheaders) eheader vnode fd)
  else if env.relocate < 0 then
    (.error env.relocate, s.error4 image (some pheaders) eheader vnode fd)
  else
    (.ok image.id, ((s.kfree (some pheaders)).release (.descriptor fd)).insert_image_in_list image)

/-- The part of `elf_load_kspace` behind the image structure. -/
def loadImage (s : Elf) (env : Load) (image : Image) (eheader vnode fd : Nat) :
    Except Int Nat × Elf :=
  if ¬ env.pheadersMem then (.error ERR_NO_MEMORY, s.error2 none eheader vnode fd)
  else
    let (pheaders, s) := s.acquire .memory
    if env.pheadersLen < 0 then
      (.error env.pheadersLen, s.error3 image (some pheaders) eheader vnode fd)
    else if env.pheadersLen ≠ env.pheadersSize then
      (.error (-1), s.error3 image (some pheaders) eheader vnode fd)
    else
      match s.loadSegments image env.segments with
      | (.error3 err, image, s) => (.error err, s.error3 image (some pheaders) eheader vnode fd)
      | (.error4 err, image, s) => (.error err, s.error4 image (some pheaders) eheader vnode fd)
      | (.done, image, s) => s.finishLoad env image pheaders eheader vnode fd

/-- The part of `elf_load_kspace` for an image that is not loaded. -/
def loadNew (s : Elf) (env : Load) (vnode fd : Nat) : Except Int Nat × Elf :=
  if ¬ env.eheaderMem then (.error ERR_NO_MEMORY, s.error0 (some vnode) fd)
  else
    let (eheader, s) := s.acquire .memory
    if env.eheaderLen < 0 then (.error env.eheaderLen, s.error1 eheader vnode fd)
    else if env.eheaderLen ≠ env.eheaderSize then
      (.error ERR_INVALID_BINARY, s.error1 eheader vnode fd)
    else if env.verify < 0 then (.error env.verify, s.error1 eheader vnode fd)
    else if ¬ env.imageMem then (.error ERR_NO_MEMORY, s.error1 eheader vnode fd)
    else
      let (block, s) := s.acquire .memory
      let image : Image :=
        { id := s.next_image_id
          ref_count := 1
          vnode := some vnode
          region0 := none
          region1 := none
          eheader := eheader
          block := block }
      loadImage { s with next_image_id := s.next_image_id + 1 } env image eheader vnode fd

/-- For an image that is loaded already, only its count is changed. -/
def elf_load_kspace (s : Elf) (env : Load) : Except Int Nat × Elf :=
  if env.fd < 0 then (.error env.fd, s)
  else
    let (fd, s) := s.acquire .descriptor
    match env.vnode with
    | none => (.error ERR_INVALID_HANDLE, s.error0 none fd)
    | some vnode =>
      let s := s.hold (.reference vnode)
      match s.find_image_by_vnode vnode with
      | some image => (.ok image.id, s.addRef image 1)
      | none => s.loadNew env vnode fd

/-! ## Unloading -/

def elf_unload_image_final (s : Elf) (image : Image) : Elf :=
  let s := (s.vm_delete_region image.region0).vm_delete_region image.region1
  let s :=
    match image.vnode with
    | none => s
    | some vnode => s.release (.reference vnode)
  ((s.remove_image_from_list image).release (.memory image.eheader)).release (.memory image.block)

/-- The count before the subtraction is looked at. -/
def elf_unload_image (s : Elf) (image : Image) : Elf :=
  if image.ref_count > 0 then s.addRef image (-1)
  else (s.addRef image (-1)).elf_unload_image_final image

def elf_unload_kspace (s : Elf) (env : Unload) : Except Int Unit × Elf :=
  if env.fd < 0 then (.error env.fd, s)
  else
    let (fd, s) := s.acquire .descriptor
    match env.vnode with
    | none => (.error ERR_INVALID_HANDLE, s.error0 none fd)
    | some vnode =>
      let s := s.hold (.reference vnode)
      match s.find_image_by_vnode vnode with
      | none => (.error ERR_NOT_FOUND, s.error0 (some vnode) fd)
      | some image => (.ok (), (s.elf_unload_image image).error0 (some vnode) fd)

end Elf

end Kernel
