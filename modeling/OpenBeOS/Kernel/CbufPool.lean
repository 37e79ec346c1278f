import OpenBeOS.Kernel.Cbuf
import OpenBeOS.Kernel.Heap
import OpenBeOS.Lib.Reachable

/-! # The cbufs of the region

Which lists the cbufs of the region are in, when several threads get and free chains. A step is what
one thread does before another one can see it: a pass of a loop, or a section with the semaphore or
the spinlock. A cbuf is known by its place in the region.
-/

namespace Kernel

open Reachable Function

def ALLOCATE_CHUNK : Nat := PAGE_SIZE * 16

def CBUF_REGION_SIZE : Nat := 4 * 1024 * 1024

def CBUF_BITMAP_SIZE : Nat := CBUF_REGION_SIZE / CBUF_LEN

/-! ## The state -/

/-- The variables of `cbuf_get_chain`. -/
structure GetLocals where
  chain : Option Nat
  tail : Option Nat
  chain_len : Nat
  len : Nat

/-- Where a thread is. `get` are the variables of the `cbuf_get_chain` that has called
`allocate_cbuf_mem` or `cbuf_free_chain` and goes on behind it.
  * `acquire`, `take`: in front of `acquire_sem` in `cbuf_get_chain`, and in its loop;
  * `allocate`: in the loops of `allocate_cbuf_mem`, with `left` cbufs of the run from `buf` on;
  * `finish`: behind these loops;
  * `clear`, `freeAcquire`, `freeLink`: in `_clear_chain`, in front of `acquire_sem` in
    `cbuf_free_chain`, and behind it. -/
inductive PoolCall where
  | idle
  | acquire (g : GetLocals)
  | take (g : GetLocals)
  | allocate (size : Nat) (head_buf last_buf buf : Option Nat) (left : Nat) (get : Option GetLocals)
  | finish (head_buf buf : Option Nat) (get : Option GetLocals)
  | clear (head : Nat) (buf tail : Option Nat) (get : Option GetLocals)
  | freeAcquire (head last : Nat) (get : Option GetLocals)
  | freeLink (head last : Nat) (get : Option GetLocals)

/-- `next` and `len` are those of the cbufs, `holder` is the thread that has the semaphore, and `live`
are the chains that callers have. -/
structure CbufPool where
  next : Nat → Option Nat
  len : Nat → Nat
  bitmap : Nat → Bool
  free_list : Option Nat
  holder : Option Nat
  live : Nat → Option Nat
  calls : Nat → PoolCall

namespace CbufPool

def setCall (s : CbufPool) (i : Nat) (call : PoolCall) : CbufPool :=
  { s with calls := update s.calls i call }

def setNext (s : CbufPool) (buf : Nat) (next : Option Nat) : CbufPool :=
  { s with next := update s.next buf next }

/-- It does not touch the next pointer. -/
def initialize_cbuf (s : CbufPool) (buf : Nat) : CbufPool :=
  { s with len := update s.len buf DAT_LEN }

/-- The last cbuf of the chain gets the length that is asked for of it. -/
def trim (s : CbufPool) (g : GetLocals) : CbufPool :=
  match g.tail with
  | none => s
  | some tail => { s with len := update s.len tail (s.len tail - (g.chain_len - g.len)) }

/-- A chain is returned to the caller, who keeps it under the number `k`. -/
def keep (s : CbufPool) (k : Nat) (head : Option Nat) : CbufPool :=
  { s with live := update s.live k head }

/-! ## Allocating -/

/-- The loop over the last `left` bits. The bits it sets are those of the run it returns. -/
def findRun (bitmap : Nat → Bool) (size : Nat) : (left : Nat) → (start : Option Nat) →
    (len_found : Nat) → Option Nat × Nat
  | 0, start, len_found => (start, len_found)
  | left + 1, start, len_found =>
    let i := CBUF_BITMAP_SIZE - (left + 1)
    if ¬ bitmap i then
      if len_found + CBUF_LEN ≥ size then (some (start.getD i), len_found + CBUF_LEN)
      else findRun bitmap size left (some (start.getD i)) (len_found + CBUF_LEN)
    else if start.isSome then (start, len_found)
    else findRun bitmap size left start len_found

def setBits (bitmap : Nat → Bool) (start count : Nat) : Nat → Bool :=
  fun i => bitmap i || (start ≤ i && i < start + count)

/-- The first run of clear bits, with its size. -/
def cbuf_alloc (s : CbufPool) (size : Nat) : Option (Nat × Nat) × CbufPool :=
  match findRun s.bitmap size CBUF_BITMAP_SIZE none 0 with
  | (none, _) => (none, s)
  | (some start, len_found) =>
    (some (start, len_found), { s with bitmap := setBits s.bitmap start (len_found / CBUF_LEN) })

/-- What a thread does behind a call of `cbuf_free_chain`. -/
def afterFree : Option GetLocals → PoolCall
  | none => .idle
  | some g => .acquire g

/-- A chain is freed, if the pointer is not null. -/
def startFree (head : Option Nat) (get : Option GetLocals) : PoolCall :=
  match head with
  | none => afterFree get
  | some head => .clear head (some head) none get

/-! ## Steps -/

inductive PoolEvent where
  | cbuf_get_chain (i len : Nat)
  | cbuf_free_chain (i k : Nat)
  | allocate_cbuf_mem (i size : Nat)
  /-- A thread goes on; `fails` if it asks for fresh memory and there is none. -/
  | go (i : Nat) (fails : Bool) (k : Nat)

/-- What `allocate_cbuf_mem` returns to. -/
def returnMem (s : CbufPool) (i k : Nat) (head_buf : Option Nat) (get : Option GetLocals) :
    Option CbufPool :=
  match get with
  | none => if s.live k = none then some ((s.keep k head_buf).setCall i .idle) else none
  | some g =>
    match head_buf with
    | none => some (s.setCall i (startFree g.chain none))
    | some temp => some (s.setCall i (startFree (some temp) (some g)))

def go (s : CbufPool) (i : Nat) (fails : Bool) (k : Nat) : Option CbufPool :=
  match s.calls i with
  | .idle => none
  | .acquire g =>
    if s.holder = none then some ({ s with holder := some i }.setCall i (.take g)) else none
  | .take g =>
    if g.chain_len < g.len then
      match s.free_list with
      | none =>
        some ({ s with holder := none }.setCall i
          (.allocate (PAGE_ALIGN ALLOCATE_CHUNK) none none none 0 (some g)))
      | some temp =>
        some (({ s with free_list := s.next temp }.setNext temp g.chain).setCall i (.take {
          chain := some temp
          tail := if g.chain = none then some temp else g.tail
          chain_len := g.chain_len + s.len temp
          len := g.len }))
    else if s.live k = none then
      some ((({ s with holder := none }.trim g).keep k g.chain).setCall i .idle)
    else none
  | .allocate size head_buf last_buf buf 0 get =>
    if size > 0 ∧ ¬ fails then
      match s.cbuf_alloc size with
      | (none, s) => some (s.setCall i (.finish head_buf buf get))
      | (some (start, found_size), s) =>
        some (s.setCall i (.allocate (size - found_size) (some (head_buf.getD start)) last_buf
          (some start) (found_size / CBUF_LEN) get))
    else some (s.setCall i (.finish head_buf buf get))
  | .allocate size head_buf last_buf buf (left + 1) get =>
    buf.map fun buf =>
    let s := s.initialize_cbuf buf
    let s := (last_buf.map fun last => s.setNext last (some buf)).getD s
    s.setCall i (.allocate size head_buf (some buf) (some (buf + 1)) left get)
  | .finish head_buf buf get =>
    -- `buf` is the cbuf behind the last run
    ((buf.map fun buf => s.setNext buf none).getD s).returnMem i k head_buf get
  | .clear head (some buf) _ get =>
    some ((s.initialize_cbuf buf).setCall i (.clear head (s.next buf) (some buf) get))
  | .clear head none tail get => tail.map fun last => s.setCall i (.freeAcquire head last get)
  | .freeAcquire head last get =>
    if s.holder = none then some ({ s with holder := some i }.setCall i (.freeLink head last get))
    else none
  | .freeLink head last get =>
    some (({ s with free_list := some head, holder := none }.setNext last s.free_list).setCall i
      (afterFree get))

def step (s : CbufPool) : PoolEvent → Option CbufPool
  | .cbuf_get_chain i len =>
    match s.calls i with
    | .idle =>
      -- it panics for a length of 0
      if len = 0 then none else some (s.setCall i (.acquire ⟨none, none, 0, len⟩))
    | _ => none
  | .cbuf_free_chain i k =>
    match s.calls i with
    | .idle => some ((s.keep k none).setCall i (startFree (s.live k) none))
    | _ => none
  | .allocate_cbuf_mem i size =>
    match s.calls i with
    | .idle => some (s.setCall i (.allocate (PAGE_ALIGN size) none none none 0 none))
    | _ => none
  | .go i fails k => s.go i fails k

def Step (s : CbufPool) (e : PoolEvent) (s' : CbufPool) : Prop := s.step e = some s'

/-- The state in which `cbuf_init` allocates for the first time: the region is fresh memory. -/
def Init (s : CbufPool) : Prop :=
  (∀ buf, s.next buf = none) ∧ (∀ buf, s.bitmap buf = false) ∧ s.free_list = none ∧
    s.holder = none ∧ (∀ k, s.live k = none) ∧ ∀ i, s.calls i = .idle

/-! ## Owners -/

/-- The lists of a call: the chain it makes, the one it allocates or frees, and each cbuf of the run
that it has still to link. -/
inductive Part where
  | made
  | temp
  | fresh (buf : Nat)
deriving DecidableEq

inductive Owner where
  | free
  | live (k : Nat)
  | call (i : Nat) (part : Part)
deriving DecidableEq

/-- Where a list of a call begins. -/
def head : PoolCall → Part → Option Nat
  | .acquire g, .made => g.chain
  | .take g, .made => g.chain
  | .allocate _ _ _ _ _ get, .made => get.bind GetLocals.chain
  | .finish _ _ get, .made => get.bind GetLocals.chain
  | .clear _ _ _ get, .made => get.bind GetLocals.chain
  | .freeAcquire _ _ get, .made => get.bind GetLocals.chain
  | .freeLink _ _ get, .made => get.bind GetLocals.chain
  | .allocate _ head_buf last_buf _ _ _, .temp => last_buf.bind fun _ => head_buf
  | .finish head_buf _ _, .temp => head_buf
  | .clear head _ _ _, .temp => some head
  | .freeAcquire head _ _, .temp => some head
  | .freeLink head _ _, .temp => some head
  | .allocate _ _ _ buf left _, .fresh x =>
    buf.bind fun buf => if buf ≤ x ∧ x < buf + left then some x else none
  | _, _ => none

def heads (s : CbufPool) : Owner → Option Nat
  | .free => s.free_list
  | .live k => s.live k
  | .call i part => head (s.calls i) part

end CbufPool

end Kernel
