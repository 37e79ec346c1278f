import OpenBeOS.Net.ArpCache

/-! # Packets that wait for ARP (`arp.c`)

`arp_resolve()` puts a packet for an address that the cache does not have into the lookup queue, a
reply for the address calls it back, and `arpq_run()` repeats the request and gives up in the end.
The entries of the queue are `malloc()`ed. A function fails where it follows a pointer to an entry
that has been freed. `arpq_lock` keeps `arpq_run()` and the replies apart, and the calls are taken to
follow each other; what `arp_input()` copies over `ptr`, and beyond the end of the entry, is not
followed, and neither is the `mbuf` behind a packet.
-/

namespace Arp

open Bytes Nhash

/-- `ARP_WAITING` and `ARP_COMPLETE`. -/
def ARP_WAITING : Nat := 0
def ARP_COMPLETE : Nat := 1

/-- What a lookup comes to. -/
inductive Lookup where
  | ARP_LOOKUP_OK
  | ARP_LOOKUP_QUEUED
  | ARP_LOOKUP_FAILED
  deriving DecidableEq

/-- "seconds between arp flooding (20 secs)". -/
def arp_noflood : Nat := 20

/-- "max tries before a pause". -/
def arp_maxtries : Int := 5

def AF_INET : Nat := 2

/-- `n++` of an `int`. -/
def incr (n : Int) : Int := if n = 2 ^ 31 - 1 then -2 ^ 31 else n + 1

/-- `struct arp_q_entry`; `tgt` is a `struct sockaddr_in`. -/
structure QEntry where
  next : Option Nat
  buf : Nat
  rt : Nat
  sin_family : Nat
  sin_addr : Buffer
  attempts : Int
  lasttx : Nat
  status : Nat
  callback : Nat

/-- A call of an entry's callback. -/
structure Called where
  callback : Nat
  result : Lookup
  buf : Nat
  deriving DecidableEq

/-- The cache, the entries of the queue, the blocks that `malloc()` has handed out, the interfaces of
the routes and their `RTF_REJECT`. `called` are the callbacks, and `due` the packets whose last
request was found to be too long ago, of the current call. -/
structure State where
  cache : Cache
  queue : Nat → QEntry
  arp_lookup_q : Option Nat
  allocated : List Nat
  rt_ifp : Nat → Option Nat
  reject : Nat → Bool
  called : List Called
  due : List Nat

namespace State

def update (s : State) (aqe : Nat) (f : QEntry → QEntry) : State :=
  { s with queue := Function.update s.queue aqe (f (s.queue aqe)) }

/-- `aqe->callback(result, aqe->buf)`. -/
def callback (s : State) (aqe : Nat) (result : Lookup) : State :=
  { s with called := s.called ++ [⟨(s.queue aqe).callback, result, (s.queue aqe).buf⟩] }

/-- A walk through entries that are all allocated comes to an end sooner. -/
def fuel (s : State) : Nat := s.allocated.length + 1

/-! ## Requests -/

/-- `arp_send_request()`; what it writes into the packet is left out. -/
def arp_send_request (s : State) (aqe now : Nat) : State :=
  if s.rt_ifp (s.queue aqe).rt = none then s
  else if (s.queue aqe).sin_family ≠ AF_INET then s
  else
    let s := s.update aqe fun e =>
      { e with status := ARP_WAITING, lasttx := now, attempts := incr e.attempts }
    { s with reject := Function.update s.reject (s.queue aqe).rt true }

/-- The scan of `arp_resolve()`: is there an entry for the address? -/
def findEntry (s : State) (addr : Buffer) : Nat → Option Nat → Option Bool
  | 0, _ => none
  | _ + 1, none => some false
  | fuel + 1, some aqe =>
    if aqe ∉ s.allocated then none
    else if SameBytes (s.queue aqe).sin_addr addr 4 then some true
    else findEntry s addr fuel (s.queue aqe).next

end State

/-- What is passed to `arp_resolve()`. -/
structure Asked where
  buf : Nat
  rt : Nat
  sin_family : Nat
  sin_addr : Buffer
  callback : Nat

namespace State

/-- The second part of `arp_resolve()`: a new entry in front of the others. `block` is what
`malloc()` returns, and `garbage` is what was in it before. -/
def enqueue (s : State) (a : Asked) (block : Nat) (garbage : QEntry) (now : Nat) : State :=
  let s := s.update block fun _ =>
    { garbage with
      buf := a.buf
      sin_family := a.sin_family
      sin_addr := a.sin_addr
      rt := a.rt
      callback := a.callback
      next := s.arp_lookup_q }
  let s := { s with arp_lookup_q := some block, allocated := block :: s.allocated }
  s.arp_send_request block now

def resolve (s : State) (a : Asked) (block : Nat) (garbage : QEntry) (now : Nat) :
    Option (State × Lookup) :=
  match arp_resolve s.cache a.sin_addr now with
  | (cache, some _) => some ({ s with cache }, .ARP_LOOKUP_OK)
  | (_, none) => do
    let found ← s.findEntry a.sin_addr s.fuel s.arp_lookup_q
    some (if found then s else s.enqueue a block garbage now, .ARP_LOOKUP_QUEUED)

/-! ## Replies -/

/-- An entry is called back; the next pass of `arpq_run()` will remove it. -/
def complete (s : State) (aqe : Nat) : State :=
  let s := { s with reject := Function.update s.reject (s.queue aqe).rt false }
  let s := s.callback aqe .ARP_LOOKUP_OK
  s.update aqe fun e => { e with status := ARP_COMPLETE }

/-- The scan of `arp_input()`, up to the first entry that does not wait. -/
def scanLoop (addr : Buffer) : Nat → Option Nat → State → Option State
  | 0, _, _ => none
  | _ + 1, none, s => some s
  | fuel + 1, some aqe, s =>
    if aqe ∉ s.allocated then none
    else if (s.queue aqe).status = ARP_WAITING then
      let s := if SameBytes (s.queue aqe).sin_addr addr 4 then s.complete aqe else s
      scanLoop addr fuel (s.queue aqe).next s
    else some s

/-- An accepted reply; the queue is looked at if the cache got a new entry. -/
def reply (s : State) (link addr : Buffer) (now fresh : Nat) : Option State := do
  let cache ← insert_cache_entry s.cache link addr now fresh
  let added := (nhash_get s.cache.arphash s.cache.key addr 4).isNone
  let s := { s with cache }
  if added then scanLoop addr s.fuel s.arp_lookup_q s else some s

/-! ## The timer -/

/-- The head of the queue moves on if it is the entry, which is freed. -/
def remove (s : State) (temp : Nat) : State :=
  { s with
    arp_lookup_q := if s.arp_lookup_q = some temp then (s.queue temp).next else s.arp_lookup_q
    allocated := s.allocated.erase temp }

/-- `aqe->lasttx < real_time_clock() - arp_noflood`, without a sign. -/
def Late (e : QEntry) (now : Nat) : Prop := e.lasttx < (now + 2 ^ 32 - arp_noflood) % 2 ^ 32

instance (e : QEntry) (now : Nat) : Decidable (Late e now) := inferInstanceAs (Decidable (_ < _))

/-- "OK, so we're not yet done...": the number of attempts goes up. -/
def retry (s : State) (aqe : Nat) : State :=
  let s := { s with due := s.due ++ [(s.queue aqe).buf] }
  s.update aqe fun e => { e with attempts := incr e.attempts }

/-- The loop of `arpq_run()`; `clock i` is the time in round `i`. -/
def runLoop (clock : Nat → Nat) : Nat → Nat → Option Nat → State → Option State
  | 0, _, _, _ => none
  | _ + 1, _, none, s => some s
  | fuel + 1, i, some aqe, s =>
    if aqe ∉ s.allocated then none
    else if (s.queue aqe).status = ARP_COMPLETE then
      runLoop clock fuel (i + 1) (s.queue aqe).next (s.remove aqe)
    else if Late (s.queue aqe) (clock i) then
      let next := (s.queue aqe).next
      if (s.queue aqe).attempts > arp_maxtries then
        -- "No! we've run out of tries."
        runLoop clock fuel (i + 1) next
          (((s.retry aqe).callback aqe .ARP_LOOKUP_FAILED).remove aqe)
      else
        runLoop clock fuel (i + 1) next ((s.retry aqe).arp_send_request aqe (clock i))
    else runLoop clock fuel (i + 1) (s.queue aqe).next s

def arpq_run (s : State) (clock : Nat → Nat) : Option State :=
  runLoop clock s.fuel 0 s.arp_lookup_q s

end State

/-! ## Runs -/

inductive ArpCall where
  /-- A request is accepted, which only goes into the cache. -/
  | request (link addr : Buffer) (now fresh : Nat)
  | reply (link addr : Buffer) (now fresh : Nat)
  | resolve (a : Asked) (block : Nat) (garbage : QEntry) (now : Nat)
  | cleanse (clock : Nat → Nat) (fuel : Nat)
  | run (clock : Nat → Nat)

/-- What is seen of a call. -/
structure Step where
  call : ArpCall
  result : Option Lookup
  called : List Called
  due : List Nat

/-- A call, without what was seen of the one before. -/
def State.apply (s : State) (call : ArpCall) : Option (State × Option Lookup) :=
  match call with
  | .request link addr now fresh => do
    let cache ← insert_cache_entry s.cache link addr now fresh
    some ({ s with cache }, none)
  | .reply link addr now fresh => do
    let s ← s.reply link addr now fresh
    some (s, none)
  | .resolve a block garbage now => do
    let (s, result) ← s.resolve a block garbage now
    some (s, some result)
  | .cleanse clock fuel => do
    let cache ← arp_cleanse s.cache clock fuel
    some ({ s with cache }, none)
  | .run clock => do
    let s ← s.arpq_run clock
    some (s, none)

def State.step (s : State) (call : ArpCall) : Option (State × Step) := do
  let (s, result) ← { s with called := [], due := [] : State }.apply call
  some (s, ⟨call, result, s.called, s.due⟩)

/-- The call is one of `arp_resolve()` that says that the packet waits; `attempts` is what
`malloc()` left in a new entry. -/
def Step.Queued (step : Step) (a : Asked) (attempts : Int) : Prop :=
  ∃ block garbage now, step.call = .resolve a block garbage now ∧
    step.result = some .ARP_LOOKUP_QUEUED ∧ garbage.attempts = attempts

/-- The call is a reply from an address. -/
def Step.ReplyFrom (step : Step) (addr : Buffer) : Prop :=
  ∃ link sender now fresh, step.call = .reply link sender now fresh ∧ SameBytes sender addr 4

/-- The call is a run of the timer. -/
def Step.IsRun (step : Step) : Prop := ∃ clock, step.call = .run clock

/-- The callbacks of a packet. -/
def Step.calledFor (step : Step) (buf : Nat) : List Called :=
  step.called.filter fun c => c.buf = buf

/-- What happens to a packet from the time that it is put into the queue: it waits until a reply
from its address comes or a run of the timer gives up, which calls it back once; that is all.
The last argument is the answer, if there was one. -/
inductive Fate (a : Asked) : List Step → Option Lookup → Prop where
  | queued : Fate a [] none
  | waits {steps : List Step} {step : Step} : Fate a steps none → ¬step.ReplyFrom a.sin_addr →
      step.calledFor a.buf = [] → Fate a (steps ++ [step]) none
  | answered {steps : List Step} {step : Step} : Fate a steps none → step.ReplyFrom a.sin_addr →
      step.calledFor a.buf = [⟨a.callback, .ARP_LOOKUP_OK, a.buf⟩] →
      Fate a (steps ++ [step]) (some .ARP_LOOKUP_OK)
  | failed {steps : List Step} {step : Step} : Fate a steps none → step.IsRun →
      step.calledFor a.buf = [⟨a.callback, .ARP_LOOKUP_FAILED, a.buf⟩] →
      Fate a (steps ++ [step]) (some .ARP_LOOKUP_FAILED)
  | settled {steps : List Step} {step : Step} {result : Lookup} : Fate a steps (some result) →
      step.calledFor a.buf = [] → Fate a (steps ++ [step]) (some result)

end Arp
