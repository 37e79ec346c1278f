import OpenBeOS.Net.Nhash

/-! # The ARP cache (`arp.c`)

Cache entries come from a pool; each is in a hash table under its protocol address, and in a
circular list whose head is `arpcache`. An entry is named by its address, and `sa_data` is the part
of a `struct sockaddr` behind its length and family.
-/

namespace Arp

open Bytes Nhash

/-- `sizeof(struct sockaddr_in)`. -/
def sizeofSockaddrIn : Nat := 16

/-- "length of time we keep entries... (20 mins)". -/
def arp_keep : Nat := 1200

/-- `struct arp_cache_entry`. -/
structure CacheEntry where
  next : Option Nat
  prev : Option Nat
  /-- `ip_addr.sa_len` and `ip_addr.sa_data`. -/
  sa_len : Nat
  ip_addr : Buffer
  /-- `ll_addr.sa_data`. -/
  ll_addr : Buffer
  expires : Nat

/-- What is left of an entry after `memset(…, 0, …)`. -/
def CacheEntry.zero : CacheEntry := ⟨none, none, 0, fun _ => 0, fun _ => 0, 0⟩

/-- The cache and the part of the pool it uses: the free list, whose links lie where `next` does,
the entries that are handed out, and what was given to `pool_put()`. -/
structure Cache where
  entries : Nat → CacheEntry
  arpcache : Option Nat
  arphash : NetHash Nat Nat
  freelist : Option Nat
  out : List Nat
  returned : List Nat

/-- The cache after `arp_init()`. -/
def Cache.empty : Cache := ⟨fun _ => .zero, none, nhash_make, none, [], []⟩

section

variable (c : Cache)

/-- The keys of the hash table point into the entries. -/
def Cache.key (ace : Nat) : Buffer := (c.entries ace).ip_addr

def Cache.update (ace : Nat) (f : CacheEntry → CacheEntry) : Cache :=
  { c with entries := Function.update c.entries ace (f (c.entries ace)) }

/-! ## The pool -/

/-- `pool_get()`: from the free list, or a new block, which is `fresh`. -/
def Cache.pool_get (fresh : Nat) : Option (Cache × Nat) :=
  match c.freelist with
  | some ace => some ({ c with freelist := (c.entries ace).next, out := ace :: c.out }, ace)
  | none => if fresh ∈ c.out then none else some ({ c with out := fresh :: c.out }, fresh)

/-- `pool_put()`; there is no way back from `NULL`, whose block it clears. -/
def Cache.pool_put : Option Nat → Option Cache
  | none => none
  | some ace =>
    some { c.update ace fun _ => { CacheEntry.zero with next := c.freelist } with
      freelist := some ace
      out := c.out.erase ace
      returned := c.returned ++ [ace] }

/-! ## A packet arrives -/

/-- The new entry goes behind all others: `arpcache->prev` is the last one. -/
def Cache.append (ace : Nat) : Option Cache :=
  match c.arpcache with
  | some head => do
    let last ← (c.entries head).prev
    let c := c.update last fun e => { e with next := some ace }
    let c := c.update ace fun e => { e with prev := (c.entries head).prev }
    let c := c.update ace fun e => { e with next := some head }
    some (c.update head fun e => { e with prev := some ace })
  | none =>
    some { c.update ace fun e => { e with next := some ace, prev := some ace } with
      arpcache := some ace }

/-- `insert_cache_entry()` for the link address and the protocol address of an accepted packet;
`now` is `real_time_clock()`. -/
def insert_cache_entry (link addr : Buffer) (now fresh : Nat) : Option Cache :=
  match nhash_get c.arphash c.key addr 4 with
  | some ace =>
    if ¬SameBytes (c.entries ace).ll_addr link 6 then
      -- `alen` is still that of the protocol address
      some (c.update ace fun e =>
        { e with ll_addr := memcpy e.ll_addr 0 link 0 4, expires := (now + arp_keep) % 2 ^ 32 })
    else some c
  | none => do
    let (c, ace) ← c.pool_get fresh
    let c := c.update ace fun _ =>
      { CacheEntry.zero with
        sa_len := sizeofSockaddrIn
        ip_addr := memcpy (fun _ => 0) 0 addr 0 4
        ll_addr := memcpy (fun _ => 0) 0 link 0 6
        expires := (now + arp_keep) % 2 ^ 32 }
    let c ← c.append ace
    some { c with arphash := nhash_set c.arphash c.key ace 4 (some ace) }

/-! ## An address is looked up -/

/-- The first part of `arp_resolve()`: the link address, if the cache has it. -/
def arp_resolve (addr : Buffer) (now : Nat) : Cache × Option Buffer :=
  match nhash_get c.arphash c.key addr 4 with
  | some ace =>
    (c.update ace fun e => { e with expires := (now + arp_keep) % 2 ^ 32 },
      some (c.entries ace).ll_addr)
  | none => (c, none)

/-! ## Entries expire -/

/-- The entry is taken out of the list. -/
def Cache.unlink (ace : Nat) : Option Cache :=
  if (c.entries ace).next ≠ some ace then do
    let prev ← (c.entries ace).prev
    let c := c.update prev fun e => { e with next := (c.entries ace).next }
    let next ← (c.entries ace).next
    some (c.update next fun e => { e with prev := (c.entries ace).prev })
  else
    -- "we're probably the only entry..."
    some (c.update ace fun e => { e with next := none })

/-- An expired entry: the pool is given the entry behind it. -/
def Cache.expire (temp : Nat) : Option (Cache × Option Nat) := do
  let c ← c.unlink temp
  let ace := (c.entries temp).next
  let c := if c.arpcache = some temp then { c with arpcache := ace } else c
  let c := { c with
    arphash := nhash_set c.arphash c.key temp (c.entries temp).sa_len none }
  let c ← c.pool_put ace
  some (c, ace)

end

/-- The loop of `arp_cleanse()`; `clock i` is the time in round `i`. -/
def cleanseLoop (clock : Nat → Nat) : Nat → Nat → Option Nat → Cache → Option Cache
  | 0, _, _, _ => none
  | _ + 1, _, none, c => some c
  | fuel + 1, i, some ace, c =>
    if (c.entries ace).expires ≤ clock i then do
      let (c, ace) ← c.expire ace
      cleanseLoop clock fuel (i + 1) ace c
    else
      let ace := (c.entries ace).next
      if ace = c.arpcache then some c else cleanseLoop clock fuel (i + 1) ace c

def arp_cleanse (c : Cache) (clock : Nat → Nat) (fuel : Nat) : Option Cache :=
  cleanseLoop clock fuel 0 c.arpcache c

/-! ## Runs -/

inductive CacheCall where
  /-- An ARP request or reply is accepted. -/
  | packet (link addr : Buffer) (now fresh : Nat)
  | resolve (addr : Buffer) (now : Nat)
  /-- A run of the cleanser, of at most `fuel` rounds. -/
  | cleanse (clock : Nat → Nat) (fuel : Nat)

def Cache.call (c : Cache) : CacheCall → Option Cache
  | .packet link addr now fresh => insert_cache_entry c link addr now fresh
  | .resolve addr now => some (arp_resolve c addr now).1
  | .cleanse clock fuel => arp_cleanse c clock fuel

/-- The link address, if the call is a packet from this address. -/
def CacheCall.linkFrom (addr : Buffer) : CacheCall → Option Buffer
  | .packet link sender _ _ => if SameBytes sender addr 4 then some link else none
  | _ => none

/-- The link address in the last packet from an address. -/
def lastLink (addr : Buffer) : List CacheCall → Option Buffer
  | [] => none
  | call :: calls => (lastLink addr calls).or (call.linkFrom addr)

theorem lastLink_snoc (addr : Buffer) (calls : List CacheCall) (call : CacheCall) :
    lastLink addr (calls ++ [call]) = (call.linkFrom addr).or (lastLink addr calls) := by
  induction calls with
  | nil => simp [lastLink]
  | cons first calls ih => rw [List.cons_append, lastLink, ih, Option.or_assoc, lastLink]

end Arp
