import OpenBeOS.Lib.Buckets
import OpenBeOS.Lib.Bytes

/-! # The hash table of the network stack (`nhash.c`)

The table keeps a pointer to each key, not the key; `mem` has the bytes behind the pointers. A
value is not `NULL`.
-/

namespace Nhash

open Bytes Function

variable {κ β : Type}

/-- `MAX_INITIAL`. -/
def MAX_INITIAL : Nat := 15

/-- `struct net_hash_entry`; its `next` is its successor in the chain. -/
structure Entry (κ β : Type) where
  hash : Nat
  key : κ
  klen : Nat
  val : β

/-- `struct net_hash`. -/
structure NetHash (κ β : Type) where
  array : Nat → List (Entry κ β)
  count : Nat
  max : Nat

/-- `memcmp(a, b, n) == 0`. -/
def SameBytes (a b : Buffer) (n : Nat) : Prop := ∀ i, i < n → a i = b i

instance (a b : Buffer) (n : Nat) : Decidable (SameBytes a b n) :=
  inferInstanceAs (Decidable (∀ i, i < n → a i = b i))

theorem SameBytes.symm {a b : Buffer} {n : Nat} (h : SameBytes a b n) : SameBytes b a n :=
  fun i hi => (h i hi).symm

theorem SameBytes.trans {a b c : Buffer} {n : Nat} (h : SameBytes a b n) (h' : SameBytes b c n) :
    SameBytes a c n :=
  fun i hi => (h i hi).trans (h' i hi)

/-- `hash = hash * 33 + *p` over the key, in an `int`. -/
def hashOf (key : Buffer) (klen : Nat) : Nat :=
  (List.range klen).foldl (fun hash i => (hash * 33 + (key i).toNat) % 2 ^ 32) 0

theorem hashOf_congr {key key' : Buffer} {klen : Nat} (h : SameBytes key key' klen) :
    hashOf key klen = hashOf key' klen := by
  unfold hashOf
  refine List.foldl_ext _ _ _ fun hash i hi => ?_
  rw [h i (List.mem_range.1 hi)]

/-- `nhash_make()`. -/
def nhash_make : NetHash κ β := ⟨fun _ => [], 0, MAX_INITIAL⟩

/-- What `find_entry()` looks for. -/
def Matches (mem : κ → Buffer) (key : Buffer) (klen : Nat) (he : Entry κ β) : Bool :=
  he.hash = hashOf key klen ∧ he.klen = klen ∧ SameBytes (mem he.key) key klen

/-- The bucket of a hash. -/
def slot (max : Nat) (he : Entry κ β) : Nat := he.hash &&& max

section

variable (nh : NetHash κ β)

/-- `find_entry()` without a value. -/
def find_entry (mem : κ → Buffer) (key : Buffer) (klen : Nat) :
    Option (Entry κ β) :=
  (nh.array (hashOf key klen &&& nh.max)).find? (Matches mem key klen)

def nhash_get (mem : κ → Buffer) (key : Buffer) (klen : Nat) : Option β :=
  (find_entry nh mem key klen).map Entry.val

/-- `expand_array()`: all entries, in the order of `nhash_next()`, go to the front of their new
buckets. -/
def expand_array : NetHash κ β :=
  { nh with
    array := Buckets.rehash (slot (nh.max * 2 + 1)) (Buckets.gather nh.array (nh.max + 1))
      fun _ => []
    max := nh.max * 2 + 1 }

/-- `find_entry()` with a value: "add a new linked-list entry" at the end of the chain. -/
def add_entry (he : Entry κ β) : NetHash κ β :=
  { nh with
    array := update nh.array (slot nh.max he) (nh.array (slot nh.max he) ++ [he])
    count := nh.count + 1 }

/-- `nhash_set()`; `key` is the pointer, `val` is `none` to delete an entry. -/
def nhash_set (mem : κ → Buffer) (key : κ) (klen : Nat) (val : Option β) :
    NetHash κ β :=
  let hash := hashOf (mem key) klen
  match find_entry nh mem (mem key) klen, val with
  | none, none => nh
  | none, some val =>
    let nh := add_entry nh ⟨hash, key, klen, val⟩
    if nh.count > nh.max then expand_array nh else nh
  | some _, none =>
    { nh with
      array := update nh.array (hash &&& nh.max)
        ((nh.array (hash &&& nh.max)).eraseP (Matches mem (mem key) klen))
      count := nh.count - 1 }
  | some _, some val =>
    let nh := { nh with
      array := update nh.array (hash &&& nh.max)
        ((nh.array (hash &&& nh.max)).replaceF fun he =>
          if Matches mem (mem key) klen he then some { he with val := val } else none) }
    if nh.count > nh.max then expand_array nh else nh

end

/-! ## What a table holds -/

/-- The table holds these entries, in any order. -/
structure Holds (nh : NetHash κ β) (es : List (Entry κ β)) : Prop where
  placed : Buckets.Placed (slot nh.max) nh.array (nh.max + 1)
  entries : (Buckets.gather nh.array (nh.max + 1)).Perm es

variable {nh : NetHash κ β} {mem : κ → Buffer} {es : List (Entry κ β)} {key : Buffer} {klen : Nat}

theorem nhash_make_holds : Holds (nhash_make : NetHash κ β) [] := by
  refine ⟨nofun, ?_⟩
  rw [nhash_make, Buckets.gather_empty]

theorem Holds.perm {es' : List (Entry κ β)} (h : Holds nh es) (hperm : es.Perm es') :
    Holds nh es' :=
  ⟨h.placed, h.entries.trans hperm⟩

theorem slot_lt (max : Nat) (he : Entry κ β) : slot max he < max + 1 :=
  Nat.lt_succ_of_le Nat.and_le_right

theorem find_entry_some {he : Entry κ β} (h : Holds nh es)
    (hfind : find_entry nh mem key klen = some he) : he ∈ es ∧ Matches mem key klen he = true := by
  have hmem := List.mem_of_find?_eq_some hfind
  have hplaced := h.placed _ he hmem
  refine ⟨h.entries.mem_iff.1 (Buckets.mem_gather.2 ⟨_, hplaced.2, hmem⟩), ?_⟩
  exact List.find?_some hfind

theorem find_entry_none (h : Holds nh es) (hfind : find_entry nh mem key klen = none) :
    ∀ he ∈ es, Matches mem key klen he = false := by
  intro he hhe
  by_contra hmatch
  have hmatch : Matches mem key klen he = true := by simpa using hmatch
  have hhash : he.hash = hashOf key klen := by
    simp only [Matches, decide_eq_true_eq] at hmatch
    exact hmatch.1
  have hbucket := h.placed.mem_bucket.2 (h.entries.mem_iff.2 hhe)
  rw [slot, hhash] at hbucket
  have hnone := List.find?_eq_none.1 hfind he hbucket
  exact hnone hmatch

theorem Holds.expand (h : Holds nh es) : Holds (expand_array nh) es := by
  refine ⟨?_, ?_⟩
  · exact Buckets.rehash_placed _ nofun fun he _ => slot_lt _ he
  · have hgather := @Buckets.rehash_gather _ (slot (nh.max * 2 + 1)) (nh.max * 2 + 1 + 1)
      (Buckets.gather nh.array (nh.max + 1)) (fun _ => []) fun he _ => slot_lt _ he
    rw [Buckets.gather_empty, List.append_nil] at hgather
    exact hgather.trans h.entries

theorem Holds.add (h : Holds nh es) (he : Entry κ β) : Holds (add_entry nh he) (he :: es) := by
  refine ⟨h.placed.update (slot_lt _ he) fun x hx => ?_, ?_⟩
  · rcases List.mem_append.1 hx with hx | hx
    · exact (h.placed _ x hx).1
    · rw [List.mem_singleton.1 hx]
  · exact (Buckets.gather_update_cons (slot_lt _ he)
      (@List.perm_append_comm _ _ [he])).trans (h.entries.cons he)

theorem Holds.nhash_set {k : κ} {val : β} (h : Holds nh es)
    (hnew : find_entry nh mem (mem k) klen = none) :
    Holds (nhash_set nh mem k klen (some val)) (⟨hashOf (mem k) klen, k, klen, val⟩ :: es) := by
  have hadd := h.add ⟨hashOf (mem k) klen, k, klen, val⟩
  unfold Nhash.nhash_set
  rw [hnew]
  simp only
  split
  · exact hadd.expand
  · exact hadd

end Nhash
