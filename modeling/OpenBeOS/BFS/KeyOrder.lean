import OpenBeOS.BFS.CompareKeys

/-! # The order of keys in memory

`compareKeys()` gets pointers: a key is followed by a NUL or by the next key of a node, and the
comparison of strings looks at the byte behind the shorter one. `compareKeysAt` is the function
on memory; what lies behind the keys makes no difference to it. On the integer and string types
it is a total order, save that the difference of two `int32` keys can overflow.
-/

namespace BFS

open Bytes

/-- A key as a function gets it: a pointer to its first byte and its length. -/
structure KeyRef where
  bytes : Buffer
  length : Nat

/-- The bytes that belong to the key. -/
def KeyRef.key (k : KeyRef) : Key := takeKey k.bytes k.length

@[simp] theorem KeyRef.key_length (k : KeyRef) : k.key.length = k.length := takeKey_length _ _

/-! ## The function on memory -/

/-- `strncmp()`, from the offset `i` on. -/
def strncmpAt (key1 key2 : Buffer) (i : Nat) : Nat → Int
  | 0 => 0
  | n + 1 =>
    if key1 i ≠ key2 i then ((key1 i).toNat : Int) - (key2 i).toNat
    else if key1 i = 0 then 0
    else strncmpAt key1 key2 (i + 1) n

/-- `*(int32 *)key` -/
def int32At (k : KeyRef) : Int := signed (2 ^ 31) (loadLE k.bytes 0 4)

/-- `*(uint32 *)key` -/
def uint32At (k : KeyRef) : Int := loadLE k.bytes 0 4

/-- `*(int64 *)key` -/
def int64At (k : KeyRef) : Int := signed (2 ^ 63) (loadLE k.bytes 0 8)

/-- `*(uint64 *)key` -/
def uint64At (k : KeyRef) : Int := loadLE k.bytes 0 8

/-- `compareKeys()` of two pointers that are not `NULL`. -/
def compareKeysAt (type : KeyType) (key1 key2 : KeyRef) : Int :=
  match type with
  | .STRING_TYPE =>
    let len := min key1.length key2.length
    let result := strncmpAt key1.bytes key2.bytes 0 len
    if result = 0 ∧ ¬(key1.bytes len = 0 ∧ key2.bytes len = 0) then
      (key1.length : Int) - key2.length
    else result
  | .INT32_TYPE => wrapInt32 (int32At key1 - int32At key2)
  | .UINT32_TYPE => compareValues (uint32At key1) (uint32At key2)
  | .INT64_TYPE => compareValues (int64At key1) (int64At key2)
  | .UINT64_TYPE => compareValues (uint64At key1) (uint64At key2)
  | .FLOAT_TYPE => floatSign (2 ^ 31) floatInfinity (loadLE key1.bytes 0 4) (loadLE key2.bytes 0 4)
  | .DOUBLE_TYPE =>
    floatSign (2 ^ 63) doubleInfinity (loadLE key1.bytes 0 8) (loadLE key2.bytes 0 8)

/-! ## Only the bytes of the keys count -/

theorem range_map_succ (m : Buffer) (i n : Nat) : ((List.range (n + 1)).map fun j => m (i + j)) =
      m i :: (List.range n).map fun j => m (i + 1 + j) := by
  rw [List.range_succ_eq_map, List.map_cons, List.map_map]
  congr 1
  apply List.map_congr_left
  intro j _
  simp only [Function.comp_apply, Nat.succ_eq_add_one]
  congr 1
  omega

theorem keyNat_range_map (m : Buffer) (i w : Nat) :
    keyNat w ((List.range w).map fun j => m (i + j)) = loadLE m i w := by
  induction w generalizing i with
  | zero => rfl
  | succ w ih => rw [range_map_succ, keyNat_cons, ih, loadLE]

variable {type : KeyType} {k : KeyRef}

theorem keyNat_key {w : Nat} (h : k.key.length = w) : keyNat w k.key = loadLE k.bytes 0 w := by
  have hlength : k.length = w := by simpa using h
  have hwindow := keyNat_range_map k.bytes 0 w
  simp only [Nat.zero_add] at hwindow
  rw [KeyRef.key, hlength]
  exact hwindow

theorem strncmp_range_map (key1 key2 : Buffer) (n : Nat) :
    ∀ i length1 length2 : Nat, n ≤ length1 → n ≤ length2 →
      strncmp n ((List.range length1).map fun j => key1 (i + j))
          ((List.range length2).map fun j => key2 (i + j)) =
        strncmpAt key1 key2 i n := by
  induction n with
  | zero =>
    intro i length1 length2 _ _
    simp [strncmp, strncmpAt]
  | succ n ih =>
    intro i length1 length2 h1 h2
    obtain ⟨rest1, rfl⟩ : ∃ rest, length1 = rest + 1 := ⟨length1 - 1, by omega⟩
    obtain ⟨rest2, rfl⟩ : ∃ rest, length2 = rest + 1 := ⟨length2 - 1, by omega⟩
    rw [range_map_succ, range_map_succ, strncmp, strncmpAt,
      ih (i + 1) rest1 rest2 (by omega) (by omega)]

theorem strncmp_key (k1 k2 : KeyRef) : strncmp (min k1.length k2.length) k1.key k2.key =
      strncmpAt k1.bytes k2.bytes 0 (min k1.length k2.length) := by
  have hwindow := strncmp_range_map k1.bytes k2.bytes (min k1.length k2.length) 0
    k1.length k2.length (Nat.min_le_left _ _) (Nat.min_le_right _ _)
  simp only [Nat.zero_add] at hwindow
  exact hwindow

theorem byte_ne_zero (h : 0 ∉ k.key) {i : Nat} (hi : i < k.length) : k.bytes i ≠ 0 := by
  intro hzero
  refine h (List.mem_map.2 ⟨i, List.mem_range.2 hi, hzero⟩)

theorem compareKeysAt_string {k1 k2 : KeyRef} (h1 : 0 ∉ k1.key) (h2 : 0 ∉ k2.key) :
    compareKeysAt .STRING_TYPE k1 k2 = compareStrings k1.key k2.key := by
  unfold compareKeysAt compareStrings
  simp only [KeyRef.key_length, strncmp_key]
  by_cases hzero : strncmpAt k1.bytes k2.bytes 0 (min k1.length k2.length) = 0
  · rw [if_pos hzero]
    by_cases hbytes : k1.bytes (min k1.length k2.length) = 0 ∧
        k2.bytes (min k1.length k2.length) = 0
    · rw [if_neg fun h => h.2 hbytes, hzero]
      have hle1 : k1.length ≤ min k1.length k2.length :=
        Nat.le_of_not_lt fun hlt => byte_ne_zero h1 hlt hbytes.1
      have hle2 : k2.length ≤ min k1.length k2.length :=
        Nat.le_of_not_lt fun hlt => byte_ne_zero h2 hlt hbytes.2
      omega
    · rw [if_pos ⟨hzero, hbytes⟩]
  · rw [if_neg hzero, if_neg fun h => hzero h.1]

theorem compareKeysAt_eq {k1 k2 : KeyRef} (h1 : ValidKey type k1.key)
    (h2 : ValidKey type k2.key) : compareKeysAt type k1 k2 = compareKeys type k1.key k2.key := by
  cases type with
  | STRING_TYPE => rw [compareKeysAt_string h1.2.2 h2.2.2, compareKeys_string h1.2.2 h2.2.2]
  | INT32_TYPE | UINT32_TYPE | INT64_TYPE | UINT64_TYPE | FLOAT_TYPE | DOUBLE_TYPE =>
    simp only [compareKeysAt, compareKeys, int32At, uint32At, int64At, uint64At,
      keyNat_key h1, keyNat_key h2]

/-! ## The order -/

/-- The value of an integer key. -/
def number? (type : KeyType) (k : KeyRef) : Option Int :=
  match type with
  | .INT32_TYPE => some (int32At k)
  | .UINT32_TYPE => some (uint32At k)
  | .INT64_TYPE => some (int64At k)
  | .UINT64_TYPE => some (uint64At k)
  | _ => none

/-- `compareKeys()` is a total order on a set of keys, for integers the numeric one. -/
structure TotalOrderOn (type : KeyType) (keys : Set KeyRef) : Prop where
  opposite : ∀ k1 ∈ keys, ∀ k2 ∈ keys,
    (compareKeysAt type k1 k2).sign = -(compareKeysAt type k2 k1).sign
  zero : ∀ k1 ∈ keys, ∀ k2 ∈ keys, compareKeysAt type k1 k2 = 0 ↔ k1.key = k2.key
  trans : ∀ k1 ∈ keys, ∀ k2 ∈ keys, ∀ k3 ∈ keys, compareKeysAt type k1 k2 ≤ 0 →
    compareKeysAt type k2 k3 ≤ 0 → compareKeysAt type k1 k3 ≤ 0
  numeric : ∀ k1 ∈ keys, ∀ k2 ∈ keys, ∀ n1 ∈ number? type k1, ∀ n2 ∈ number? type k2,
    (compareKeysAt type k1 k2 < 0 ↔ n1 < n2) ∧ (0 < compareKeysAt type k1 k2 ↔ n2 < n1)

/-- No two `int32` keys are 2³¹ or more apart. -/
def WithinRange (type : KeyType) (keys : Set KeyRef) : Prop :=
  type = .INT32_TYPE → ∀ k1 ∈ keys, ∀ k2 ∈ keys, int32At k1 - int32At k2 < 2 ^ 31

/-- A comparison that answers by the ranks of the keys orders them as the ranks are ordered. -/
theorem order_of_decides {keys : Set KeyRef}
    (h : ∀ k1 ∈ keys, ∀ k2 ∈ keys, Decides type k1.key k2.key)
    (heq : ∀ k1 ∈ keys, ∀ k2 ∈ keys, compareKeysAt type k1 k2 = compareKeys type k1.key k2.key)
    (hrank : ∀ k ∈ keys, ∀ n ∈ number? type k, rank type k.key = [n]) :
    TotalOrderOn type keys where
  opposite := by
    intro k1 h1 k2 h2
    rw [heq k1 h1 k2 h2, heq k2 h2 k1 h1]
    have hneg := (h k1 h1 k2 h2).neg.trans (h k2 h2 k1 h1).pos.symm
    have hpos := (h k1 h1 k2 h2).pos.trans (h k2 h2 k1 h1).neg.symm
    rcases Int.lt_trichotomy (compareKeys type k1.key k2.key) 0 with hlt | hzero | hgt
    · rw [Int.sign_eq_neg_one_of_neg hlt, Int.sign_eq_one_of_pos (hneg.1 hlt)]
    · have hswap : compareKeys type k2.key k1.key = 0 := by omega
      rw [hzero, hswap]
      rfl
    · rw [Int.sign_eq_one_of_pos hgt, Int.sign_eq_neg_one_of_neg (hpos.1 hgt)]
      rfl
  zero := by
    intro k1 h1 k2 h2
    rw [heq k1 h1 k2 h2]
    exact (h k1 h1 k2 h2).zero
  trans := by
    intro k1 h1 k2 h2 k3 h3 h12 h23
    rw [heq k1 h1 k2 h2] at h12
    rw [heq k2 h2 k3 h3] at h23
    rw [heq k1 h1 k3 h3]
    have hle12 : rank type k1.key ≤ rank type k2.key :=
      not_lt.1 fun hlt => absurd ((h k1 h1 k2 h2).pos.2 hlt) (by omega)
    have hle23 : rank type k2.key ≤ rank type k3.key :=
      not_lt.1 fun hlt => absurd ((h k2 h2 k3 h3).pos.2 hlt) (by omega)
    have hle13 := le_trans hle12 hle23
    by_contra hgt
    exact absurd ((h k1 h1 k3 h3).pos.1 (by omega)) (not_lt.2 hle13)
  numeric := by
    intro k1 h1 k2 h2 n1 hn1 n2 hn2
    rw [heq k1 h1 k2 h2, (h k1 h1 k2 h2).neg, (h k1 h1 k2 h2).pos, hrank k1 h1 n1 hn1,
      hrank k2 h2 n2 hn2, singleton_lt, singleton_lt]
    exact ⟨Iff.rfl, Iff.rfl⟩

theorem rank_of_number (hvalid : ValidKey type k.key) {n : Int}
    (hn : n ∈ number? type k) : rank type k.key = [n] := by
  cases type with
  | STRING_TYPE | FLOAT_TYPE | DOUBLE_TYPE => simp [number?] at hn
  | INT32_TYPE | UINT32_TYPE | INT64_TYPE | UINT64_TYPE =>
    simp only [number?, Option.mem_some_iff] at hn
    rw [rank, keyNat_key hvalid, ← hn]
    rfl

theorem int32At_bounds (k : KeyRef) : -2 ^ 31 ≤ int32At k ∧ int32At k < 2 ^ 31 := by
  have hlt := loadLE_lt k.bytes 0 4
  unfold int32At signed
  split <;> omega

/-- The keys of every integer and string type are totally ordered exactly when no difference of
`int32` keys overflows. -/
theorem totalOrderOn_iff {type : KeyType} {keys : Set KeyRef}
    (htype : type ≠ .FLOAT_TYPE ∧ type ≠ .DOUBLE_TYPE)
    (hvalid : ∀ k ∈ keys, ValidKey type k.key) :
    TotalOrderOn type keys ↔ WithinRange type keys := by
  constructor
  · rintro horder rfl k1 h1 k2 h2
    -- a difference from 2³¹ on is taken for a negative one
    by_contra hfar
    obtain ⟨-, hpos⟩ := horder.numeric k1 h1 k2 h2 _ rfl _ rfl
    have hbounds1 := int32At_bounds k1
    have hbounds2 := int32At_bounds k2
    have hgreater := hpos.2 (by omega)
    simp only [compareKeysAt, wrapInt32] at hgreater
    omega
  · intro hrange
    refine order_of_decides ?_ ?_ fun k h n hn => rank_of_number (hvalid k h) hn
    · intro k1 h1 k2 h2
      refine decides_of_comparable (hvalid k1 h1) (hvalid k2 h2) ?_
      cases type with
      | FLOAT_TYPE => exact absurd rfl htype.1
      | DOUBLE_TYPE => exact absurd rfl htype.2
      | STRING_TYPE | UINT32_TYPE | INT64_TYPE | UINT64_TYPE => trivial
      | INT32_TYPE =>
        have hbelow := hrange rfl k1 h1 k2 h2
        have habove := hrange rfl k2 h2 k1 h1
        rw [Comparable, keyNat_key (hvalid k1 h1), keyNat_key (hvalid k2 h2)]
        unfold int32At at hbelow habove
        omega
    · intro k1 h1 k2 h2
      exact compareKeysAt_eq (hvalid k1 h1) (hvalid k2 h2)

/-- The key of the given bytes, with NULs behind it. -/
def keyOf (bytes : List UInt8) : KeyRef := ⟨fun i => bytes.getD i 0, bytes.length⟩

/-- Three keys `a`, `ab` and `b`: the first is followed by the second in its node. -/
theorem totalOrderOn_strings : TotalOrderOn .STRING_TYPE
      {⟨fun i => [97, 97, 98].getD i 0, 1⟩, keyOf [97, 98], keyOf [98]} := by
  refine (totalOrderOn_iff (by decide) ?_).2 fun h => by cases h
  rintro k (rfl | rfl | rfl)
  · exact ⟨by decide, by decide, by decide⟩
  · exact ⟨by decide, by decide, by decide⟩
  · exact ⟨by decide, by decide, by decide⟩

/-- The difference of -2³¹ and 1 is a positive `int32`: the comparison takes the least number for
the greater one. -/
theorem int32_difference_overflows :
    ¬ ∀ keys : Set KeyRef, (∀ k ∈ keys, ValidKey .INT32_TYPE k.key) →
      TotalOrderOn .INT32_TYPE keys := by
  intro h
  have horder := h {keyOf [0, 0, 0, 0x80], keyOf [1, 0, 0, 0]} (by
    rintro k (rfl | rfl)
    · rfl
    · rfl)
  obtain ⟨hneg, -⟩ := horder.numeric (keyOf [0, 0, 0, 0x80]) (.inl rfl) (keyOf [1, 0, 0, 0])
    (.inr rfl) (-2 ^ 31) (by decide) 1 (by decide)
  exact absurd (hneg.2 (by decide)) (by decide)

end BFS
