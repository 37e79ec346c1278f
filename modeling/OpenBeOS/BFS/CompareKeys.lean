import OpenBeOS.BFS.Definitions
import OpenBeOS.BFS.Packed

/-! # Comparing keys

`compareKeys()` decides by the type of the tree. `rank` is the order that is meant: strings by
their bytes, numbers by their value. `Decides` says that the comparison of two keys answers by
this order; the subtraction of `int32` keys can overflow, and then it does not.
-/

namespace BFS

open List

/-- `bplustree_types`. -/
inductive KeyType where
  | STRING_TYPE
  | INT32_TYPE
  | UINT32_TYPE
  | INT64_TYPE
  | UINT64_TYPE
  | FLOAT_TYPE
  | DOUBLE_TYPE
  deriving DecidableEq

/-! ## The numbers in a key -/

/-- The little-endian number in the first `w` bytes. -/
def keyNat (w : Nat) (key : Key) : Nat := (key.take w).foldr (fun b n => b.toNat + 256 * n) 0

/-- A bit pattern of `2 * half` values as a two's complement number. -/
def signed (half : Int) (n : Nat) : Int := if (n : Int) < half then n else n - 2 * half

/-- The bits of an IEEE number as its place in the order of these numbers (both zeros at 0):
sign and magnitude. -/
def floatPlace (half : Int) (n : Nat) : Int := if (n : Int) < half then n else half - n

/-- The sign of the difference of two IEEE numbers. `infinity` is the magnitude of an infinity,
behind it are those of the NaNs; `∞ - ∞` is a NaN, and a NaN is neither 0 nor below 0. -/
def floatSign (half infinity : Int) (n m : Nat) : Int :=
  if |floatPlace half n| > infinity ∨ |floatPlace half m| > infinity ∨
      (|floatPlace half n| = infinity ∧ floatPlace half n = floatPlace half m) then 1
  else if floatPlace half n = floatPlace half m then 0
  else if floatPlace half n < floatPlace half m then -1
  else 1

def floatInfinity : Int := 0x7f800000
def doubleInfinity : Int := 0x7ff0000000000000

/-! ## compareKeys -/

/-- `strncmp()`. -/
def strncmp : Nat → Key → Key → Int
  | n + 1, a :: key1, b :: key2 =>
    if a ≠ b then (a.toNat : Int) - b.toNat
    else if a = 0 then 0
    else strncmp n key1 key2
  | _, _, _ => 0

/-- The three-way comparison of the cases for `uint32`, `int64` and `uint64`. -/
def compareValues (v1 v2 : Int) : Int :=
  if v1 = v2 then 0 else if v1 > v2 then 1 else -1

/-- `compareKeys()`. The byte behind a key is only looked at when the keys agree up to there; of
two keys of the same length it makes no difference. -/
def compareKeys (type : KeyType) (key1 key2 : Key) : Int :=
  match type with
  | .STRING_TYPE =>
    let len := min key1.length key2.length
    let result := strncmp len key1 key2
    if result = 0 ∧ ¬(key1.getD len 0 = 0 ∧ key2.getD len 0 = 0) then
      (key1.length : Int) - key2.length
    else result
  | .INT32_TYPE => wrapInt32 (signed (2 ^ 31) (keyNat 4 key1) - signed (2 ^ 31) (keyNat 4 key2))
  | .UINT32_TYPE => compareValues (keyNat 4 key1) (keyNat 4 key2)
  | .INT64_TYPE => compareValues (signed (2 ^ 63) (keyNat 8 key1)) (signed (2 ^ 63) (keyNat 8 key2))
  | .UINT64_TYPE => compareValues (keyNat 8 key1) (keyNat 8 key2)
  | .FLOAT_TYPE => floatSign (2 ^ 31) floatInfinity (keyNat 4 key1) (keyNat 4 key2)
  | .DOUBLE_TYPE => floatSign (2 ^ 63) doubleInfinity (keyNat 8 key1) (keyNat 8 key2)

/-! ## The order that is meant -/

/-- What a key stands for; ranks are compared lexicographically. -/
def rank (type : KeyType) (key : Key) : List Int :=
  match type with
  | .STRING_TYPE => key.map fun b => (b.toNat : Int)
  | .INT32_TYPE => [signed (2 ^ 31) (keyNat 4 key)]
  | .UINT32_TYPE => [(keyNat 4 key : Int)]
  | .INT64_TYPE => [signed (2 ^ 63) (keyNat 8 key)]
  | .UINT64_TYPE => [(keyNat 8 key : Int)]
  | .FLOAT_TYPE => [floatPlace (2 ^ 31) (keyNat 4 key)]
  | .DOUBLE_TYPE => [floatPlace (2 ^ 63) (keyNat 8 key)]

/-- The comparison of the two keys answers by their ranks, and 0 only for equal keys. -/
structure Decides (type : KeyType) (key1 key2 : Key) : Prop where
  neg : compareKeys type key1 key2 < 0 ↔ rank type key1 < rank type key2
  pos : 0 < compareKeys type key1 key2 ↔ rank type key2 < rank type key1
  zero : compareKeys type key1 key2 = 0 ↔ key1 = key2

/-- The keys a tree of this type is used with. -/
def ValidKey (type : KeyType) (key : Key) : Prop :=
  match type with
  | .STRING_TYPE =>
    BPLUSTREE_MIN_KEY_LENGTH ≤ key.length ∧ key.length ≤ BPLUSTREE_MAX_KEY_LENGTH ∧ 0 ∉ key
  | .INT32_TYPE | .UINT32_TYPE | .FLOAT_TYPE => key.length = 4
  | .INT64_TYPE | .UINT64_TYPE | .DOUBLE_TYPE => key.length = 8

/-! ## Strings -/

/-- The lengths decide between strings of which one begins with the other. -/
def compareStrings (key1 key2 : Key) : Int :=
  if strncmp (min key1.length key2.length) key1 key2 = 0 then (key1.length : Int) - key2.length
  else strncmp (min key1.length key2.length) key1 key2

variable {key1 key2 : Key}

theorem compareKeys_string (h1 : 0 ∉ key1) (h2 : 0 ∉ key2) :
    compareKeys .STRING_TYPE key1 key2 = compareStrings key1 key2 := by
  unfold compareKeys compareStrings
  simp only
  by_cases hzero : strncmp (min key1.length key2.length) key1 key2 = 0
  · rw [if_pos hzero]
    by_cases hbytes : key1.getD (min key1.length key2.length) 0 = 0 ∧
        key2.getD (min key1.length key2.length) 0 = 0
    · -- the byte behind the shorter key is not a NUL inside the longer one
      rw [if_neg fun h => h.2 hbytes, hzero]
      have hinside : ∀ (key : Key) (n : Nat), 0 ∉ key → key.getD n 0 = 0 → key.length ≤ n := by
        intro key n hkey hn
        by_contra hlt
        rw [getD_eq_getElem?_getD, List.getElem?_eq_getElem (Nat.lt_of_not_le hlt),
          Option.getD_some] at hn
        exact hkey (hn ▸ getElem_mem _)
      have hle1 := hinside key1 _ h1 hbytes.1
      have hle2 := hinside key2 _ h2 hbytes.2
      omega
    · rw [if_pos ⟨hzero, hbytes⟩]
  · rw [if_neg hzero, if_neg fun h => hzero h.1]

theorem compareStrings_cons {a b : UInt8} (ha : a ≠ 0) (key1 key2 : Key) :
    compareStrings (a :: key1) (b :: key2) =
      if a ≠ b then (a.toNat : Int) - b.toNat else compareStrings key1 key2 := by
  unfold compareStrings
  simp only [length_cons, Nat.succ_min_succ, strncmp]
  by_cases hab : a = b
  · rw [if_neg (not_not.2 hab), if_neg (not_not.2 hab), if_neg ha]
    simp
  · have hne : (a.toNat : Int) - b.toNat ≠ 0 := by
      intro h
      exact hab (UInt8.toNat_inj.1 (by omega))
    rw [if_pos hab, if_pos hab, if_neg hne]

/-- Comparing strings is comparing their bytes lexicographically. -/
theorem compareStrings_spec (h1 : 0 ∉ key1) : (compareStrings key1 key2 < 0 ↔
        rank .STRING_TYPE key1 < rank .STRING_TYPE key2) ∧
      (0 < compareStrings key1 key2 ↔ rank .STRING_TYPE key2 < rank .STRING_TYPE key1) ∧
      (compareStrings key1 key2 = 0 ↔ key1 = key2) := by
  induction key1 generalizing key2 with
  | nil =>
    cases key2 with
    | nil => simp [compareStrings, strncmp]
    | cons b key2 =>
      simp only [compareStrings, strncmp, rank, length_nil, length_cons,
        map_nil, map_cons, Nat.zero_min, if_true]
      refine ⟨⟨fun _ => nil_lt_cons _ _, fun _ => by omega⟩,
        ⟨fun h => by omega, fun h => absurd h (not_lt_nil _)⟩,
        ⟨fun h => by omega, fun h => by cases h⟩⟩
  | cons a key1 ih =>
    have ha : a ≠ 0 := fun h => h1 (by simp [h])
    cases key2 with
    | nil =>
      simp only [compareStrings, strncmp, rank, length_nil, length_cons,
        map_nil, map_cons, Nat.min_zero, if_true]
      refine ⟨⟨fun h => by omega, fun h => absurd h (not_lt_nil _)⟩,
        ⟨fun _ => nil_lt_cons _ _, fun _ => by omega⟩,
        ⟨fun h => by omega, fun h => by cases h⟩⟩
    | cons b key2 =>
      obtain ⟨ihneg, ihpos, ihzero⟩ := @ih key2 fun h => h1 (by simp [h])
      rw [compareStrings_cons ha]
      simp only [rank, map_cons, cons_lt_cons_iff] at ihneg ihpos ⊢
      by_cases hab : a = b
      · subst hab
        rw [if_neg (by simp)]
        simp [ihneg, ihpos, ihzero]
      · have hne : a.toNat ≠ b.toNat := fun h => hab (UInt8.toNat_inj.1 h)
        rw [if_pos hab]
        refine ⟨by omega, by omega, ⟨fun h => by omega, fun h => ?_⟩⟩
        exact absurd (List.cons.inj h).1 hab

theorem decides_string (h1 : 0 ∉ key1) (h2 : 0 ∉ key2) : Decides .STRING_TYPE key1 key2 := by
  obtain ⟨hneg, hpos, hzero⟩ := @compareStrings_spec key1 key2 h1
  constructor <;> rw [compareKeys_string h1 h2]
  · exact hneg
  · exact hpos
  · exact hzero

/-! ## Numbers -/

theorem keyNat_nil (w : Nat) : keyNat w [] = 0 := by simp [keyNat]

theorem keyNat_cons (w : Nat) (b : UInt8) (key : Key) :
    keyNat (w + 1) (b :: key) = b.toNat + 256 * keyNat w key := rfl

theorem keyNat_lt (w : Nat) (key : Key) : keyNat w key < 256 ^ w := by
  induction w generalizing key with
  | zero => simp [keyNat]
  | succ w ih =>
    cases key with
    | nil =>
      rw [keyNat_nil]
      exact Nat.pow_pos (by omega)
    | cons b key =>
      have hb := b.toNat_lt
      have hrest := ih key
      rw [keyNat_cons, Nat.pow_succ]
      omega

theorem keyNat_inj {w : Nat} (h1 : key1.length = w) (h2 : key2.length = w)
    (h : keyNat w key1 = keyNat w key2) : key1 = key2 := by
  induction w generalizing key1 key2 with
  | zero => rw [eq_nil_of_length_eq_zero h1, eq_nil_of_length_eq_zero h2]
  | succ w ih =>
    obtain ⟨a, key1, rfl⟩ := exists_cons_of_length_eq_add_one h1
    obtain ⟨b, key2, rfl⟩ := exists_cons_of_length_eq_add_one h2
    have ha := a.toNat_lt
    have hb := b.toNat_lt
    rw [keyNat_cons, keyNat_cons] at h
    have hab : a = b := UInt8.toNat_inj.1 (by omega)
    have hkeys : key1 = key2 := ih (by simpa using h1) (by simpa using h2) (by omega)
    rw [hab, hkeys]

theorem compareValues_spec (v1 v2 : Int) :
    (compareValues v1 v2 < 0 ↔ v1 < v2) ∧ (0 < compareValues v1 v2 ↔ v2 < v1) ∧
      (compareValues v1 v2 = 0 ↔ v1 = v2) := by
  unfold compareValues
  split
  · omega
  · split <;> omega

theorem singleton_lt {a b : Int} : ([a] : List Int) < [b] ↔ a < b := by
  simp [cons_lt_cons_iff]

theorem Decides.of_values {type : KeyType} {w : Nat} {v : Nat → Int}
    (hrank : ∀ key, rank type key = [v (keyNat w key)])
    (hinj : v (keyNat w key1) = v (keyNat w key2) → keyNat w key1 = keyNat w key2)
    (h1 : key1.length = w) (h2 : key2.length = w)
    (hneg : compareKeys type key1 key2 < 0 ↔ v (keyNat w key1) < v (keyNat w key2))
    (hpos : 0 < compareKeys type key1 key2 ↔ v (keyNat w key2) < v (keyNat w key1)) :
    Decides type key1 key2 where
  neg := by rw [hneg, hrank, hrank, singleton_lt]
  pos := by rw [hpos, hrank, hrank, singleton_lt]
  zero := by
    constructor
    · intro hzero
      refine keyNat_inj h1 h2 (hinj ?_)
      omega
    · rintro rfl
      omega

theorem signed_inj {half : Int} {n m : Nat} (hn : (n : Int) < 2 * half) (hm : (m : Int) < 2 * half)
    (h : signed half n = signed half m) : n = m := by
  unfold signed at h
  split at h <;> split at h <;> omega

/-- The comparison of the type is right for the two keys: the difference of `int32` keys is an
`int32`, and floating point keys are numbers, not equal infinities and not zeros of different
sign. -/
def Comparable (type : KeyType) (key1 key2 : Key) : Prop :=
  match type with
  | .INT32_TYPE =>
    -2 ^ 31 ≤ signed (2 ^ 31) (keyNat 4 key1) - signed (2 ^ 31) (keyNat 4 key2) ∧
      signed (2 ^ 31) (keyNat 4 key1) - signed (2 ^ 31) (keyNat 4 key2) < 2 ^ 31
  | .FLOAT_TYPE | .DOUBLE_TYPE => Decides type key1 key2
  | _ => True

theorem decides_of_comparable {type : KeyType} (h1 : ValidKey type key1)
    (h2 : ValidKey type key2) (h : Comparable type key1 key2) : Decides type key1 key2 := by
  cases type with
  | STRING_TYPE => exact decides_string h1.2.2 h2.2.2
  | INT32_TYPE =>
    have hlt1 := keyNat_lt 4 key1
    have hlt2 := keyNat_lt 4 key2
    refine Decides.of_values (v := signed (2 ^ 31)) (fun _ => rfl)
      (signed_inj (by omega) (by omega)) h1 h2 ?_ ?_ <;>
    · obtain ⟨hlow, hhigh⟩ := h
      simp only [compareKeys, wrapInt32]
      omega
  | UINT32_TYPE =>
    obtain ⟨hneg, hpos, -⟩ := compareValues_spec (keyNat 4 key1) (keyNat 4 key2)
    exact Decides.of_values (v := fun n => (n : Int)) (fun _ => rfl) (by simp) h1 h2 hneg hpos
  | INT64_TYPE =>
    have hlt1 := keyNat_lt 8 key1
    have hlt2 := keyNat_lt 8 key2
    obtain ⟨hneg, hpos, -⟩ := compareValues_spec (signed (2 ^ 63) (keyNat 8 key1))
      (signed (2 ^ 63) (keyNat 8 key2))
    exact Decides.of_values (v := signed (2 ^ 63)) (fun _ => rfl)
      (signed_inj (by omega) (by omega)) h1 h2 hneg hpos
  | UINT64_TYPE =>
    obtain ⟨hneg, hpos, -⟩ := compareValues_spec (keyNat 8 key1) (keyNat 8 key2)
    exact Decides.of_values (v := fun n => (n : Int)) (fun _ => rfl) (by simp) h1 h2 hneg hpos
  | FLOAT_TYPE | DOUBLE_TYPE => exact h

end BFS
