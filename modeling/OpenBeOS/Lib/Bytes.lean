import Mathlib

/-! # Byte memory

A buffer is a function from byte offsets to bytes. Little-endian loads and stores of any
width, `memmove`/`memcpy` and `memset`, and the lemmas that say which bytes each of them
reads and writes. Everything a proof needs about a load is `loadLE_congr`: a load depends
on the bytes of its window only.
-/

namespace Bytes

/-- A buffer: the byte at each offset. -/
abbrev Buffer : Type := Nat → UInt8

/-! ## Loads and stores -/

/-- The little-endian number in the `n` bytes from `a`. -/
def loadLE (m : Buffer) (a : Nat) : Nat → Nat
  | 0 => 0
  | n + 1 => (m a).toNat + 256 * loadLE m (a + 1) n

/-- Write the `n` low bytes of `v` from `a`, little-endian. -/
def storeLE (m : Buffer) (a n v : Nat) : Buffer :=
  fun i => if a ≤ i ∧ i < a + n then UInt8.ofNat (v / 256 ^ (i - a)) else m i

theorem loadLE_congr {m m' : Buffer} {a b n : Nat}
    (h : ∀ i, i < n → m (a + i) = m' (b + i)) : loadLE m a n = loadLE m' b n := by
  induction n generalizing a b with
  | zero => rfl
  | succ n ih =>
    have h0 := h 0 (by omega)
    simp only [Nat.add_zero] at h0
    rw [loadLE, loadLE, h0, ih]
    intro i hi
    have := h (i + 1) (by omega)
    rwa [← Nat.add_assoc, ← Nat.add_assoc, Nat.add_right_comm a, Nat.add_right_comm b] at this

theorem loadLE_lt (m : Buffer) (a n : Nat) : loadLE m a n < 256 ^ n := by
  induction n generalizing a with
  | zero => simp [loadLE]
  | succ n ih =>
    have h1 := ih (a + 1)
    have h2 := (m a).toNat_lt
    rw [loadLE, pow_succ]
    omega

variable {m : Buffer} {d s n i : Nat} {a b : Nat} {v : Int}

theorem storeLE_inside {a n v i : Nat} (h1 : a ≤ i) (h2 : i < a + n) :
    storeLE m a n v i = UInt8.ofNat (v / 256 ^ (i - a)) := by
  simp [storeLE, h1, h2]

theorem storeLE_outside {a n v i : Nat} (h : i < a ∨ a + n ≤ i) : storeLE m a n v i = m i := by
  rw [storeLE, if_neg]
  omega

theorem loadLE_storeLE_same (m : Buffer) (a n v : Nat) :
    loadLE (storeLE m a n v) a n = v % 256 ^ n := by
  -- the bytes from `a + k` on hold `v / 256 ^ k`
  have key : ∀ k r, k + r = n → loadLE (storeLE m a n v) (a + k) r = v / 256 ^ k % 256 ^ r := by
    intro k r
    induction r generalizing k with
    | zero => intro _; simp [loadLE, Nat.mod_one]
    | succ r ih =>
      intro hk
      have hin : storeLE m a n v (a + k) = UInt8.ofNat (v / 256 ^ k) := by
        rw [storeLE_inside (by omega) (by omega), Nat.add_sub_cancel_left]
      have hrest := ih (k + 1) (by omega)
      rw [← Nat.add_assoc] at hrest
      rw [loadLE, hrest, hin, UInt8.toNat_ofNat', pow_succ 256 r, Nat.mul_comm (256 ^ r),
        Nat.mod_mul, pow_succ 256 k, ← Nat.div_div_eq_div_mul]
  have := key 0 n (by omega)
  simpa using this

theorem loadLE_storeLE_disjoint {a b n k v : Nat} (h : b + k ≤ a ∨ a + n ≤ b) :
    loadLE (storeLE m a n v) b k = loadLE m b k := by
  apply loadLE_congr
  intro i hi
  exact storeLE_outside (by omega)

/-! ## Moving and filling -/

/-- `memmove(m + d, m + s, n)`; the source bytes are read before any is overwritten. -/
def memmove (m : Buffer) (d s n : Nat) : Buffer :=
  fun i => if d ≤ i ∧ i < d + n then m (s + (i - d)) else m i

/-- `memcpy(m + d, src + s, n)` from another buffer. -/
def memcpy (m : Buffer) (d : Nat) (src : Buffer) (s n : Nat) : Buffer :=
  fun i => if d ≤ i ∧ i < d + n then src (s + (i - d)) else m i

/-- `memset(m + d, v, n)`. -/
def memset (m : Buffer) (d : Nat) (v : UInt8) (n : Nat) : Buffer :=
  fun i => if d ≤ i ∧ i < d + n then v else m i

theorem memcpy_inside {m src : Buffer} (h1 : d ≤ i) (h2 : i < d + n) :
    memcpy m d src s n i = src (s + (i - d)) := by
  simp [memcpy, h1, h2]

theorem memcpy_outside {m src : Buffer} (h : i < d ∨ d + n ≤ i) : memcpy m d src s n i = m i := by
  rw [memcpy, if_neg]
  omega

theorem memmove_inside (h1 : d ≤ i) (h2 : i < d + n) :
    memmove m d s n i = m (s + (i - d)) := memcpy_inside h1 h2

theorem memmove_outside (h : i < d ∨ d + n ≤ i) : memmove m d s n i = m i := memcpy_outside h

theorem memset_inside {d n i : Nat} {v : UInt8} (h1 : d ≤ i) (h2 : i < d + n) :
    memset m d v n i = v := by
  simp [memset, h1, h2]

theorem memset_outside {d n i : Nat} {v : UInt8} (h : i < d ∨ d + n ≤ i) :
    memset m d v n i = m i := by
  rw [memset, if_neg]
  omega

theorem memcpy_zero (m src : Buffer) (d s : Nat) : memcpy m d src s 0 = m :=
  funext fun _ => memcpy_outside (by omega)

theorem memcpy_congr {src src' : Buffer} {s n : Nat} (h : ∀ i < n, src (s + i) = src' (s + i))
    (m : Buffer) (d : Nat) : memcpy m d src s n = memcpy m d src' s n := by
  funext i
  by_cases hin : d ≤ i ∧ i < d + n
  · rw [memcpy_inside hin.1 hin.2, memcpy_inside hin.1 hin.2]
    exact h (i - d) (by omega)
  · rw [memcpy_outside (by omega), memcpy_outside (by omega)]

theorem memcpy_append (m src : Buffer) (d s n k : Nat) :
    memcpy (memcpy m d src s n) (d + n) src (s + n) k = memcpy m d src s (n + k) := by
  funext i
  by_cases hsecond : d + n ≤ i ∧ i < d + n + k
  · rw [memcpy_inside hsecond.1 hsecond.2, memcpy_inside (by omega) (by omega)]
    congr 1
    omega
  · rw [memcpy_outside (by omega)]
    by_cases hfirst : d ≤ i ∧ i < d + n
    · rw [memcpy_inside hfirst.1 hfirst.2, memcpy_inside (by omega) (by omega)]
    · rw [memcpy_outside (by omega), memcpy_outside (by omega)]

theorem loadLE_memcpy_disjoint {m src : Buffer} {d s n b k : Nat} (h : b + k ≤ d ∨ d + n ≤ b) :
    loadLE (memcpy m d src s n) b k = loadLE m b k := by
  apply loadLE_congr
  intro i hi
  exact memcpy_outside (by omega)

theorem loadLE_memmove_disjoint {d s n b k : Nat} (h : b + k ≤ d ∨ d + n ≤ b) :
    loadLE (memmove m d s n) b k = loadLE m b k := loadLE_memcpy_disjoint h

theorem loadLE_memset_zero {d n b k : Nat} (h1 : d ≤ b) (h2 : b + k ≤ d + n) :
    loadLE (memset m d 0 n) b k = 0 := by
  induction k generalizing b with
  | zero => rfl
  | succ k ih =>
    rw [loadLE, memset_inside h1 (by omega), ih (by omega) (by omega)]
    rfl

theorem loadLE_memset_disjoint {d n b k : Nat} {v : UInt8}
    (h : b + k ≤ d ∨ d + n ≤ b) : loadLE (memset m d v n) b k = loadLE m b k := by
  apply loadLE_congr
  intro i hi
  exact memset_outside (by omega)

/-! ## Signed 64-bit numbers -/

/-- The two's complement reading of a 64-bit pattern. -/
def toSigned (n : Nat) : Int := if n < 2 ^ 63 then (n : Int) else (n : Int) - 2 ^ 64

/-- The 64-bit pattern of a number. -/
def toPattern (v : Int) : Nat := (v % 2 ^ 64).toNat

/-- The numbers a signed 64-bit variable can hold. -/
def IsInt64 (v : Int) : Prop := -2 ^ 63 ≤ v ∧ v < 2 ^ 63

instance (v : Int) : Decidable (IsInt64 v) := inferInstanceAs (Decidable (_ ∧ _))

theorem toSigned_toPattern (h : IsInt64 v) : toSigned (toPattern v) = v := by
  unfold IsInt64 at h
  unfold toSigned toPattern
  split <;> omega

theorem isInt64_toSigned {n : Nat} (h : n < 2 ^ 64) : IsInt64 (toSigned n) := by
  unfold IsInt64 toSigned
  split <;> omega

theorem toPattern_lt (v : Int) : toPattern v < 2 ^ 64 := by
  unfold toPattern
  omega

/-- The `off_t` at `a`. -/
def load64 (m : Buffer) (a : Nat) : Int := toSigned (loadLE m a 8)

/-- Store an `off_t` at `a`. -/
def store64 (m : Buffer) (a : Nat) (v : Int) : Buffer := storeLE m a 8 (toPattern v)

/-- The `uint16` at `a`. -/
def load16 (m : Buffer) (a : Nat) : Nat := loadLE m a 2

/-- Store a `uint16` at `a`; the value is cut to 16 bits. -/
def store16 (m : Buffer) (a v : Nat) : Buffer := storeLE m a 2 v

theorem isInt64_load64 (m : Buffer) (a : Nat) : IsInt64 (load64 m a) :=
  isInt64_toSigned (loadLE_lt m a 8)

theorem load16_congr {m m' : Buffer} (h : ∀ i, i < 2 → m (a + i) = m' (b + i)) :
    load16 m a = load16 m' b := loadLE_congr h

theorem load64_congr {m m' : Buffer} (h : ∀ i, i < 8 → m (a + i) = m' (b + i)) :
    load64 m a = load64 m' b := congrArg toSigned (loadLE_congr h)

theorem store16_outside {a v i : Nat} (h : i < a ∨ a + 2 ≤ i) :
    store16 m a v i = m i := storeLE_outside h

theorem store64_outside {a i : Nat} (h : i < a ∨ a + 8 ≤ i) :
    store64 m a v i = m i := storeLE_outside h

theorem load16_store16_disjoint {a b v : Nat} (h : b + 2 ≤ a ∨ a + 2 ≤ b) :
    load16 (store16 m a v) b = load16 m b := loadLE_storeLE_disjoint h

theorem load16_store64_disjoint
    (h : b + 2 ≤ a ∨ a + 8 ≤ b) : load16 (store64 m a v) b = load16 m b :=
  loadLE_storeLE_disjoint h

theorem load64_store16_disjoint {a b v : Nat} (h : b + 8 ≤ a ∨ a + 2 ≤ b) :
    load64 (store16 m a v) b = load64 m b := congrArg toSigned (loadLE_storeLE_disjoint h)

theorem load64_store64_disjoint
    (h : b + 8 ≤ a ∨ a + 8 ≤ b) : load64 (store64 m a v) b = load64 m b :=
  congrArg toSigned (loadLE_storeLE_disjoint h)

theorem load64_memmove_disjoint {d s n b : Nat} (h : b + 8 ≤ d ∨ d + n ≤ b) :
    load64 (memmove m d s n) b = load64 m b := congrArg toSigned (loadLE_memmove_disjoint h)

theorem load16_store16_same (m : Buffer) {a v : Nat} (h : v < 2 ^ 16) :
    load16 (store16 m a v) a = v := by
  rw [load16, store16, loadLE_storeLE_same]
  exact Nat.mod_eq_of_lt h

theorem load16_store16_mod (m : Buffer) (a v : Nat) :
    load16 (store16 m a v) a = v % 2 ^ 16 := loadLE_storeLE_same m a 2 v

theorem load64_store64_same (m : Buffer) {a : Nat} (h : IsInt64 v) :
    load64 (store64 m a v) a = v := by
  have hlt : toPattern v < 256 ^ 8 := toPattern_lt v
  rw [load64, store64, loadLE_storeLE_same, Nat.mod_eq_of_lt hlt, toSigned_toPattern h]

end Bytes
