import Mathlib

/-! # Bitmaps of 32-bit words

A bitmap is an unbounded array of 32-bit words, the bit `j` of it being bit `j % 32` of the
word `j / 32`. A run of bits is written word by word: `maskLoop` builds the mask of the bits
that fall into one word, `markLoop` combines the masks with the words one after another.
`bit_markLoop` says which bits a marked run changes, and `count_mark` how the number of
clear bits changes with it.
-/

namespace Bitmap

abbrev Words : Type := Nat → BitVec 32

/-- The bit `j` of a bitmap. -/
def bit (w : Words) (j : Nat) : Bool := (w (j / 32)).getLsbD (j % 32)

/-! ## The mask of one word -/

/-- `for (; i < 32 && n; i++, n--) mask |= 1UL << (i % 32);` with the count that is left. -/
def maskLoop : Nat → Nat → Nat → BitVec 32 → BitVec 32 × Nat
  | 0, _, n, mask => (mask, n)
  | k + 1, i, n, mask =>
    if i < 32 ∧ n ≠ 0 then maskLoop k (i + 1) (n - 1) (mask ||| 1#32 <<< (i % 32))
    else (mask, n)

theorem maskLoop_snd (k i n : Nat) (mask : BitVec 32) (hk : 32 ≤ i + k) :
    (maskLoop k i n mask).2 = n - (32 - i) := by
  induction k generalizing i n mask with
  | zero => simp only [maskLoop]; omega
  | succ k ih =>
    rw [maskLoop]
    split
    · rw [ih (i + 1) (n - 1) _ (by omega)]; omega
    · simp only; omega

theorem maskLoop_getLsbD (k i n : Nat) (mask : BitVec 32) (hk : 32 ≤ i + k) (j : Nat)
    (hj : j < 32) :
    (maskLoop k i n mask).1.getLsbD j = (mask.getLsbD j || decide (i ≤ j ∧ j < i + n)) := by
  induction k generalizing i n mask with
  | zero =>
    have : ¬(i ≤ j ∧ j < i + n) := by omega
    simp [maskLoop, this]
  | succ k ih =>
    rw [maskLoop]
    split
    · rename_i h
      have hbit : (1#32 <<< (i % 32)).getLsbD j = decide (i = j) := by
        rw [BitVec.getLsbD_shiftLeft, BitVec.getLsbD_one, Nat.mod_eq_of_lt h.1]
        by_cases hij : i = j
        · subst hij; simp [hj]
        · by_cases hlt : j < i
          · simp [hlt, hij]
          · have : j - i ≠ 0 := by omega
            simp [this, hij]
      rw [ih (i + 1) (n - 1) _ (by omega), BitVec.getLsbD_or, hbit, Bool.or_assoc]
      congr 1
      rw [Bool.eq_iff_iff]
      simp only [Bool.or_eq_true, decide_eq_true_eq]
      omega
    · have : ¬(i ≤ j ∧ j < i + n) := by omega
      simp [this]

/-! ## Marking a run -/

/-- Replace the word `k`. -/
def setWord (w : Words) (k : Nat) (v : BitVec 32) : Words := fun i => if i = k then v else w i

/-- Combine the masks of a run of `n` bits with the words from `block` on; only the first
word's run starts at `start % 32`, the others' at bit 0. -/
def markLoop (op : BitVec 32 → BitVec 32 → BitVec 32) : Nat → Nat → Nat → Nat → Words → Words
  | 0, _, _, _, w => w
  | k + 1, block, start, n, w =>
    if n = 0 then w
    else
      let mask := maskLoop 32 (start % 32) n 0
      markLoop op k (block + 1) 0 mask.2 (setWord w block (op (w block) mask.1))

/-- The operation writes `v` wherever the mask has a bit, and keeps the others. -/
def Writes (op : BitVec 32 → BitVec 32 → BitVec 32) (v : Bool) : Prop :=
  ∀ w m i, i < 32 → (op w m).getLsbD i = if m.getLsbD i then v else w.getLsbD i

theorem writes_or : Writes (fun w m => w ||| m) true := by
  intro w m i _
  simp only [BitVec.getLsbD_or]
  cases m.getLsbD i <;> simp

theorem writes_andNot : Writes (fun w m => w &&& ~~~m) false := by
  intro w m i hi
  simp only [BitVec.getLsbD_and, BitVec.getLsbD_not, hi, decide_true, Bool.true_and]
  cases m.getLsbD i <;> simp

/-- **A marked run.** Exactly the `n` bits from `32 * block + start % 32` get the value. -/
theorem bit_markLoop {op : BitVec 32 → BitVec 32 → BitVec 32} {v : Bool} (hop : Writes op v)
    (k block start n : Nat) (w : Words) (hk : n ≤ k) (j : Nat) :
    bit (markLoop op k block start n w) j =
      if 32 * block + start % 32 ≤ j ∧ j < 32 * block + start % 32 + n then v else bit w j := by
  induction k generalizing block start n w with
  | zero =>
    rw [markLoop, if_neg (by omega)]
  | succ k ih =>
    rw [markLoop]
    by_cases hn : n = 0
    · rw [if_pos hn, if_neg (by omega)]
    · rw [if_neg hn]
      have hrest := maskLoop_snd 32 (start % 32) n 0 (by omega)
      simp only
      rw [ih _ _ _ _ (by omega), hrest, Nat.zero_mod]
      -- a bit of this word is decided by the mask, one of a later word by the rest of the loop
      by_cases hj : j / 32 = block
      · have hmask := maskLoop_getLsbD 32 (start % 32) n 0 (by omega) (j % 32) (by omega)
        rw [if_neg (by omega), bit, setWord, if_pos hj, hop _ _ _ (by omega), hmask, ← hj]
        have hzero : (0 : BitVec 32).getLsbD (j % 32) = false := by simp
        rw [hzero, Bool.false_or]
        simp only [decide_eq_true_eq, bit]
        by_cases hin : start % 32 ≤ j % 32 ∧ j % 32 < start % 32 + n
        · rw [if_pos hin, if_pos (by omega)]
        · rw [if_neg hin, if_neg (by omega)]
      · have hword : bit (setWord w block (op (w block) (maskLoop 32 (start % 32) n 0).1)) j
            = bit w j := by rw [bit, setWord, if_neg hj, bit]
        rw [hword]
        by_cases hin : 32 * block + start % 32 ≤ j ∧ j < 32 * block + start % 32 + n
        · rw [if_pos hin, if_pos (by omega)]
        · rw [if_neg hin, if_neg (by omega)]

/-! ## Counting -/

theorem count_congr {p q : Nat → Prop} [DecidablePred p] [DecidablePred q] {n : Nat}
    (h : ∀ i, i < n → (p i ↔ q i)) : Nat.count p n = Nat.count q n :=
  Nat.le_antisymm (Nat.count_mono_left fun i hi => (h i hi).1)
    (Nat.count_mono_left fun i hi => (h i hi).2)

theorem count_mark {p q : Nat → Prop} [DecidablePred p] [DecidablePred q] {s n N : Nat}
    (hN : s + n ≤ N) (hp : ∀ i, s ≤ i → i < s + n → p i) (hq : ∀ i, s ≤ i → i < s + n → ¬q i)
    (hsame : ∀ i, ¬(s ≤ i ∧ i < s + n) → (p i ↔ q i)) :
    Nat.count p N = Nat.count q N + n := by
  obtain ⟨r, rfl⟩ := Nat.exists_eq_add_of_le hN
  have hlow : Nat.count p s = Nat.count q s := count_congr fun i _ => hsame i (by omega)
  have hrun : Nat.count (fun k => p (s + k)) n = n :=
    Nat.count_iff_forall.2 fun i hi => hp _ (by omega) (by omega)
  have hrun' : Nat.count (fun k => q (s + k)) n = 0 :=
    Nat.count_iff_forall_not.2 fun i hi => hq _ (by omega) (by omega)
  have hhigh : Nat.count (fun k => p (s + n + k)) r = Nat.count (fun k => q (s + n + k)) r :=
    count_congr fun i _ => hsame _ (by omega)
  rw [Nat.count_add, Nat.count_add p, Nat.count_add, Nat.count_add q, hlow, hrun, hrun', hhigh]
  omega

theorem count_from {p : Nat → Prop} [DecidablePred p] {m n : Nat} (hlow : ∀ i, i < m → ¬p i)
    (hhigh : ∀ i, m ≤ i → p i) : Nat.count p (m + n) = n := by
  rw [Nat.count_add, Nat.count_iff_forall_not.2 hlow, Nat.zero_add]
  exact Nat.count_iff_forall.2 fun i _ => hhigh _ (by omega)

end Bitmap
