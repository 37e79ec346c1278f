import Mathlib

/-! # Sums of words modulo 65535

The sum of the little-endian words of a list of bytes, where a last single byte is a low byte. Modulo
65535 every second byte has the weight 256, and exchanging the bytes of a word multiplies it by 256.
-/

namespace OnesSum

def wordSum : List UInt8 → Nat
  | [] => 0
  | [low] => low.toNat
  | low :: high :: rest => low.toNat + 256 * high.toNat + wordSum rest

theorem wordSum_cons : ∀ (byte : UInt8) (rest : List UInt8),
    wordSum (byte :: rest) ≡ byte.toNat + 256 * wordSum rest [MOD 65535]
  | _, [] => rfl
  | byte, [high] => rfl
  | byte, high :: low :: rest => by
    have ih := wordSum_cons low rest
    unfold Nat.ModEq at *
    rw [wordSum, wordSum]
    omega

/-- The weight of the byte behind so many others. -/
def weight (n : Nat) : Nat := if n % 2 = 0 then 1 else 256

theorem wordSum_append : ∀ (xs ys : List UInt8),
    wordSum (xs ++ ys) ≡ wordSum xs + weight xs.length * wordSum ys [MOD 65535]
  | [], ys => by
    show wordSum ys ≡ 0 + 1 * wordSum ys [MOD 65535]
    rw [Nat.zero_add, Nat.one_mul]
  | x :: xs, ys => by
    have ih := wordSum_append xs ys
    have hall := wordSum_cons x (xs ++ ys)
    have hxs := wordSum_cons x xs
    unfold Nat.ModEq weight at *
    rw [List.cons_append, List.length_cons]
    by_cases hpar : xs.length % 2 = 0
    · rw [if_pos hpar] at ih
      rw [if_neg (by omega)]
      omega
    · rw [if_neg hpar] at ih
      rw [if_pos (by omega)]
      omega

/-- The two bytes of a word exchanged. -/
def swapBytes (word : Nat) : Nat := word % 256 * 256 + word / 256 % 256

theorem swapBytes_lt (word : Nat) : swapBytes word < 65536 := by
  unfold swapBytes
  omega

theorem swapBytes_modEq {word : Nat} (h : word < 65536) :
    swapBytes word ≡ 256 * word [MOD 65535] := by
  have hhigh : word / 256 % 256 = word / 256 := Nat.mod_eq_of_lt (by omega)
  unfold swapBytes Nat.ModEq
  rw [hhigh]
  omega

/-- A word with the carries added to it. -/
def foldCarry (sum : Nat) : Nat :=
  if sum / 65536 = 0 then sum else foldCarry (sum % 65536 + sum / 65536)
termination_by sum
decreasing_by omega

theorem foldCarry_of_lt {sum : Nat} (h : sum < 65536) : foldCarry sum = sum := by
  rw [foldCarry, if_pos (Nat.div_eq_of_lt h)]

theorem foldCarry_spec (sum : Nat) : foldCarry sum < 65536 ∧ foldCarry sum ≡ sum [MOD 65535] := by
  induction sum using foldCarry.induct with
  | case1 sum h =>
    have hlt : sum < 65536 := by omega
    rw [foldCarry_of_lt hlt]
    exact ⟨hlt, rfl⟩
  | case2 sum h ih =>
    rw [foldCarry, if_neg h]
    refine ⟨ih.1, ih.2.trans ?_⟩
    unfold Nat.ModEq
    omega

end OnesSum
