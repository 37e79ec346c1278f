import OpenBeOS.Net.PppFcs

/-! # The checksum of PPP is a CRC

The table of `ppp_fcs.c` has eight shifts of the register at once. A shift is linear and loses
nothing, so that a frame with one other byte has another checksum.
-/

namespace Ppp

/-- One bit of the CRC, with the reflected polynomial. -/
def crcBit (crc : BitVec 16) : BitVec 16 :=
  if crc.getLsbD 0 then (crc >>> 1) ^^^ 0x8408 else crc >>> 1

def crcBits : Nat → BitVec 16 → BitVec 16
  | 0, crc => crc
  | n + 1, crc => crcBits n (crcBit crc)

def crcByte (crc : BitVec 16) (b : Byte) : BitVec 16 := crcBits 8 (crc ^^^ b.setWidth 16)

/-- The bitwise CRC of a string of bytes. -/
def crc16 (crc : BitVec 16) (d : List Byte) : BitVec 16 := d.foldl crcByte crc

/-! ## Shifts -/

theorem crcBit_xor (a b : BitVec 16) : crcBit (a ^^^ b) = crcBit a ^^^ crcBit b := by
  simp only [crcBit, BitVec.getLsbD_xor, BitVec.ushiftRight_xor_distrib]
  cases a.getLsbD 0 <;> cases b.getLsbD 0
  · rfl
  · exact BitVec.xor_assoc ..
  · simp only [Bool.xor_false, if_true, Bool.false_eq_true, if_false]
    ac_rfl
  · simp only [Bool.xor_self, Bool.false_eq_true, if_false, if_true]
    rw [BitVec.xor_assoc (a >>> 1), BitVec.xor_comm (b >>> 1), ← BitVec.xor_assoc 0x8408,
      BitVec.xor_self, BitVec.zero_xor]

theorem crcBits_xor (n : Nat) (a b : BitVec 16) :
    crcBits n (a ^^^ b) = crcBits n a ^^^ crcBits n b := by
  induction n generalizing a b with
  | zero => rfl
  | succ n ih => rw [crcBits, crcBit_xor, ih, crcBits, crcBits]

theorem crcBits_high {n : Nat} {a : BitVec 16} (h : ∀ i < n, a.getLsbD i = false) :
    crcBits n a = a >>> n := by
  induction n generalizing a with
  | zero => simp [crcBits]
  | succ n ih =>
    have hbit : crcBit a = a >>> 1 := by
      rw [crcBit, h 0 (Nat.succ_pos n)]
      rfl
    rw [crcBits, hbit, ih, ← BitVec.shiftRight_add, Nat.add_comm 1 n]
    intro i hi
    rw [BitVec.getLsbD_ushiftRight]
    exact h (1 + i) (by omega)

theorem crcBit_eq_zero {a : BitVec 16} (h : crcBit a = 0) : a = 0 := by
  unfold crcBit at h
  split at h
  · have htop := congrArg (fun b : BitVec 16 => b.getLsbD 15) h
    simp [BitVec.getLsbD_of_ge] at htop
  · rename_i hlow
    apply BitVec.eq_of_getLsbD_eq
    intro i hi
    cases i with
    | zero => simpa using hlow
    | succ i =>
      have hbit := congrArg (fun b : BitVec 16 => b.getLsbD i) h
      simpa [BitVec.getLsbD_ushiftRight, Nat.add_comm 1 i] using hbit

theorem crcBits_eq_zero {n : Nat} {a : BitVec 16} (h : crcBits n a = 0) : a = 0 := by
  induction n generalizing a with
  | zero => exact h
  | succ n ih => exact crcBit_eq_zero (ih h)

theorem crcBits_injective {n : Nat} {a b : BitVec 16} (h : crcBits n a = crcBits n b) : a = b := by
  have hzero : crcBits n (a ^^^ b) = 0#16 := by rw [crcBits_xor, h, BitVec.xor_self]
  exact BitVec.xor_eq_zero_iff.mp (crcBits_eq_zero hzero)

/-! ## The table -/

theorem fcstab_eq : ∀ i : Fin 256, fcstab.getD i.val 0 = crcBits 8 (BitVec.ofNat 16 i.val) := by
  decide +kernel

theorem high_byte {i : Nat} (hi : i < 16) : (0xff00#16)[i] = decide (8 ≤ i) := by
  revert i
  decide

theorem split_low (a : BitVec 16) : a = (a &&& 0xff) ^^^ (a &&& 0xff00) := by
  ext i hi
  have hlow := low_byte ⟨i, hi⟩
  have hhigh := high_byte hi
  by_cases h : i < 8
  · simp [hlow, hhigh, h, show ¬ 8 ≤ i by omega]
  · simp [hlow, hhigh, h, show 8 ≤ i by omega]

theorem fcsStep_eq (fcs : BitVec 16) (b : Byte) : fcsStep fcs b = crcByte fcs b := by
  generalize ha : fcs ^^^ b.setWidth 16 = a
  have hhigh : ∀ i < 8, (a &&& 0xff00).getLsbD i = false := by
    intro i hi
    have hmask := high_byte (i := i) (by omega)
    simp [hmask, show ¬ 8 ≤ i by omega, BitVec.getLsbD_eq_getElem (show i < 16 by omega)]
  have hshift : (a &&& 0xff00) >>> 8 = fcs >>> 8 := by
    rw [← ha]
    ext i hi
    by_cases h : 8 + i < 16
    · have hmask := high_byte h
      simp [hmask, h, BitVec.getLsbD_eq_getElem]
    · simp [BitVec.getLsbD_of_ge _ _ (Nat.not_lt.mp h)]
  have hlt : (a &&& 0xff).toNat < 256 := by
    rw [BitVec.toNat_and]
    exact Nat.lt_succ_of_le Nat.and_le_right
  have htable := fcstab_eq ⟨(a &&& 0xff).toNat, hlt⟩
  rw [BitVec.ofNat_toNat, BitVec.setWidth_eq] at htable
  calc fcsStep fcs b = fcs >>> 8 ^^^ fcstab.getD (a &&& 0xff).toNat 0 := by rw [fcsStep, ha]
    _ = crcBits 8 (a &&& 0xff) ^^^ crcBits 8 (a &&& 0xff00) := by
      rw [htable, crcBits_high hhigh, hshift, BitVec.xor_comm]
    _ = crcBits 8 a := by rw [← crcBits_xor, ← split_low]
    _ = crcByte fcs b := by rw [crcByte, ha]

theorem pppfcs16_eq (fcs : BitVec 16) (d : List Byte) : pppfcs16 fcs d = crc16 fcs d := by
  have hstep : fcsStep = crcByte := funext fun fcs => funext fun b => fcsStep_eq fcs b
  rw [pppfcs16, hstep, crc16]

/-! ## One other byte -/

theorem crcByte_injective {crc crc' : BitVec 16} {b : Byte}
    (h : crcByte crc b = crcByte crc' b) : crc = crc' :=
  (BitVec.xor_left_inj (b.setWidth 16)).mp (crcBits_injective h)

theorem crcByte_byte {crc : BitVec 16} {b b' : Byte} (h : crcByte crc b = crcByte crc b') :
    b = b' := by
  have hwide := (BitVec.xor_right_inj crc).mp (crcBits_injective h)
  have hnarrow := congrArg (BitVec.setWidth 8) hwide
  simpa using hnarrow

theorem crc16_injective {crc crc' : BitVec 16} {d : List Byte}
    (h : crc16 crc d = crc16 crc' d) : crc = crc' := by
  induction d generalizing crc crc' with
  | nil => exact h
  | cons b d ih => exact crcByte_injective (ih h)

theorem crc16_byte {crc : BitVec 16} {before after : List Byte} {b b' : Byte}
    (h : crc16 crc (before ++ b :: after) = crc16 crc (before ++ b' :: after)) : b = b' := by
  simp only [crc16, List.foldl_append, List.foldl_cons] at h
  exact crcByte_byte (crc16_injective h)

/-- The checksum is the CRC; with its own checksum behind it, a string has the good one, and loses it
when one byte is changed. -/
theorem frame_check_right :
    (∀ (fcs : BitVec 16) (d : List Byte), pppfcs16 fcs d = crc16 fcs d) ∧
      ∀ d : List Byte,
        let frame := d ++ fcsBytes (pppfcs16 0xffff d ^^^ 0xffff)
        pppfcs16 PPP_INITFCS frame = PPP_GOODFCS ∧
          ∀ (before after : List Byte) (b b' : Byte), frame = before ++ b :: after → b' ≠ b →
            pppfcs16 PPP_INITFCS (before ++ b' :: after) ≠ PPP_GOODFCS := by
  refine ⟨pppfcs16_eq, fun d => ⟨pppfcs16_good _ d, ?_⟩⟩
  intro before after b b' hframe hne hgood
  have hframeGood := pppfcs16_good PPP_INITFCS d
  rw [show PPP_INITFCS = 0xffff from rfl] at hframeGood hgood
  rw [hframe, ← hgood, pppfcs16_eq, pppfcs16_eq] at hframeGood
  exact hne (crc16_byte hframeGood).symm

/-! ## A burst of errors -/

theorem crcBits_add (m n : Nat) (a : BitVec 16) : crcBits (m + n) a = crcBits n (crcBits m a) := by
  induction m generalizing a with
  | zero => rw [Nat.zero_add, crcBits]
  | succ m ih => rw [Nat.succ_add, crcBits, ih, crcBits]

theorem crcByte_xor (r s : BitVec 16) (b x : Byte) :
    crcByte (r ^^^ s) (b ^^^ x) = crcByte r b ^^^ crcByte s x := by
  rw [crcByte, crcByte, crcByte, ← crcBits_xor, BitVec.setWidth_xor]
  congr 1
  ac_rfl

/-- What a burst `e` of errors changes in three bytes, from bit `k` of the first one on. -/
def burst (k : Nat) (e : BitVec 16) : List Byte :=
  [(e <<< k).setWidth 8, (e >>> (8 - k)).setWidth 8, (e >>> (16 - k)).setWidth 8]

/-- The low byte of a word, in the register. -/
def low (v : BitVec 16) : BitVec 16 := (v.setWidth 8).setWidth 16

theorem crcBits_later (n : Nat) (e : BitVec 16) :
    crcBits n (low (e >>> n) <<< n) = low (e >>> n) := by
  rw [crcBits_high fun i hi => by simp [hi]]
  ext i hi
  by_cases h : n + i < 16
  · simp [low, h, hi]
  · simp [low, BitVec.getLsbD_of_ge _ _ (Nat.le_of_not_lt h)]

theorem burst_parts {k : Nat} (hk : k ≤ 8) (e : BitVec 16) :
    low (e <<< k) >>> k ^^^ low (e >>> (8 - k)) <<< (8 - k) ^^^
      low (e >>> (16 - k)) <<< (16 - k) = e := by
  ext i hi
  simp only [low, BitVec.getElem_xor, BitVec.getElem_ushiftRight, BitVec.getElem_shiftLeft]
  rcases Nat.lt_or_ge i (8 - k) with h | h
  · simp [h, show k + i < 16 by omega, show k + i < 8 by omega, show i < 16 - k by omega, hi]
  · rcases Nat.lt_or_ge i (16 - k) with h' | h'
    · simp [h, h', show ¬ k + i < 8 by omega, show i - (8 - k) < 8 by omega, hi]
    · simp [Nat.not_lt.mpr h, Nat.not_lt.mpr h', show ¬ k + i < 8 by omega,
        show ¬ i - (8 - k) < 8 by omega, show i - (16 - k) < 8 by omega,
        Nat.add_sub_cancel' h', hi]

/-- The register shifts the bytes of a burst as if it had held all of it. -/
theorem crc16_burst {k : Nat} (hk : k ≤ 8) (e : BitVec 16) :
    crc16 0 (burst k e) = crcBits 8 (crcBits (16 - k) e) := by
  have hlow : crcBits k (low (e <<< k)) = low (e <<< k) >>> k :=
    crcBits_high fun i hi => by simp [low, hi]
  calc crc16 0 (burst k e)
      = crcBits 8 (crcBits 8 (crcBits (8 - k) (crcBits k (low (e <<< k))) ^^^
          low (e >>> (8 - k))) ^^^ low (e >>> (16 - k))) := by
        rw [← crcBits_add, Nat.add_sub_cancel' hk]
        simp only [crc16, burst, List.foldl_cons, List.foldl_nil, crcByte, low]
        rw [show (0 : BitVec 16) = 0#16 from rfl, BitVec.zero_xor]
    _ = crcBits 8 (crcBits (16 - k) e) := by
        rw [hlow, ← crcBits_later (8 - k), ← crcBits_xor, ← crcBits_add,
          show 8 - k + 8 = 16 - k by omega, ← crcBits_later (16 - k), ← crcBits_xor, burst_parts hk]

/-- A frame with a burst of errors over at most 16 bits does not have the good checksum. -/
theorem burst_found {d before after : List Byte} {a b c : Byte} {k : Nat} {e : BitVec 16}
    (hframe : d ++ fcsBytes (pppfcs16 0xffff d ^^^ 0xffff) = before ++ [a, b, c] ++ after)
    (hk : k ≤ 8) (he : e ≠ 0) :
    pppfcs16 PPP_INITFCS (before ++ List.zipWith (· ^^^ ·) [a, b, c] (burst k e) ++ after) ≠
      PPP_GOODFCS := by
  intro hgood
  rw [show PPP_INITFCS = 0xffff from rfl, ← pppfcs16_good _ d, hframe, pppfcs16_eq, pppfcs16_eq]
    at hgood
  simp only [crc16, List.foldl_append] at hgood
  have hsame := @crc16_injective _ _ after hgood
  generalize List.foldl crcByte 0xffff before = r at hsame
  have hxor : List.foldl crcByte r (List.zipWith (· ^^^ ·) [a, b, c] (burst k e)) =
      List.foldl crcByte r [a, b, c] ^^^ crc16 0 (burst k e) := by
    simp only [burst, List.zipWith_cons_cons, List.zipWith_nil_left, List.foldl_cons,
      List.foldl_nil, crc16, ← crcByte_xor]
    rw [show (0 : BitVec 16) = 0#16 from rfl, BitVec.xor_zero]
  rw [hxor, crc16_burst hk] at hsame
  have hzero := (BitVec.xor_right_inj _).mp (hsame.trans (BitVec.xor_zero (w := 16)).symm)
  exact he (crcBits_eq_zero (crcBits_eq_zero hzero))

theorem burst_found_one : pppfcs16 PPP_INITFCS [0, 0xf0, 0xe1] ≠ PPP_GOODFCS :=
  @burst_found [1] [] [] 1 0xf1 0xe1 0 0x101 (by decide) (by decide) (by decide)

end Ppp
