import OpenBeOS.Kernel.CbufBytes
import OpenBeOS.Lib.OnesSum

/-! # The checksum of a chain

`cbuf_ones_cksum16` adds up the words of each cbuf, and exchanges the bytes of the sum when the bytes
that follow are at an odd place. In the first cbuf it asks for the place in the cbuf too, which has
nothing to do with it.
-/

namespace Kernel

open OnesSum List

/-! ## The functions -/

/-- The first loop of `ones_sum16`, with the last single byte. -/
def addWords (sum : Nat) : List UInt8 → Nat
  | [] => sum
  | [low] => sum + low.toNat
  | low :: high :: buf =>
    let sum := (sum + (low.toNat + 256 * high.toNat)) % 2 ^ 32
    addWords (if sum ≥ 2 ^ 31 then sum % 65536 + sum / 65536 else sum) buf

def ones_sum16 (sum : Nat) (buf : List UInt8) : Nat := foldCarry (addWords sum buf)

/-- The cbuf with the offset and those behind it, and the offset in it. -/
def skipTo : List cbuf → (offset : Nat) → List cbuf × Nat
  | [], offset => ([], offset)
  | buf :: bufs, offset =>
    if buf.len > offset then (buf :: bufs, offset) else skipTo bufs (offset - buf.len)

/-- The sum, and whether its bytes are exchanged. -/
def sumLoop : List cbuf → (offset len sum : Nat) → (swapped : Bool) → Nat × Bool
  | [], _, _, sum, swapped => (sum, swapped)
  | buf :: bufs, offset, len, sum, swapped =>
    if len = 0 then (sum, swapped)
    else
      let plen := min len (buf.len - offset)
      let sum := ones_sum16 sum ((buf.bytes.drop offset).take plen)
      let len := len - plen
      if (bufs ≠ [] ∧ len > 0) ∧
          ((offset % 2 ≠ 0 ∧ plen % 2 = 0) ∨ (offset % 2 = 0 ∧ plen % 2 ≠ 0)) then
        sumLoop bufs 0 len (swapBytes sum) (!swapped)
      else sumLoop bufs 0 len sum swapped

def cbuf_ones_cksum16 (chain : List cbuf) (offset len : Nat) : Nat :=
  if chain = [] then 0
  else if ¬ isHead chain then 0
  else
    let (bufs, offset) := skipTo chain offset
    let (sum, swapped) := sumLoop bufs offset len 0 false
    65535 - if swapped then swapBytes sum else sum

/-! ## Sums -/

theorem addWords_spec : ∀ {buf : List UInt8} {sum : Nat}, sum < 2 ^ 31 →
    addWords sum buf ≡ sum + wordSum buf [MOD 65535]
  | [], _, _ => rfl
  | [_], _, _ => rfl
  | low :: high :: buf, sum, hsum => by
    have hlow := low.toNat_lt
    have hhigh := high.toNat_lt
    rw [addWords, Nat.mod_eq_of_lt (by omega)]
    split
    · refine (addWords_spec (by omega)).trans ?_
      rw [wordSum]
      unfold Nat.ModEq
      omega
    · refine (addWords_spec (by omega)).trans ?_
      rw [wordSum, Nat.add_assoc]

theorem ones_sum16_spec {sum : Nat} (hsum : sum < 65536) (buf : List UInt8) :
    ones_sum16 sum buf < 65536 ∧ ones_sum16 sum buf ≡ sum + wordSum buf [MOD 65535] := by
  obtain ⟨hlt, hmod⟩ := foldCarry_spec (addWords sum buf)
  exact ⟨hlt, hmod.trans (addWords_spec (by omega))⟩

/-- The sum that a state of the loop stands for. -/
def unswapped (state : Nat × Bool) : Nat := if state.2 then 256 * state.1 else state.1

/-- A step from one cbuf to the next: the bytes that follow count as `weight n` times their sum. -/
theorem unswapped_step {sum sum' : Nat} {swapped swapped' : Bool} {n rest : Nat}
    (hlt : sum < 65536)
    (hnext : (sum', swapped') = if n % 2 = 0 then (sum, swapped) else (swapBytes sum, !swapped)) :
    sum' < 65536 ∧ unswapped (sum', swapped') + (if swapped' then 256 else 1) * rest ≡
      unswapped (sum, swapped) + (if swapped then 256 else 1) * (weight n * rest) [MOD 65535] := by
  have hswap := swapBytes_modEq hlt
  have hswap' := swapBytes_lt sum
  unfold weight
  split at hnext
  · rename_i heven
    cases hnext
    rw [if_pos heven, Nat.one_mul]
    exact ⟨hlt, rfl⟩
  · rename_i hodd
    cases hnext
    rw [if_neg hodd]
    refine ⟨hswap', ?_⟩
    unfold Nat.ModEq at *
    cases swapped with
    | false =>
      simp only [unswapped, Bool.not_false, if_true, Bool.false_eq_true, if_false]
      omega
    | true =>
      simp only [unswapped, Bool.not_true, if_true, Bool.false_eq_true, if_false]
      omega

theorem sumLoop_zero (bufs : List cbuf) (offset sum : Nat) (swapped : Bool) :
    sumLoop bufs offset 0 sum swapped = (sum, swapped) := by
  cases bufs with
  | nil => rfl
  | cons buf bufs => exact if_pos rfl

/-- From the first byte of a cbuf on, the loop adds the words of the bytes in a row. -/
theorem sumLoop_spec : ∀ {bufs : List cbuf} {len sum : Nat} {swapped : Bool}, len ≤ sumLen bufs →
    sum < 65536 →
    (sumLoop bufs 0 len sum swapped).1 < 65536 ∧
      unswapped (sumLoop bufs 0 len sum swapped) ≡ unswapped (sum, swapped) +
        (if swapped then 256 else 1) * wordSum ((bytes bufs).take len) [MOD 65535]
  | [], len, sum, swapped, _, hsum => by
    rw [bytes_nil, take_nil]
    exact ⟨hsum, rfl⟩
  | buf :: bufs, 0, sum, swapped, _, hsum => by
    rw [sumLoop_zero, take_zero]
    exact ⟨hsum, rfl⟩
  | buf :: bufs, len + 1, sum, swapped, hlen, hsum => by
    rw [sumLen_cons] at hlen
    obtain ⟨hlt, hmod⟩ := ones_sum16_spec hsum (buf.bytes.take (min (len + 1) buf.len))
    have hplen : (buf.bytes.take (min (len + 1) buf.len)).length = min (len + 1) buf.len := by
      rw [length_take, cbuf.length_bytes]
      omega
    -- the sum behind this cbuf
    have hadd : unswapped (ones_sum16 sum (buf.bytes.take (min (len + 1) buf.len)), swapped) ≡
        unswapped (sum, swapped) + (if swapped then 256 else 1) *
          wordSum (buf.bytes.take (min (len + 1) buf.len)) [MOD 65535] := by
      unfold Nat.ModEq at *
      cases swapped with
      | false =>
        simp only [unswapped, Bool.false_eq_true, if_false]
        omega
      | true =>
        simp only [unswapped, if_true]
        omega
    rw [sumLoop, if_neg (Nat.succ_ne_zero len)]
    simp only [Nat.sub_zero, drop_zero, Nat.zero_mod, ne_eq, not_true_eq_false, false_and,
      true_and, false_or]
    by_cases hend : len + 1 ≤ buf.len
    · rw [if_neg (by omega), Nat.min_eq_left hend, Nat.sub_self, sumLoop_zero, bytes_cons,
        take_append_of_le_length (by rwa [cbuf.length_bytes])]
      rw [Nat.min_eq_left hend] at hlt hadd
      exact ⟨hlt, hadd⟩
    · have hmin : min (len + 1) buf.len = buf.len := Nat.min_eq_right (by omega)
      have hne : bufs ≠ [] := by
        rintro rfl
        rw [sumLen_nil] at hlen
        omega
      have hall : buf.bytes.take buf.len = buf.bytes :=
        take_of_length_le (Nat.le_of_eq buf.length_bytes)
      rw [hmin, hall] at hlt hadd
      rw [hmin, hall]
      have htake : (bytes (buf :: bufs)).take (len + 1) =
          buf.bytes ++ (bytes bufs).take (len + 1 - buf.len) := by
        rw [bytes_cons, take_append, cbuf.length_bytes,
          take_of_length_le (by rw [cbuf.length_bytes]; omega)]
      have hword := wordSum_append buf.bytes ((bytes bufs).take (len + 1 - buf.len))
      rw [cbuf.length_bytes] at hword
      generalize ones_sum16 sum buf.bytes = sum₁ at *
      obtain ⟨sum₂, swapped₂, hnext⟩ : ∃ sum₂ swapped₂, (sum₂, swapped₂) =
          if buf.len % 2 = 0 then (sum₁, swapped) else (swapBytes sum₁, !swapped) := ⟨_, _, rfl⟩
      obtain ⟨hlt₂, hstep⟩ := @unswapped_step sum₁ sum₂ swapped swapped₂ buf.len
        (wordSum ((bytes bufs).take (len + 1 - buf.len))) hlt hnext
      obtain ⟨hlt₃, hrest⟩ := @sumLoop_spec bufs (len + 1 - buf.len) sum₂ swapped₂ (by omega) hlt₂
      have hloop : (if (¬ bufs = [] ∧ len + 1 - buf.len > 0) ∧ ¬ buf.len % 2 = 0 then
          sumLoop bufs 0 (len + 1 - buf.len) (swapBytes sum₁) (!swapped)
          else sumLoop bufs 0 (len + 1 - buf.len) sum₁ swapped) =
          sumLoop bufs 0 (len + 1 - buf.len) sum₂ swapped₂ := by
        split at hnext
        · rename_i heven
          cases hnext
          rw [if_neg fun h => h.2 heven]
        · rename_i hodd
          cases hnext
          rw [if_pos ⟨⟨hne, by omega⟩, hodd⟩]
      rw [hloop, htake]
      refine ⟨hlt₃, hrest.trans (hstep.trans ?_)⟩
      unfold Nat.ModEq at *
      cases swapped with
      | false =>
        simp only [Bool.false_eq_true, if_false] at *
        omega
      | true =>
        simp only [if_true] at *
        omega

/-! ## The checksum -/

theorem skipTo_spec : ∀ {bufs : List cbuf} {offset : Nat}, offset < sumLen bufs →
    ∃ before buf rest place, skipTo bufs offset = (buf :: rest, place) ∧
      bufs = before ++ buf :: rest ∧ sumLen before + place = offset ∧ place < buf.len
  | [], _, h => absurd h (Nat.not_lt_zero _)
  | buf :: bufs, offset, h => by
    rw [skipTo]
    split
    · rename_i hlt
      exact ⟨[], buf, bufs, offset, rfl, rfl, Nat.zero_add _, hlt⟩
    · rename_i hge
      rw [sumLen_cons] at h
      have hrest : offset - buf.len < sumLen bufs := by omega
      obtain ⟨before, buf', rest, place, hskip, hsplit, hsum, hlt⟩ := skipTo_spec hrest
      refine ⟨buf :: before, buf', rest, place, hskip, ?_, ?_, hlt⟩
      · rw [hsplit]
        rfl
      · rw [sumLen_cons]
        omega

/-- The bytes begin at an even place of their first cbuf, or end in it, or the words of those behind
it have a sum that 257 divides. -/
def Suits (chain : List cbuf) (offset len : Nat) : Prop :=
  ∀ buf rest place, skipTo chain offset = (buf :: rest, place) →
    place % 2 = 0 ∨ len ≤ buf.len - place ∨
      257 ∣ wordSum ((((bytes chain).drop offset).take len).drop (buf.len - place))

theorem final_swap {state : Nat × Bool} (h : state.1 < 65536) :
    (if state.2 then swapBytes state.1 else state.1) < 65536 ∧
      (if state.2 then swapBytes state.1 else state.1) ≡ unswapped state [MOD 65535] := by
  obtain ⟨sum, swapped⟩ := state
  cases swapped with
  | false => exact ⟨h, rfl⟩
  | true => exact ⟨swapBytes_lt sum, swapBytes_modEq h⟩

theorem modEq_congr {a a' b b' : Nat} (ha : a ≡ a' [MOD 65535]) (hb : b ≡ b' [MOD 65535]) :
    a ≡ b [MOD 65535] ↔ a' ≡ b' [MOD 65535] :=
  ⟨fun h => (ha.symm.trans h).trans hb, fun h => (ha.trans h).trans hb.symm⟩

theorem shifted_iff {first behind : Nat} :
    first + 256 * behind ≡ first + behind [MOD 65535] ↔ 257 ∣ behind := by
  unfold Nat.ModEq
  omega

theorem swapped_modEq {sum first : Nat} (hlt : sum < 65536) (hmod : sum ≡ first [MOD 65535])
    (behind : Nat) :
    256 * swapBytes sum + 256 * behind ≡ first + 256 * behind [MOD 65535] := by
  refine Nat.ModEq.add_right _ (((swapBytes_modEq hlt).mul_left 256).trans ?_)
  unfold Nat.ModEq at *
  omega

/-- The checksum of a chain is that of its bytes in a row if and only if the chain suits. -/
theorem cksum_iff {chain : List cbuf} (h : Whole chain) {offset len : Nat}
    (hoffset : offset < total_len chain) (hlen : offset + len ≤ total_len chain) :
    cbuf_ones_cksum16 chain offset len ≡
        65535 - ones_sum16 0 (((bytes chain).drop offset).take len) [MOD 65535] ↔
      Suits chain offset len := by
  rw [h.total] at hoffset hlen
  obtain ⟨before, buf, rest, place, hskip, hsplit, hsum, hplace⟩ := skipTo_spec hoffset
  have hroom : place + len ≤ buf.len + sumLen rest := by
    rw [hsplit, sumLen_append, sumLen_cons] at hlen
    omega
  have hdrop : (bytes chain).drop offset = buf.bytes.drop place ++ bytes rest := by
    rw [hsplit, bytes_append, ← hsum, ← length_bytes before, drop_length_add_append, bytes_cons,
      drop_append_of_le_length (by rw [cbuf.length_bytes]; omega)]
  have hfirst : (buf.bytes.drop place).length = buf.len - place := by
    rw [length_drop, cbuf.length_bytes]
  have htake : ((bytes chain).drop offset).take len =
      (buf.bytes.drop place).take len ++ (bytes rest).take (len - (buf.len - place)) := by
    rw [hdrop, take_append, hfirst]
  obtain ⟨hsumLt, hsumMod⟩ :=
    ones_sum16_spec (show 0 < 65536 by omega) (((bytes chain).drop offset).take len)
  have hsuits : Suits chain offset len ↔ place % 2 = 0 ∨ len ≤ buf.len - place ∨
      257 ∣ wordSum ((bytes rest).take (len - (buf.len - place))) := by
    have hbehind : len ≤ buf.len - place ∨ (((bytes chain).drop offset).take len).drop
        (buf.len - place) = (bytes rest).take (len - (buf.len - place)) := by
      by_cases hend : len ≤ buf.len - place
      · exact .inl hend
      · refine .inr ?_
        rw [htake, take_of_length_le (by omega), ← hfirst, drop_left]
    constructor
    · intro hsuits
      rcases hsuits buf rest place hskip with heven | hend | hdvd
      · exact .inl heven
      · exact .inr (.inl hend)
      · rcases hbehind with hend | heq
        · exact .inr (.inl hend)
        · exact .inr (.inr (heq ▸ hdvd))
    · intro hcond buf' rest' place' hskip'
      obtain ⟨hcons, rfl⟩ := Prod.mk.inj (hskip.symm.trans hskip')
      cases hcons
      rcases hcond with heven | hend | hdvd
      · exact .inl heven
      · exact .inr (.inl hend)
      · rcases hbehind with hend | heq
        · exact .inr (.inl hend)
        · exact .inr (.inr (heq.symm ▸ hdvd))
  rw [hsuits]
  -- the state behind all cbufs
  have hloop : ∃ state, sumLoop (buf :: rest) place len 0 false = state ∧ state.1 < 65536 ∧
      (unswapped state ≡ wordSum (((bytes chain).drop offset).take len) [MOD 65535] ↔
        place % 2 = 0 ∨ len ≤ buf.len - place ∨
          257 ∣ wordSum ((bytes rest).take (len - (buf.len - place)))) := by
    refine ⟨_, rfl, ?_⟩
    by_cases hzero : len = 0
    · subst hzero
      rw [sumLoop_zero, take_zero]
      exact ⟨Nat.zero_lt_succ _, iff_of_true rfl (.inr (.inl (Nat.zero_le _)))⟩
    · obtain ⟨hlt, hmod⟩ := ones_sum16_spec (show 0 < 65536 by omega)
        ((buf.bytes.drop place).take (min len (buf.len - place)))
      rw [sumLoop, if_neg hzero]
      dsimp only
      by_cases hend : len ≤ buf.len - place
      · rw [Nat.min_eq_left hend] at hlt hmod
        rw [Nat.min_eq_left hend, Nat.sub_self, if_neg (by omega), sumLoop_zero, htake,
          Nat.sub_eq_zero_of_le hend, take_zero, append_nil]
        refine ⟨hlt, iff_of_true ?_ (.inr (.inl hend))⟩
        rwa [Nat.zero_add] at hmod
      · have hmin : min len (buf.len - place) = buf.len - place := Nat.min_eq_right (by omega)
        have hall : ∀ n, buf.len - place ≤ n →
            (buf.bytes.drop place).take n = buf.bytes.drop place := fun n hn =>
          take_of_length_le (hfirst ▸ hn)
        have hne : rest ≠ [] := by
          rintro rfl
          rw [sumLen_nil] at hroom
          omega
        rw [hmin, hall _ (Nat.le_refl _), Nat.zero_add] at hmod
        rw [hmin, hall _ (Nat.le_refl _)] at hlt
        have hword := wordSum_append (buf.bytes.drop place)
          ((bytes rest).take (len - (buf.len - place)))
        rw [hfirst] at hword
        rw [hmin, hall _ (Nat.le_refl _), htake, hall _ (by omega)]
        have hlen' : len - (buf.len - place) ≤ sumLen rest := by omega
        generalize ones_sum16 0 (buf.bytes.drop place) = sum₁ at *
        obtain ⟨hltSame, hsame⟩ := @sumLoop_spec rest (len - (buf.len - place)) sum₁ false hlen' hlt
        obtain ⟨hltSwap, hswap⟩ := @sumLoop_spec rest (len - (buf.len - place)) (swapBytes sum₁) true
          hlen' (swapBytes_lt sum₁)
        simp only [unswapped, Bool.false_eq_true, if_false, Nat.one_mul, if_true] at hsame hswap
        generalize wordSum (buf.bytes.drop place) = first at *
        generalize wordSum ((bytes rest).take (len - (buf.len - place))) = behind at *
        have hsame' := hsame.trans (hmod.add_right behind)
        have hswap' := hswap.trans (swapped_modEq hlt hmod behind)
        have hpos : len - (buf.len - place) > 0 := by omega
        have hword' : ((buf.len - place) % 2 = 0 → wordSum (buf.bytes.drop place ++
              (bytes rest).take (len - (buf.len - place))) ≡ first + behind [MOD 65535]) ∧
            ((buf.len - place) % 2 ≠ 0 → wordSum (buf.bytes.drop place ++
              (bytes rest).take (len - (buf.len - place))) ≡ first + 256 * behind [MOD 65535]) := by
          unfold weight at hword
          refine ⟨fun heven => ?_, fun hodd => ?_⟩
          · rwa [if_pos heven, Nat.one_mul] at hword
          · rwa [if_neg hodd] at hword
        by_cases hchange : (rest ≠ [] ∧ len - (buf.len - place) > 0) ∧
            ((place % 2 ≠ 0 ∧ (buf.len - place) % 2 = 0) ∨
              (place % 2 = 0 ∧ (buf.len - place) % 2 ≠ 0))
        · rw [if_pos hchange]
          refine ⟨hltSwap, ?_⟩
          rcases hchange.2 with ⟨hodd, heven⟩ | ⟨heven, hodd⟩
          · refine (modEq_congr hswap' (hword'.1 heven)).trans (shifted_iff.trans ?_)
            exact ⟨fun h => .inr (.inr h), fun h => (h.resolve_left hodd).resolve_left hend⟩
          · exact iff_of_true (hswap'.trans (hword'.2 hodd).symm) (.inl heven)
        · rw [if_neg hchange]
          refine ⟨hltSame, ?_⟩
          by_cases heven : place % 2 = 0
          · have hlong : (buf.len - place) % 2 = 0 := by
              by_contra hodd
              exact hchange ⟨⟨hne, hpos⟩, .inr ⟨heven, hodd⟩⟩
            exact iff_of_true (hsame'.trans (hword'.1 hlong).symm) (.inl heven)
          · have hlong : ¬ (buf.len - place) % 2 = 0 := fun hlong =>
              hchange ⟨⟨hne, hpos⟩, .inl ⟨heven, hlong⟩⟩
            refine (modEq_congr hsame' (hword'.2 hlong)).trans ?_
            refine (Iff.intro Nat.ModEq.symm Nat.ModEq.symm).trans (shifted_iff.trans ?_)
            exact ⟨fun h => .inr (.inr h), fun h => (h.resolve_left heven).resolve_left hend⟩
  obtain ⟨⟨sum, swapped⟩, hstate, hlt, hiff⟩ := hloop
  obtain ⟨hfinalLt, hfinal⟩ := @final_swap (sum, swapped) hlt
  rw [← hiff]
  unfold cbuf_ones_cksum16
  rw [if_neg h.ne_nil, if_neg (not_not.mpr h.head), hskip]
  dsimp only
  rw [hstate]
  dsimp only at hfinalLt hfinal ⊢
  generalize (if swapped then swapBytes sum else sum) = final at *
  rw [Nat.zero_add] at hsumMod
  unfold Nat.ModEq at *
  omega

/-! ## Three bytes -/

/-- Two bytes and one byte, all of them 1. -/
def threeBytes : List cbuf :=
  [{ zeroed with
      len := 2
      total_len := 3
      chain_head := true
      dat := List.replicate DAT_LEN 1
      size := length_replicate
      fits := by decide },
    { zeroed with
      len := 1
      chain_tail := true
      dat := List.replicate DAT_LEN 1
      size := length_replicate
      fits := by decide }]

theorem cksum_iff_three : cbuf_ones_cksum16 threeBytes 0 3 ≡
      65535 - ones_sum16 0 (((bytes threeBytes).drop 0).take 3) [MOD 65535] := by
  refine (cksum_iff ⟨rfl, rfl⟩ (by decide) (by decide)).mpr ?_
  rintro buf rest place hskip
  cases show (threeBytes, 0) = _ from hskip
  exact .inl rfl

/-- From the second byte on the sum is that of two low bytes, not of a low and a high one. -/
theorem cksum_odd_place : Whole threeBytes ∧ ¬ cbuf_ones_cksum16 threeBytes 1 2 ≡
      65535 - ones_sum16 0 (((bytes threeBytes).drop 1).take 2) [MOD 65535] := by
  refine ⟨⟨rfl, rfl⟩, ?_⟩
  have hone : ones_sum16 0 [1] = 1 := foldCarry_of_lt (show 1 < 65536 by decide)
  have htwo : ones_sum16 1 [1] = 2 := foldCarry_of_lt (show 2 < 65536 by decide)
  have hword : ones_sum16 0 [1, 1] = 257 := foldCarry_of_lt (show 257 < 65536 by decide)
  have hcode : cbuf_ones_cksum16 threeBytes 1 2 = 65535 - ones_sum16 (ones_sum16 0 [1]) [1] := rfl
  have hbytes : ((bytes threeBytes).drop 1).take 2 = [1, 1] := rfl
  rw [hcode, hone, htwo, hbytes, hword]
  decide

end Kernel
