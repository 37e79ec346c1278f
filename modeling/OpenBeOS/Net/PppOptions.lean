import OpenBeOS.Net.PppFsm

/-! # The options of Configure-Requests

`lcp_checkconfig` and `ipcp_checkconfig` are one loop with a `switch` of their own. The loop goes from
option to option by the length bytes of the packet. `inside` says that nothing has been read behind the
packet's length or behind a table of names; the arrays of the lists have 100 bytes each.
-/

namespace Ppp

open List FsmState

/-- What the `switch` does with an option: how many of its bytes are read, and copied to the lists. -/
structure Handled where
  named : Bool
  reads : Nat
  ack : Nat
  rej : Nat

@[match_pattern] abbrev LCPO_MRU : Nat := 1
@[match_pattern] abbrev LCPO_ACCMAP : Nat := 2
@[match_pattern] abbrev LCPO_MAGICNUM : Nat := 5
@[match_pattern] abbrev LCPO_PROTOCOMP : Nat := 7
@[match_pattern] abbrev LCPO_ACFCOMP : Nat := 8
@[match_pattern] abbrev LCPO_CALLBACK : Nat := 13
@[match_pattern] abbrev LCPO_MRRU : Nat := 17
@[match_pattern] abbrev LCPO_ENDDISC : Nat := 19

/-- The options that are allowed. -/
structure lcp_options where
  want_magic : Bool
  protocomp : Bool
  acfcomp : Bool
  callback : Bool

/-- The `switch` of `lcp_checkconfig()`. `protoname()` has 24 names, and looks for the type 24 too. -/
def lcp_options.handle (ao : lcp_options) (id len : Nat) : Handled :=
  match id with
  | LCPO_MRU => ⟨true, 4, 0, 0⟩
  | LCPO_ACCMAP => ⟨true, 6, 0, 0⟩
  | LCPO_MAGICNUM => if ao.want_magic then ⟨true, max 6 len, len, 0⟩ else ⟨true, 6, 0, 0⟩
  | LCPO_PROTOCOMP => ⟨true, 2, 0, if ao.protocomp then 0 else 2⟩
  | LCPO_ACFCOMP => ⟨true, 2, 0, if ao.acfcomp then 0 else 2⟩
  | LCPO_MRRU => ⟨true, 4, 0, 0⟩
  -- `lo->len - 2` is a `size_t`
  | LCPO_ENDDISC => ⟨true, 2 + (len + 2 ^ 32 - 2) % 2 ^ 32, 0, 0⟩
  | id => ⟨id ≠ 24, 2, 0, 0⟩

@[match_pattern] abbrev IPCP_ADDRESSES : Nat := 1
@[match_pattern] abbrev IPCP_COMPPROT : Nat := 2
@[match_pattern] abbrev IPCP_ADDRESS : Nat := 3

structure ipcp_options where
  want_addr : Bool

/-- The `switch` of `ipcp_checkconfig()`. `ipcp_protoname()` has 4 names, and looks for the type 4 too. -/
def ipcp_options.handle (ao : ipcp_options) (type len : Nat) : Handled :=
  match type with
  | IPCP_ADDRESSES | IPCP_ADDRESS =>
    if ao.want_addr then ⟨true, max 6 len, len, 0⟩ else ⟨true, max 2 len, 0, len⟩
  | IPCP_COMPPROT => ⟨true, max 2 len, 0, len⟩
  | type => ⟨type ≠ 4, 2, 0, 0⟩

/-- The lists of the decoded options. -/
structure Decoded where
  ack : List UInt8
  rej : List UInt8
  inside : Bool

/-- The type of the option at `cp`. -/
def typeAt (cp : List UInt8) : Nat := (cp.getD 0 0).toNat

/-- The length byte of the option at `cp`. -/
def lenAt (cp : List UInt8) : Nat := (cp.getD 1 0).toNat

/-- The loop; nothing is left of `rounds` if it does not end. -/
def checkconfig (handle : Nat → Nat → Handled) : Nat → List UInt8 → Int → Decoded → Option Decoded
  | 0, _, _, _ => none
  | rounds + 1, cp, len, dec =>
    if len > 0 then
      let h := handle (typeAt cp) (lenAt cp)
      checkconfig handle rounds (cp.drop (lenAt cp)) (len - lenAt cp)
        { ack := dec.ack ++ cp.take h.ack
          rej := dec.rej ++ cp.take h.rej
          inside := dec.inside && h.named && (h.reads ≤ cp.length) && (h.reads ≤ len) }
    else some dec

/-- `DecodeConfig`: `length` is that of the header, `data` what the first mbuf has behind it. -/
def decodeConfig (handle : Nat → Nat → Handled) (length : Nat) (data : List UInt8) :
    Option Decoded :=
  checkconfig handle (length + 1) data ((length : Int) - 4) ⟨[], [], true⟩

def lcp_checkconfig (ao : lcp_options) : Nat → List UInt8 → Option Decoded := decodeConfig ao.handle

def ipcp_checkconfig (ao : ipcp_options) : Nat → List UInt8 → Option Decoded :=
  decodeConfig ao.handle

/-! ## Reading inside the packet -/

/-- The loop ends, inside the packet and inside the arrays. -/
def DecodesSafely (dec : Option Decoded) : Prop :=
  ∃ d, dec = some d ∧ d.inside = true ∧ d.ack.length ≤ 100 ∧ d.rej.length ≤ 100

/-- The options of a packet: where each of them begins, and the length from there on. -/
def optionsAt : Nat → List UInt8 → Int → List (List UInt8 × Int)
  | 0, _, _ => []
  | rounds + 1, cp, len =>
    if len > 0 then (cp, len) :: optionsAt rounds (cp.drop (lenAt cp)) (len - lenAt cp) else []

/-- The option has a length, and the bytes that its type needs. -/
structure Readable (handle : Nat → Nat → Handled) (o : List UInt8 × Int) : Prop where
  len_pos : 0 < lenAt o.1
  named : (handle (typeAt o.1) (lenAt o.1)).named = true
  reads_le : (handle (typeAt o.1) (lenAt o.1)).reads ≤ o.1.length
  reads_le_len : ((handle (typeAt o.1) (lenAt o.1)).reads : Int) ≤ o.2

/-- Every option can be read, and the copied ones fit the arrays. -/
structure Decodable (handle : Nat → Nat → Handled) (os : List (List UInt8 × Int)) : Prop where
  readable : ∀ o ∈ os, Readable handle o
  ack_le : (os.map fun o => (handle (typeAt o.1) (lenAt o.1)).ack).sum ≤ 100
  rej_le : (os.map fun o => (handle (typeAt o.1) (lenAt o.1)).rej).sum ≤ 100

variable {handle : Nat → Nat → Handled}

/-- No more is copied than read. -/
def CopiesRead (handle : Nat → Nat → Handled) : Prop :=
  ∀ id len, (handle id len).ack ≤ (handle id len).reads ∧ (handle id len).rej ≤ (handle id len).reads

theorem checkconfig_outside {rounds : Nat} {cp : List UInt8} {len : Int} {dec d : Decoded}
    (hdec : checkconfig handle rounds cp len dec = some d) (hout : dec.inside = false) :
    d.inside = false := by
  induction rounds generalizing cp len dec with
  | zero => cases hdec
  | succ rounds ih =>
    unfold checkconfig at hdec
    split at hdec
    · refine ih hdec ?_
      dsimp only
      rw [hout]
      rfl
    · cases hdec
      exact hout

theorem checkconfig_endless {rounds : Nat} {cp : List UInt8} {len : Int} {dec : Decoded}
    (hpos : 0 < len) (hzero : lenAt cp = 0) : checkconfig handle rounds cp len dec = none := by
  induction rounds generalizing dec with
  | zero => rfl
  | succ rounds ih =>
    unfold checkconfig
    rw [if_pos hpos, hzero, drop_zero, Int.natCast_zero, Int.sub_zero]
    exact ih

theorem checkconfig_iff (hcopies : CopiesRead handle) {rounds : Nat} {cp : List UInt8} {len : Int}
    {dec : Decoded} (hin : dec.inside = true) (hrounds : len.toNat < rounds) :
    DecodesSafely (checkconfig handle rounds cp len dec) ↔
      (∀ o ∈ optionsAt rounds cp len, Readable handle o) ∧
        dec.ack.length + ((optionsAt rounds cp len).map fun o =>
          (handle (typeAt o.1) (lenAt o.1)).ack).sum ≤ 100 ∧
        dec.rej.length + ((optionsAt rounds cp len).map fun o =>
          (handle (typeAt o.1) (lenAt o.1)).rej).sum ≤ 100 := by
  induction rounds generalizing cp len dec with
  | zero => omega
  | succ rounds ih =>
    unfold checkconfig optionsAt
    by_cases hpos : len > 0
    · rw [if_pos hpos, if_pos hpos, map_cons, map_cons, sum_cons, sum_cons, forall_mem_cons]
      dsimp only
      by_cases hread : Readable handle (cp, len)
      · obtain ⟨hlen, hnamed, hle, hle'⟩ := id hread
        obtain ⟨hack, hrej⟩ := hcopies (typeAt cp) (lenAt cp)
        dsimp only at hlen hnamed hle hle'
        rw [ih (by simp [hin, hnamed, hle, hle']) (by omega), and_iff_right hread, length_append,
          length_append, length_take, length_take, Nat.min_eq_left (by omega),
          Nat.min_eq_left (by omega), Nat.add_assoc, Nat.add_assoc]
      · refine ⟨fun ⟨d, hd, hind, _⟩ => absurd hind ?_, fun h => absurd h.1.1 hread⟩
        rcases Nat.eq_zero_or_pos (lenAt cp) with hzero | hlen
        · rw [hzero, drop_zero, Int.natCast_zero, Int.sub_zero, checkconfig_endless hpos hzero] at hd
          cases hd
        · rw [checkconfig_outside hd]
          · exact Bool.false_ne_true
          · refine Bool.eq_false_iff.mpr fun hall => ?_
            simp only [hin, Bool.true_and, Bool.and_eq_true, decide_eq_true_eq] at hall
            exact hread ⟨hlen, hall.1.1, hall.1.2, hall.2⟩
    · rw [if_neg hpos, if_neg hpos]
      refine ⟨fun ⟨d, hd, _, hack, hrej⟩ => ?_, fun ⟨_, hack, hrej⟩ => ⟨dec, rfl, hin, hack, hrej⟩⟩
      cases hd
      exact ⟨nofun, hack, hrej⟩

theorem decodeConfig_iff (hcopies : CopiesRead handle) (length : Nat) (data : List UInt8) :
    DecodesSafely (decodeConfig handle length data) ↔
      Decodable handle (optionsAt (length + 1) data ((length : Int) - 4)) := by
  refine (checkconfig_iff hcopies rfl (by omega)).trans ?_
  rw [length_nil, Nat.zero_add, Nat.zero_add]
  exact ⟨fun ⟨h, hack, hrej⟩ => ⟨h, hack, hrej⟩, fun ⟨h, hack, hrej⟩ => ⟨h, hack, hrej⟩⟩

theorem lcp_copies (ao : lcp_options) : CopiesRead ao.handle := by
  intro id len
  unfold lcp_options.handle
  split <;> (try split) <;> constructor <;> dsimp only <;> omega

theorem ipcp_copies (ao : ipcp_options) : CopiesRead ao.handle := by
  intro type len
  unfold ipcp_options.handle
  split <;> (try split) <;> constructor <;> dsimp only <;> omega

/-- **Options are decoded safely** just if each has a length and the bytes that its type needs, its
name is in the table, and what is copied fits the arrays. -/
theorem decode_safe_iff (length : Nat) (data : List UInt8) :
    (∀ ao : lcp_options, DecodesSafely (lcp_checkconfig ao length data) ↔
      Decodable ao.handle (optionsAt (length + 1) data ((length : Int) - 4))) ∧
    ∀ ao : ipcp_options, DecodesSafely (ipcp_checkconfig ao length data) ↔
      Decodable ao.handle (optionsAt (length + 1) data ((length : Int) - 4)) :=
  ⟨fun ao => decodeConfig_iff (lcp_copies ao) length data,
    fun ao => decodeConfig_iff (ipcp_copies ao) length data⟩

theorem decode_not_safe :
    ¬ DecodesSafely (lcp_checkconfig ⟨true, false, false, false⟩ 8 [1, 0, 5, 220]) := by
  rintro ⟨d, hd, -⟩
  have hnone : lcp_checkconfig ⟨true, false, false, false⟩ 8 [1, 0, 5, 220] = none :=
    checkconfig_endless (by decide) rfl
  rw [hnone] at hd
  cases hd

end Ppp
