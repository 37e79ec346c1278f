import Mathlib

/-! # Text in UTF-8

The bytes of a text, as far as a program needs them that goes through the bytes: the first byte of a
character tells it from all bytes inside of a character, and no character's bytes start with those of
another one.
-/

namespace Utf8

open List

/-- The bytes of a text. -/
def bytes (text : List Char) : List UInt8 := text.flatMap String.utf8EncodeChar

@[simp] theorem bytes_nil : bytes [] = [] := rfl

theorem bytes_cons (c : Char) (text : List Char) :
    bytes (c :: text) = String.utf8EncodeChar c ++ bytes text := rfl

/-- The byte is behind the first byte of its character. -/
def IsInside (b : UInt8) : Prop := 128 ≤ b.toNat ∧ b.toNat < 192

/-- The bytes behind the first byte of their character. -/
def insides (text : List Char) : List UInt8 := text.flatMap fun c => (String.utf8EncodeChar c).tail

theorem insides_cons (c : Char) (text : List Char) :
    insides (c :: text) = (String.utf8EncodeChar c).tail ++ insides text := rfl

theorem ofNat_toNat {n : Nat} (h : n < 256) : (UInt8.ofNat n).toNat = n := by
  rw [UInt8.toNat_ofNat']
  exact Nat.mod_eq_of_lt h

/-- The four forms of a character. -/
theorem encode_forms (c : Char) :
    (c.toNat < 128 ∧ String.utf8EncodeChar c = [UInt8.ofNat c.toNat]) ∨
    (∃ x y, x < 32 ∧ y < 64 ∧ 128 ≤ c.toNat ∧ c.toNat = x * 64 + y ∧
      String.utf8EncodeChar c = [UInt8.ofNat (192 + x), UInt8.ofNat (128 + y)]) ∨
    (∃ x y z, x < 16 ∧ y < 64 ∧ z < 64 ∧ 128 ≤ c.toNat ∧ c.toNat = (x * 64 + y) * 64 + z ∧
      String.utf8EncodeChar c =
        [UInt8.ofNat (224 + x), UInt8.ofNat (128 + y), UInt8.ofNat (128 + z)]) ∨
    (∃ w x y z, w < 8 ∧ x < 64 ∧ y < 64 ∧ z < 64 ∧ 128 ≤ c.toNat ∧
      c.toNat = ((w * 64 + x) * 64 + y) * 64 + z ∧
      String.utf8EncodeChar c = [UInt8.ofNat (240 + w), UInt8.ofNat (128 + x),
        UInt8.ofNat (128 + y), UInt8.ofNat (128 + z)]) := by
  have hlt : c.toNat < 1114112 := by
    rcases c.valid with h | h
    · exact Nat.lt_trans h (by decide)
    · exact h.2
  have hval : c.val.toNat = c.toNat := rfl
  rw [String.utf8EncodeChar]
  simp only [hval]
  by_cases h1 : c.toNat ≤ 0x7f
  · rw [if_pos h1]
    exact .inl ⟨by omega, rfl⟩
  rw [if_neg h1]
  by_cases h2 : c.toNat ≤ 0x7ff
  · rw [if_pos h2]
    refine .inr (.inl ⟨c.toNat / 64, c.toNat % 64, by omega, by omega, by omega, by omega, ?_⟩)
    rw [show c.toNat / 64 % 0x20 + 0xc0 = 192 + c.toNat / 64 by omega,
      show c.toNat % 0x40 + 0x80 = 128 + c.toNat % 64 by omega]
  rw [if_neg h2]
  by_cases h3 : c.toNat ≤ 0xffff
  · rw [if_pos h3]
    refine .inr (.inr (.inl ⟨c.toNat / 4096, c.toNat / 64 % 64, c.toNat % 64, by omega, by omega,
      by omega, by omega, by omega, ?_⟩))
    rw [show c.toNat / 4096 % 0x10 + 0xe0 = 224 + c.toNat / 4096 by omega,
      show c.toNat / 64 % 0x40 + 0x80 = 128 + c.toNat / 64 % 64 by omega,
      show c.toNat % 0x40 + 0x80 = 128 + c.toNat % 64 by omega]
  · rw [if_neg h3]
    refine .inr (.inr (.inr ⟨c.toNat / 262144, c.toNat / 4096 % 64, c.toNat / 64 % 64, c.toNat % 64,
      by omega, by omega, by omega, by omega, by omega, by omega, ?_⟩))
    rw [show c.toNat / 262144 % 0x08 + 0xf0 = 240 + c.toNat / 262144 by omega,
      show c.toNat / 4096 % 0x40 + 0x80 = 128 + c.toNat / 4096 % 64 by omega,
      show c.toNat / 64 % 0x40 + 0x80 = 128 + c.toNat / 64 % 64 by omega,
      show c.toNat % 0x40 + 0x80 = 128 + c.toNat % 64 by omega]

theorem isInside_ofNat {y : Nat} (h : y < 64) : IsInside (UInt8.ofNat (128 + y)) := by
  rw [IsInside, ofNat_toNat (by omega)]
  omega

/-- **The first byte of a character** is not inside, all others are, and it is alone exactly if it is
the character itself. -/
theorem encode_eq (c : Char) : ∃ b rest, String.utf8EncodeChar c = b :: rest ∧ ¬ IsInside b ∧
    (∀ x ∈ rest, IsInside x) ∧
    (b.toNat < 128 ∧ rest = [] ∧ c.toNat = b.toNat ∨ 192 ≤ b.toNat ∧ 128 ≤ c.toNat) := by
  rcases encode_forms c with ⟨h, heq⟩ | ⟨x, y, hx, hy, hc, -, heq⟩ |
      ⟨x, y, z, hx, hy, hz, hc, -, heq⟩ |
      ⟨w, x, y, z, hw, hx, hy, hz, hc, -, heq⟩
  · have hb := ofNat_toNat (show c.toNat < 256 by omega)
    refine ⟨_, _, heq, ?_, by simp, .inl ⟨by omega, rfl, hb.symm⟩⟩
    rw [IsInside, hb]
    omega
  · have hb := ofNat_toNat (show 192 + x < 256 by omega)
    refine ⟨_, _, heq, ?_, forall_mem_singleton.mpr (isInside_ofNat hy), .inr ⟨by omega, hc⟩⟩
    rw [IsInside, hb]
    omega
  · have hb := ofNat_toNat (show 224 + x < 256 by omega)
    refine ⟨_, _, heq, ?_, forall_mem_cons.mpr ⟨isInside_ofNat hy,
      forall_mem_singleton.mpr (isInside_ofNat hz)⟩,
      .inr ⟨by omega, hc⟩⟩
    rw [IsInside, hb]
    omega
  · have hb := ofNat_toNat (show 240 + w < 256 by omega)
    refine ⟨_, _, heq, ?_, forall_mem_cons.mpr ⟨isInside_ofNat hx,
      forall_mem_cons.mpr ⟨isInside_ofNat hy, forall_mem_singleton.mpr (isInside_ofNat hz)⟩⟩,
      .inr ⟨by omega, hc⟩⟩
    rw [IsInside, hb]
    omega

theorem isInside_of_mem_insides {text : List Char} {b : UInt8} (h : b ∈ insides text) :
    IsInside b := by
  obtain ⟨c, -, hb⟩ := mem_flatMap.mp h
  obtain ⟨d, rest, heq, -, hrest, -⟩ := encode_eq c
  rw [heq, tail_cons] at hb
  exact hrest b hb

variable {c : Char}

theorem encode_ascii (h : c.toNat < 128) : String.utf8EncodeChar c = [UInt8.ofNat c.toNat] := by
  rcases encode_forms c with ⟨-, heq⟩ | ⟨-, -, -, -, hc, -⟩ | ⟨-, -, -, -, -, -, hc, -⟩ |
      ⟨-, -, -, -, -, -, -, -, hc, -⟩
  · exact heq
  all_goals omega

theorem mem_encode_ascii {b : UInt8} (hb : b.toNat < 128)
    (h : b ∈ String.utf8EncodeChar c) : c.toNat = b.toNat := by
  obtain ⟨d, rest, heq, -, hrest, hd⟩ := encode_eq c
  rw [heq, mem_cons] at h
  rcases h with rfl | h
  · rcases hd with ⟨-, -, hc⟩ | ⟨hd, -⟩
    · exact hc
    · omega
  · have hinside := hrest b h
    rw [IsInside] at hinside
    omega

/-- **No character starts with another one.** -/
theorem eq_of_encode_append {c d : Char} {front back : List UInt8}
    (h : String.utf8EncodeChar c ++ front = String.utf8EncodeChar d ++ back) : c = d := by
  have hdecode := congrArg (fun l : List UInt8 => l.toByteArray.utf8DecodeChar? 0) h
  simp only [toByteArray_append, ByteArray.utf8DecodeChar?_utf8EncodeChar_append] at hdecode
  exact Option.some.inj hdecode

theorem prefix_bytes_iff {text : List Char} :
    String.utf8EncodeChar c <+: bytes text ↔ ∃ rest, text = c :: rest := by
  constructor
  · rintro ⟨back, h⟩
    cases text with
    | nil =>
      obtain ⟨b, rest, heq, -⟩ := encode_eq c
      rw [heq] at h
      cases h
    | cons d text =>
      rw [bytes_cons] at h
      exact ⟨text, by rw [eq_of_encode_append h]⟩
  · rintro ⟨rest, rfl⟩
    exact ⟨bytes rest, rfl⟩

theorem length_le_bytes (text : List Char) : text.length ≤ (bytes text).length := by
  induction text with
  | nil => exact Nat.le_refl _
  | cons c text ih =>
    obtain ⟨b, rest, heq, -⟩ := encode_eq c
    rw [bytes_cons, heq, length_cons, length_append, length_cons]
    omega

theorem drop_bytes : ∀ (n : Nat) (text : List Char), (2 ≤ n → ∀ c ∈ text, c.toNat < 128) →
    ∃ front, (bytes text).drop n = front ++ bytes (text.drop n) ∧ ∀ b ∈ front, b ∈ insides text
  | 0, text, _ => ⟨[], rfl, by simp⟩
  | n + 1, [], _ => ⟨[], by simp, by simp⟩
  | 1, c :: text, _ => by
    obtain ⟨b, rest, heq, -⟩ := encode_eq c
    refine ⟨rest, by rw [bytes_cons, heq]; rfl, fun x hx => ?_⟩
    rw [insides_cons, heq]
    exact mem_append_left _ hx
  | n + 2, c :: text, h => by
    have hascii := h (by omega)
    obtain ⟨front, hdrop, hfront⟩ := drop_bytes (n + 1) text fun _ d hd =>
      hascii d (mem_cons_of_mem c hd)
    refine ⟨front, ?_, fun b hb => ?_⟩
    · rw [bytes_cons, encode_ascii (hascii c mem_cons_self), singleton_append,
        drop_succ_cons, drop_succ_cons, hdrop]
    · rw [insides_cons]
      exact mem_append_right _ (hfront b hb)

end Utf8
