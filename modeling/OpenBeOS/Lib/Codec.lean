import Mathlib

/-! # Readers of byte streams

A stream is its bytes and a position. Reading beyond the end fails, and a failure is final. `Reads`
says that a reader takes exactly some bytes and what it makes of them, wherever they stand in the
stream; readers that follow each other read bytes that follow each other (`Reads.bind`).
-/

namespace Codec

open List

/-- A stream that is read; a seek may lead behind its end. -/
structure IStream where
  data : List UInt8
  pos : Nat

/-- What reads from a stream, or fails. -/
abbrev Reader (α : Type) : Type := StateT IStream Option α

/-- The next `n` bytes. -/
def read (n : Nat) : Reader (List UInt8) := fun s =>
  if s.pos + n ≤ s.data.length then some ((s.data.drop s.pos).take n, { s with pos := s.pos + n })
  else none

/-- A seek from the current position. -/
def seekg (len : Int) : Reader Unit := fun s =>
  if 0 ≤ (s.pos : Int) + len then some ((), { s with pos := ((s.pos : Int) + len).toNat })
  else none

variable {α β : Type} {r : Reader α} {bs cs : List UInt8} {v : α}

/-- The reader takes these bytes and makes this value of them. -/
def Reads (r : Reader α) (bs : List UInt8) (v : α) : Prop :=
  ∀ pre post, r ⟨pre ++ (bs ++ post), pre.length⟩ =
    some (v, ⟨pre ++ (bs ++ post), pre.length + bs.length⟩)

theorem reads_pure (v : α) : Reads (pure v) [] v := fun _ _ => rfl

theorem Reads.bind {f : α → Reader β} {w : β} (hr : Reads r bs v) (hf : Reads (f v) cs w) :
    Reads (r >>= f) (bs ++ cs) w := by
  intro pre post
  have hfirst := hr pre (cs ++ post)
  have hrest := hf (pre ++ bs) post
  rw [append_assoc, length_append] at hrest
  calc (r >>= f) ⟨pre ++ (bs ++ cs ++ post), pre.length⟩
      = (r ⟨pre ++ (bs ++ (cs ++ post)), pre.length⟩).bind fun p => f p.1 p.2 := by
        rw [append_assoc]
        rfl
    _ = f v ⟨pre ++ (bs ++ (cs ++ post)), pre.length + bs.length⟩ := by
        rw [hfirst, Option.bind_some]
    _ = some (w, ⟨pre ++ (bs ++ cs ++ post), pre.length + (bs ++ cs).length⟩) := by
        rw [hrest, length_append, append_assoc, Nat.add_assoc]

theorem Reads.map {f : α → β} (hr : Reads r bs v) : Reads (do return f (← r)) bs (f v) := by
  have h := hr.bind (f := fun v => pure (f v)) (reads_pure (f v))
  rw [append_nil] at h
  exact h

theorem reads_read (bs : List UInt8) : Reads (read bs.length) bs bs := by
  intro pre post
  have hlen : pre.length + bs.length ≤ (pre ++ (bs ++ post)).length := by
    rw [length_append, length_append]
    omega
  rw [read, if_pos hlen]
  simp only [drop_left, take_left]

/-! ## Numbers, the first byte being the highest -/

/-- The lowest `n` bytes of a number. -/
def toBytes : Nat → Nat → List UInt8
  | 0, _ => []
  | n + 1, v => toBytes n (v / 256) ++ [UInt8.ofNat v]

def ofBytes (bs : List UInt8) : Nat := bs.foldl (fun v b => v * 256 + b.toNat) 0

@[simp] theorem length_toBytes (n v : Nat) : (toBytes n v).length = n := by
  induction n generalizing v with
  | zero => rfl
  | succ n ih => rw [toBytes, length_append, ih, length_singleton]

theorem ofBytes_toBytes (n v : Nat) : ofBytes (toBytes n v) = v % 256 ^ n := by
  induction n generalizing v with
  | zero => rw [Nat.pow_zero, Nat.mod_one]; rfl
  | succ n ih =>
    have hfold : ofBytes (toBytes n (v / 256) ++ [UInt8.ofNat v]) =
        ofBytes (toBytes n (v / 256)) * 256 + v % 256 := by
      rw [ofBytes, foldl_append]
      rfl
    have hmod : v % 256 ^ (n + 1) = v / 256 % 256 ^ n * 256 + v % 256 := by
      rw [Nat.pow_succ', Nat.mod_mul]
      omega
    rw [toBytes, hfold, ih, hmod]

theorem ofBytes_toBytes_of_lt {n v : Nat} (h : v < 256 ^ n) : ofBytes (toBytes n v) = v := by
  rw [ofBytes_toBytes, Nat.mod_eq_of_lt h]

theorem reads_number {f : Nat → α} {n v : Nat} (h : v < 256 ^ n) :
    Reads (do return f (ofBytes (← read n))) (toBytes n v) (f v) := by
  have hread := reads_read (toBytes n v)
  rw [length_toBytes] at hread
  have hmap := hread.map (f := fun bs => f (ofBytes bs))
  rw [ofBytes_toBytes_of_lt h] at hmap
  exact hmap

end Codec
