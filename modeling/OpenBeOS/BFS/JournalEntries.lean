import OpenBeOS.BFS.Journal
import OpenBeOS.Lib.Circular

/-! # Entries in the log

An entry as it has been written, the blocks it takes in the log, and the loops that write them.
-/

namespace BFS

open LinkedList Function

/-- The block of a position of the log; positions behind the end go on at its start. -/
def Log.position (L : Log) (n : Nat) : Int := L.logOffset + ((n % L.fLogSize : Nat) : Int)

/-- A block of the log area. -/
def Log.Contains (L : Log) (block : Int) : Prop :=
  L.logOffset ≤ block ∧ block < L.logOffset + L.fLogSize

/-- An entry as it has been written, with the address of its `log_entry`. -/
structure Logged where
  id : Nat
  start : Nat
  values : List Int
  beyond : Nat → Int
  contents : Int → Option Block

/-- The number of blocks of an entry. -/
def Logged.size (L : Log) (p : Logged) : Nat := L.TransactionSize p.values.length

/-- A block of its array. -/
def Logged.array (L : Log) (p : Logged) (i : Nat) : Block :=
  fun word => arrayMemory p.values p.beyond (i * L.valuesInBlock + word)

/-- The contents it has logged for a block. -/
def Logged.content (p : Logged) (value : Int) : Block := (p.contents value).getD fun _ => 0

section

variable (L : Log)

/-- All its blocks: the array, then the logged blocks. -/
def Logged.block (p : Logged) (k : Nat) : Block :=
  if k < L.BlocksUsed p.values.length then p.array L k
  else p.content (p.values.getD (k - L.BlocksUsed p.values.length) 0)

/-- The log holds the entry. -/
def Logged.InLog (p : Logged) (disk : Disk) : Prop :=
  ∀ k < p.size L, disk (L.position (p.start + k)) = p.block L k

/-! ## Positions -/

theorem Log.position_mod_add (n k : Nat) :
    L.position (n % L.fLogSize + k) = L.position (n + k) := by
  rw [Log.position, Log.position, Nat.mod_add_mod]

theorem Log.position_eq_of_lt {n : Nat} (h : n < L.fLogSize) :
    L.position n = L.logOffset + n := by
  rw [Log.position, Nat.mod_eq_of_lt h]

theorem Log.position_ne_of_mod_ne {a b : Nat} (h : a % L.fLogSize ≠ b % L.fLogSize) :
    L.position a ≠ L.position b := by
  rw [Log.position, Log.position]
  omega

theorem Log.position_ne {a b : Nat} (h : a < b) (h' : b < a + L.fLogSize) :
    L.position a ≠ L.position b :=
  L.position_ne_of_mod_ne (Circular.mod_ne_of_lt h h')

theorem Log.contains_position (n : Nat) : L.Contains (L.position n) := by
  have := Nat.mod_lt n L.fLogSize_pos
  rw [Log.Contains, Log.position]
  omega

/-! ## Sizes -/

theorem Log.valuesInBlock_mul : L.valuesInBlock * 8 = L.blockSize :=
  Nat.div_mul_cancel L.blockSize_words

theorem Log.one_lt_valuesInBlock : 1 < L.valuesInBlock := by
  have := L.valuesInBlock_mul
  have := L.blockSize_pos
  omega

/-- The array takes as many blocks as its words need. -/
theorem Log.blocksUsed_spec (count : Nat) :
    count + 1 ≤ L.BlocksUsed count * L.valuesInBlock ∧
      (L.BlocksUsed count - 1) * L.valuesInBlock < count + 1 ∧ 0 < L.BlocksUsed count := by
  have hV := L.one_lt_valuesInBlock
  have hmul := L.valuesInBlock_mul
  have hpos := L.blockSize_pos
  have hdiv : L.BlocksUsed count = (count + 1 + (L.valuesInBlock - 1)) / L.valuesInBlock := by
    rw [Log.BlocksUsed, ← hmul]
    have hnum : (count + 1) * 8 + L.valuesInBlock * 8 - 1 =
        (count + 1 + (L.valuesInBlock - 1)) * 8 + 7 := by omega
    rw [hnum, Nat.mul_comm L.valuesInBlock 8, ← Nat.div_div_eq_div_mul]
    congr 1
    omega
  have hlow := Nat.div_mul_le_self (count + 1 + (L.valuesInBlock - 1)) L.valuesInBlock
  have hhigh := Nat.lt_div_mul_add (a := count + 1 + (L.valuesInBlock - 1))
    (b := L.valuesInBlock) (by omega)
  rw [← hdiv] at hlow hhigh
  have hone : 0 < L.BlocksUsed count := by
    rw [hdiv]
    exact Nat.div_pos (by omega) (by omega)
  refine ⟨by omega, ?_, hone⟩
  rw [Nat.sub_mul, Nat.one_mul]
  omega

end

/-! ## Writing a run of blocks -/

/-- `disk'` is `disk` with `n` blocks written from `pos` on. -/
structure Wrote (L : Log) (pos n : Nat) (f : Nat → Block) (disk disk' : Disk) : Prop where
  inside : ∀ k < n, disk' (L.position (pos + k)) = f k
  outside : ∀ b, (∀ k < n, b ≠ L.position (pos + k)) → disk' b = disk b

theorem Wrote.nil (L : Log) (pos : Nat) (f : Nat → Block) (disk : Disk) :
    Wrote L pos 0 f disk disk :=
  ⟨fun _ hk => absurd hk (Nat.not_lt_zero _), fun _ _ => rfl⟩

variable {L : Log}

theorem Wrote.cons {pos n : Nat} {f : Nat → Block} {disk disk' : Disk}
    (h : Wrote L (pos + 1) n (fun k => f (k + 1)) (update disk (L.position pos) (f 0)) disk')
    (hn : n + 1 ≤ L.fLogSize) : Wrote L pos (n + 1) f disk disk' := by
  constructor
  · intro k hk
    cases k with
    | zero =>
      rw [h.outside _ fun k hk => ?_]
      · exact update_self ..
      · exact L.position_ne (by omega) (by omega)
    | succ k =>
      have := h.inside k (by omega)
      rwa [show pos + 1 + k = pos + (k + 1) by omega] at this
  · intro b hb
    rw [h.outside b fun k hk => ?_]
    · exact update_of_ne (hb 0 (by omega)) ..
    · have := hb (k + 1) (by omega)
      rwa [show pos + (k + 1) = pos + 1 + k by omega] at this

theorem Wrote.append {pos n m : Nat} {f g : Nat → Block} {disk disk' disk'' : Disk}
    (h : Wrote L pos n f disk disk') (h' : Wrote L (pos + n) m g disk' disk'')
    (hnm : n + m ≤ L.fLogSize) :
    Wrote L pos (n + m) (fun k => if k < n then f k else g (k - n)) disk disk'' := by
  constructor
  · intro k hk
    by_cases hkn : k < n
    · rw [if_pos hkn, h'.outside _ fun i hi => ?_]
      · exact h.inside k hkn
      · exact L.position_ne (by omega) (by omega)
    · rw [if_neg hkn]
      have := h'.inside (k - n) (by omega)
      rwa [show pos + n + (k - n) = pos + k by omega] at this
  · intro b hb
    rw [h'.outside b fun k hk => ?_, h.outside b fun k hk => hb k (by omega)]
    have := hb (n + k) (by omega)
    rwa [← Nat.add_assoc] at this

theorem Wrote.of_mod {pos n : Nat} {f : Nat → Block} {disk disk' : Disk}
    (h : Wrote L (pos % L.fLogSize) n f disk disk') : Wrote L pos n f disk disk' := by
  constructor
  · intro k hk
    rw [← L.position_mod_add]
    exact h.inside k hk
  · intro b hb
    refine h.outside b fun k hk => ?_
    rw [L.position_mod_add]
    exact hb k hk

theorem writeArray_spec (L : Log) (memory : Nat → Int) :
    ∀ (size i pos : Nat) (disk : Disk), pos < L.fLogSize → size ≤ L.fLogSize →
      (writeArray L memory size i pos disk).1 = (pos + size) % L.fLogSize ∧
        Wrote L pos size (fun k word => memory ((i + k) * L.valuesInBlock + word)) disk
          (writeArray L memory size i pos disk).2
  | 0, _, pos, disk, hpos, _ => ⟨(Nat.mod_eq_of_lt hpos).symm, .nil L pos _ disk⟩
  | size + 1, i, pos, disk, hpos, hsize => by
    obtain ⟨hend, hwrote⟩ := writeArray_spec L memory size (i + 1) ((pos + 1) % L.fLogSize)
      (update disk (L.position pos) (fun word => memory (i * L.valuesInBlock + word)))
      (Nat.mod_lt _ L.fLogSize_pos) (by omega)
    rw [writeArray, ← L.position_eq_of_lt hpos]
    refine ⟨?_, .cons ?_ hsize⟩
    · rw [hend, Nat.mod_add_mod, Nat.add_assoc, Nat.add_comm 1]
    · have := hwrote.of_mod
      simpa [Nat.add_assoc, Nat.add_comm 1] using this

/-- What `writeLogged` has done: all blocks are written, or the ones before one that cannot be
read. -/
theorem writeLogged_spec (L : Log) (contents : Int → Option Block) :
    ∀ (values : List Int) (pos : Nat) (disk : Disk), pos < L.fLogSize → values.length ≤ L.fLogSize →
      (∀ b, (∀ k < values.length, b ≠ L.position (pos + k)) →
        (writeLogged L contents values pos disk).2.2 b = disk b) ∧
      ((writeLogged L contents values pos disk).1 = true →
        (writeLogged L contents values pos disk).2.1 = (pos + values.length) % L.fLogSize ∧
        Wrote L pos values.length
          (fun k => (contents (values.getD k 0)).getD fun _ => 0) disk
          (writeLogged L contents values pos disk).2.2)
  | [], pos, disk, hpos, _ =>
    ⟨fun _ _ => rfl, fun _ => ⟨(Nat.mod_eq_of_lt hpos).symm, .nil L pos _ disk⟩⟩
  | value :: values, pos, disk, hpos, hlen => by
    rw [List.length_cons] at hlen
    cases hv : contents value with
    | none =>
      have heq : writeLogged L contents (value :: values) pos disk = (false, pos, disk) := by
        simp [writeLogged, hv]
      rw [heq]
      exact ⟨fun _ _ => rfl, fun h => absurd h (by simp)⟩
    | some block =>
      have heq : writeLogged L contents (value :: values) pos disk =
          writeLogged L contents values ((pos + 1) % L.fLogSize)
            (update disk (L.position pos) block) := by
        simp [writeLogged, hv, L.position_eq_of_lt hpos]
      obtain ⟨hframe, hdone⟩ := writeLogged_spec L contents values ((pos + 1) % L.fLogSize)
        (update disk (L.position pos) block) (Nat.mod_lt _ L.fLogSize_pos) (by omega)
      rw [heq]
      refine ⟨fun b hb => ?_, fun h => ?_⟩
      · rw [hframe b fun k hk => ?_]
        · exact update_of_ne (hb 0 (by simp)) ..
        · have := hb (k + 1) (by rw [List.length_cons]; omega)
          rwa [L.position_mod_add, show pos + 1 + k = pos + (k + 1) by omega]
      · obtain ⟨hend, hwrote⟩ := hdone h
        refine ⟨?_, .cons ?_ hlen⟩
        · rw [hend, Nat.mod_add_mod, List.length_cons, Nat.add_assoc, Nat.add_comm 1]
        · have := hwrote.of_mod
          simpa [hv] using this

/-- The entry a call writes. -/
def LogCall.logged (call : LogCall) (id start : Nat) : Logged :=
  ⟨id, start, call.values, call.beyond, call.contents⟩

/-- **`writeEntry`** writes the blocks of the entry from the end of the log on, and no others. -/
theorem writeEntry_spec {j : Journal} {call : LogCall} (hend : j.LogEnd < L.fLogSize)
    (hsize : L.TransactionSize call.values.length ≤ L.fLogSize) (id : Nat) :
    (∀ b, (∀ k < L.TransactionSize call.values.length, b ≠ L.position (j.LogEnd + k)) →
      (j.writeEntry L call).2.2 b = j.disk b) ∧
    ((j.writeEntry L call).1 = true → (j.writeEntry L call).2.1 =
        (j.LogEnd + L.TransactionSize call.values.length) % L.fLogSize ∧
      (call.logged id j.LogEnd).InLog L (j.writeEntry L call).2.2) := by
  have hsum : L.TransactionSize call.values.length =
      L.BlocksUsed call.values.length + call.values.length := by
    rw [Log.TransactionSize, Nat.add_comm]
  rw [hsum] at hsize ⊢
  have harray := writeArray_spec L (arrayMemory call.values call.beyond)
    (L.BlocksUsed call.values.length) 0 j.LogEnd j.disk hend (by omega)
  rw [Journal.writeEntry, Nat.mod_eq_of_lt hend]
  generalize writeArray L (arrayMemory call.values call.beyond) (L.BlocksUsed call.values.length) 0
    j.LogEnd j.disk = a at harray
  obtain ⟨hpos, hwrote⟩ := harray
  obtain ⟨hframe, hdone⟩ := writeLogged_spec L call.contents call.values a.1 a.2
    (by rw [hpos]; exact Nat.mod_lt _ L.fLogSize_pos) (by omega)
  have hposition : ∀ k, L.position (a.1 + k) =
      L.position (j.LogEnd + (L.BlocksUsed call.values.length + k)) := by
    intro k
    rw [hpos, L.position_mod_add, Nat.add_assoc]
  refine ⟨fun b hb => ?_, fun h => ?_⟩
  · rw [hframe b fun k hk => ?_, hwrote.outside b fun k hk => hb k (by omega)]
    rw [hposition]
    exact hb _ (by omega)
  · obtain ⟨hend', hwrote'⟩ := hdone h
    refine ⟨?_, ?_⟩
    · rw [hend', hpos, Nat.mod_add_mod, Nat.add_assoc]
    · have hmod : Wrote L ((j.LogEnd + L.BlocksUsed call.values.length) % L.fLogSize)
          call.values.length (fun k => (call.contents (call.values.getD k 0)).getD fun _ => 0)
          a.2 (writeLogged L call.contents call.values a.1 a.2).2.2 := by
        rw [← hpos]
        exact hwrote'
      have hall := hwrote.append hmod.of_mod hsize
      intro k hk
      have hk' : k < L.BlocksUsed call.values.length + call.values.length := by
        rw [← hsum]
        exact hk
      have := hall.inside k hk'
      rw [show (call.logged id j.LogEnd).start + k = j.LogEnd + k from rfl, this, Logged.block]
      simp only [Nat.zero_add]
      rfl

end BFS
