import OpenBeOS.BFS.SplitNode

/-! # The new node of a split

The first loop of `SplitNode()` stops at the `splitPoint`; the entries in front of it, with the
new key when it belongs there, are what the new node decodes to.
-/

namespace BFS

open Bytes List

/-! ## Key lengths -/

/-- The end of the first `i` keys, as the array of the key lengths has it. -/
def keyEnd (node : Buffer) (i : Nat) : Nat :=
  if i = 0 then 0 else load16 node (keyLengths node + 2 * (i - 1))

theorem keysLength_take_le (es : List Entry) {i j : Nat} (h : i ≤ j) :
    keysLength (es.take i) ≤ keysLength (es.take j) := by
  obtain ⟨d, rfl⟩ := Nat.exists_eq_add_of_le h
  rw [take_add, keysLength_append]
  omega

theorem Packed.keyEnd_succ {node : Buffer} {es : List Entry} (h : Packed node es) {i : Nat}
    (hi : i < es.length) :
    load16 node (keyLengths node + 2 * i) = keysLength (es.take (i + 1)) := by
  obtain ⟨A, e, B, rfl, rfl⟩ : ∃ A e B, es = A ++ e :: B ∧ A.length = i :=
    ⟨es.take i, es[i], es.drop (i + 1), by
      rw [← drop_eq_getElem_cons hi, take_append_drop], by
      rw [length_take]; omega⟩
  rw [h.slotAt.keyEnd, take_append, take_of_length_le (by omega),
    Nat.add_sub_cancel_left, keysLength_append]
  simp

/-! ## The split point

`c i` is the length of the first `i` keys of the node, `n` their number, `ki` the index of the
new key and `L` its length. -/

/-- The size the loop computes for the first `k` keys: as long as the new key is not among them,
the last one is not counted. -/
def halfSize (c : Nat → Nat) (ki L k : Nat) : Nat :=
  round_up (28 + (if k ≤ ki then c (k - 1) else c (k - 1) + L)) + k * 10

/-- The first `k` at which half of the node is reached. -/
def splitFrom (c : Nat → Nat) (ki L : Nat) : Nat → Nat → Nat
  | 0, k => k
  | fuel + 1, k => if 512 ≤ halfSize c ki L k then k else splitFrom c ki L fuel (k + 1)

/-- The number of keys that go to the new node. -/
def splitPoint (c : Nat → Nat) (n ki L : Nat) : Nat := splitFrom c ki L n 1

theorem splitFrom_bounds (c : Nat → Nat) (ki L fuel k : Nat) :
    k ≤ splitFrom c ki L fuel k ∧ splitFrom c ki L fuel k ≤ k + fuel := by
  induction fuel generalizing k with
  | zero => exact ⟨Nat.le_refl _, Nat.le_refl _⟩
  | succ fuel ih =>
    rw [splitFrom]
    split
    · omega
    · have := ih (k + 1)
      omega

theorem splitFrom_size (c : Nat → Nat) (ki L fuel k : Nat)
    (h : 512 ≤ halfSize c ki L (k + fuel)) : 512 ≤ halfSize c ki L (splitFrom c ki L fuel k) := by
  induction fuel generalizing k with
  | zero => exact h
  | succ fuel ih =>
    rw [splitFrom]
    split
    · assumption
    · exact ih (k + 1) (by rwa [show k + 1 + fuel = k + (fuel + 1) by omega])

/-- The variables of the loop after `k` rounds. -/
def halfAt (c : Nat → Nat) (ki L k : Nat) : Half :=
  if k ≤ ki then ⟨k, k, 0, (c (k - 1) : Nat), 0⟩
  else ⟨k - 1, k, L, (c ki : Nat), (c (k - 1) - c ki : Nat)⟩

section

variable {c : Nat → Nat} {n ki L : Nat}

theorem halfAt_le {k : Nat} (h : k ≤ ki) :
    halfAt c ki L k = ⟨k, k, 0, (c (k - 1) : Nat), 0⟩ := if_pos h

theorem halfAt_gt {k : Nat} (h : ki < k) :
    halfAt c ki L k = ⟨k - 1, k, L, (c ki : Nat), (c (k - 1) - c ki : Nat)⟩ :=
  if_neg (Nat.not_le.2 h)

theorem halfStep_eq {lengthAt : Nat → Nat} (hc : ∀ i, i < n → lengthAt i = c (i + 1))
    (hzero : c 0 = 0) (hmono : ∀ i j, i ≤ j → c i ≤ c j) (hL : L ≠ 0) (hki : ki ≤ n) {k : Nat}
    (hk : k ≤ n) : halfStep lengthAt ki L (halfAt c ki L k) = halfAt c ki L (k + 1) := by
  have hbefore : (if k > 0 then (lengthAt (k - 1) : Int) else 0) = (c k : Nat) := by
    cases k with
    | zero => simp [hzero]
    | succ k => rw [if_pos (by omega), Nat.add_sub_cancel, hc k (by omega)]
  rcases Nat.lt_trichotomy k ki with hlt | rfl | hgt
  · -- the loop has not come to the new key
    rw [halfAt_le (by omega), halfAt_le (by omega)]
    unfold halfStep
    simp only [if_true, and_true]
    rw [if_neg (by omega), hbefore, if_neg (by omega), Nat.add_sub_cancel]
  · rw [halfAt_le (Nat.le_refl k), halfAt_gt (by omega)]
    unfold halfStep
    simp only [and_self, if_true]
    rw [hbefore, Nat.add_sub_cancel, Nat.sub_self]
    rfl
  · rw [halfAt_gt hgt, halfAt_gt (by omega)]
    unfold halfStep
    simp only [if_neg hL]
    rw [if_neg fun h => hL h.2, if_pos hgt, Nat.add_sub_cancel, hc (k - 1) (by omega),
      Nat.sub_add_cancel (by omega), Int.ofNat_sub (hmono ki k (by omega))]

theorem halfAt_size (hmono : ∀ i j, i ≤ j → c i ≤ c j) (k : Nat) :
    (halfAt c ki L k).size = halfSize c ki L k := by
  unfold Half.size halfAt halfSize
  by_cases hk : k ≤ ki
  · simp only [if_pos hk, sizeofNode]
    rw [show ((c (k - 1) : Int) + 0).toNat = c (k - 1) by omega, Nat.add_zero]
  · have := hmono ki (k - 1) (by omega)
    simp only [if_neg hk, sizeofNode]
    rw [show ((c ki : Int) + (c (k - 1) - c ki : Nat)).toNat = c (k - 1) by omega, Nat.add_assoc]

theorem halfLoop_eq {lengthAt : Nat → Nat} (hc : ∀ i, i < n → lengthAt i = c (i + 1))
    (hzero : c 0 = 0) (hmono : ∀ i j, i ≤ j → c i ≤ c j) (hL : L ≠ 0) (hki : ki ≤ n)
    (hfull : 512 ≤ halfSize c ki L (n + 1)) (fuel : Nat) :
    ∀ k, k ≤ n → n + 1 - k ≤ fuel → halfLoop lengthAt n ki L fuel (halfAt c ki L k) =
        halfAt c ki L (splitFrom c ki L (n - k) (k + 1)) := by
  induction fuel with
  | zero =>
    intro k hk hfuel
    omega
  | succ fuel ih =>
    intro k hk hfuel
    have hinn : (halfAt c ki L k).inn < n + 1 := by
      unfold halfAt
      split <;> simp only <;> omega
    rw [halfLoop, if_pos hinn]
    simp only
    rw [halfStep_eq hc hzero hmono hL hki hk, halfAt_size hmono,
      show BPLUSTREE_NODE_SIZE / 2 = 512 from rfl]
    by_cases hsize : 512 ≤ halfSize c ki L (k + 1)
    · rw [if_pos hsize]
      cases hn : n - k with
      | zero => rfl
      | succ m => rw [splitFrom, if_pos hsize]
    · rw [if_neg hsize]
      have hlt : k < n := by
        by_contra hge
        obtain rfl : k = n := by omega
        exact hsize hfull
      rw [ih (k + 1) (by omega) (by omega), show n - k = (n - (k + 1)) + 1 by omega]
      rw [splitFrom, if_neg hsize]

end

/-- What the first loop finds in a packed node. -/
theorem Packed.firstHalf_eq {node : Buffer} {es : List Entry} (h : Packed node es) {ki L T : Nat}
    (hL : L ≠ 0) (hki : ki ≤ es.length)
    (hT : T = splitPoint (fun i => keysLength (es.take i)) es.length ki L)
    (hfull : 512 ≤ halfSize (fun i => keysLength (es.take i)) ki L (es.length + 1)) :
    firstHalf node ki L =
      if T ≤ ki then ⟨T, T, 0, (keysLength (es.take T) : Nat), 0⟩
      else ⟨T - 1, T, L, (keysLength (es.take ki) : Nat),
        (keysLength (es.take (T - 1)) - keysLength (es.take ki) : Nat)⟩ := by
  have hbounds := splitFrom_bounds (fun i => keysLength (es.take i)) ki L es.length 1
  have hloop := halfLoop_eq (c := fun i => keysLength (es.take i))
    (fun i hi => h.keyEnd_succ hi) (by simp) (fun i j => keysLength_take_le es) hL hki hfull
    (es.length + 2) 0 (by omega) (by omega)
  have hstart : halfAt (fun i => keysLength (es.take i)) ki L 0 = ⟨0, 0, 0, 0, 0⟩ := by
    simp [halfAt]
  rw [hstart, Nat.sub_zero, Nat.zero_add] at hloop
  change halfLoop _ _ _ _ _ _ = halfAt _ ki L (splitPoint _ es.length ki L) at hloop
  rw [← hT] at hloop
  unfold splitPoint at hT
  unfold firstHalf
  rw [h.count]
  simp only [hloop]
  unfold halfAt
  by_cases hle : T ≤ ki
  · simp only [if_pos hle]
    rw [if_pos ⟨hle, by omega⟩, h.keyEnd_succ (by omega), Nat.sub_add_cancel (by omega)]
  · simp only [if_neg hle]
    rw [if_neg fun hk => hle hk.1]

/-! ## The new node -/

section FillOther

variable {node other key : Buffer} {kl vs k ki b L a : Nat} {v : Int}

theorem copyBefore_spec (hkl : 28 + b ≤ kl) (hvs : kl + 2 * k ≤ vs) {r : Buffer}
    (hr : r = copyBefore node other kl vs k b) :
    (∀ i, i < 28 → r i = other i) ∧ (∀ j, j < b → r (28 + j) = node (28 + j)) ∧
      (∀ i, i < k → load16 r (kl + 2 * i) = load16 node (keyLengths node + 2 * i)) ∧
      ∀ i, i < k → load64 r (vs + 8 * i) = load64 node (values node + 8 * i) := by
  simp only [copyBefore, keys, sizeofNode] at hr
  subst hr
  refine ⟨fun i hi => ?_, fun j hj => ?_, fun i hi => ?_, fun i hi => ?_⟩
  · rw [memcpy_outside (by omega), memcpy_outside (by omega), memcpy_outside (by omega)]
  · rw [memcpy_outside (by omega), memcpy_outside (by omega), memcpy_inside (by omega) (by omega)]
    exact congrArg _ (by omega)
  · refine load16_congr fun j hj => ?_
    rw [memcpy_outside (by omega), memcpy_inside (by omega) (by omega)]
    exact congrArg _ (by omega)
  · refine load64_congr fun j hj => ?_
    rw [memcpy_inside (by omega) (by omega)]
    exact congrArg _ (by omega)

theorem copyNew_spec (hkl : 28 + b + L ≤ kl) (hvs : kl + 2 * ki + 2 ≤ vs) (hlen : b + L < 2 ^ 16)
    (hv : IsInt64 v) {r : Buffer} (hr : r = copyNew other kl vs ki b key L v) :
    (∀ i, (i < 28 + b ∨ 28 + b + L ≤ i) → (i < kl + 2 * ki ∨ kl + 2 * ki + 2 ≤ i) →
        (i < vs + 8 * ki ∨ vs + 8 * ki + 8 ≤ i) → r i = other i) ∧
      (∀ j, j < L → r (28 + b + j) = key j) ∧
      load16 r (kl + 2 * ki) = b + L ∧ load64 r (vs + 8 * ki) = v := by
  simp only [copyNew, keys, sizeofNode] at hr
  subst hr
  refine ⟨fun i h₁ h₂ h₃ => ?_, fun j hj => ?_, ?_, load64_store64_same _ hv⟩
  · rw [store64_outside (by omega), store16_outside (by omega), memcpy_outside (by omega)]
  · rw [store64_outside (by omega), store16_outside (by omega), memcpy_inside (by omega) (by omega)]
    exact congrArg _ (by omega)
  · rw [load16_store64_disjoint (by omega), load16_store16_same _ (by omega), Nat.add_comm]

theorem copyLengths_spec (hsmall : ∀ i, i < k →
    load16 node (keyLengths node + 2 * (ki + i)) + L < 2 ^ 16) {r : Buffer}
    (hr : r = copyLengths kl (keyLengths node) ki L node k other) :
    (∀ i, (i < kl + 2 * (ki + 1) ∨ kl + 2 * (ki + 1 + k) ≤ i) → r i = other i) ∧
      ∀ i, i < k → load16 r (kl + 2 * (ki + 1 + i)) =
        load16 node (keyLengths node + 2 * (ki + i)) + L := by
  subst hr
  induction k with
  | zero => exact ⟨fun i _ => rfl, fun i hi => by omega⟩
  | succ k ih =>
    obtain ⟨ihout, ihin⟩ := ih fun i hi => hsmall i (by omega)
    rw [copyLengths]
    refine ⟨fun i hi => ?_, fun i hi => ?_⟩
    · rw [store16_outside (by omega), ihout i (by omega)]
    · by_cases hik : i = k
      · subst hik
        rw [show ki + 1 + i = ki + i + 1 by omega, load16_store16_same _ (hsmall i (by omega))]
      · rw [load16_store16_disjoint (by omega), ihin i (by omega)]

/-- The keys after the new one are copied behind it. -/
theorem copyAfter_spec (hkl : 28 + b + L + a ≤ kl) (hvs : kl + 2 * (ki + 1 + k) ≤ vs)
    (hsmall : ∀ i, i < k → load16 node (keyLengths node + 2 * (ki + i)) + L < 2 ^ 16)
    {r : Buffer} (hr : r = copyAfter node other kl vs ki k b L a) :
    (∀ i, (i < 28 + b + L ∨ 28 + b + L + a ≤ i) →
        (i < kl + 2 * (ki + 1) ∨ kl + 2 * (ki + 1 + k) ≤ i) →
        (i < vs + 8 * (ki + 1) ∨ vs + 8 * (ki + 1 + k) ≤ i) → r i = other i) ∧
      (∀ j, j < a → r (28 + b + L + j) = node (28 + b + j)) ∧
      (∀ i, i < k → load16 r (kl + 2 * (ki + 1 + i)) =
        load16 node (keyLengths node + 2 * (ki + i)) + L) ∧
      ∀ i, i < k → load64 r (vs + 8 * (ki + 1 + i)) = load64 node (values node + 8 * (ki + i)) := by
  simp only [copyAfter, keys, sizeofNode] at hr
  obtain ⟨hout, hin⟩ := @copyLengths_spec _
    (memcpy other (28 + b + L) node (28 + b) a) _ _ _ _ hsmall _ rfl
  subst hr
  refine ⟨fun i h₁ h₂ h₃ => ?_, fun j hj => ?_, fun i hi => ?_, fun i hi => ?_⟩
  · rw [memcpy_outside (by omega), hout i (by omega), memcpy_outside (by omega)]
  · rw [memcpy_outside (by omega), hout _ (by omega), memcpy_inside (by omega) (by omega)]
    exact congrArg _ (by omega)
  · rw [← hin i hi]
    refine load16_congr fun j hj => ?_
    rw [memcpy_outside (by omega)]
  · refine load64_congr fun j hj => ?_
    rw [memcpy_inside (by omega) (by omega)]
    exact congrArg _ (by omega)

end FillOther

/-- The links in the header of the new node. -/
structure OtherLinks (node other other' : Buffer) (nodeOffset : Int) : Prop where
  left : left_link other' = left_link node
  right : right_link other' = nodeOffset
  overflow : overflow_link other' = overflow_link other

theorem counts_spec {header r : Buffer} {t n : Nat} (ht : t < 2 ^ 16) (hn : n < 2 ^ 16)
    (hr : ∀ i, i < 28 → r i = setAllKeyCount (setAllKeyLength header t) n i) :
    all_key_count r = n ∧ all_key_length r = t ∧
      ∀ a, a + 8 ≤ 24 → load64 r a = load64 header a := by
  refine ⟨?_, ?_, fun a ha => ?_⟩
  · rw [all_key_count, load16_congr fun i hi => hr _ (by omega)]
    exact load16_store16_same _ hn
  · rw [all_key_length, load16_congr fun i hi => hr _ (by omega), setAllKeyCount,
      load16_store16_disjoint (by omega)]
    exact load16_store16_same _ ht
  · rw [load64_congr fun i hi => hr _ (by omega), setAllKeyCount, setAllKeyLength,
      load64_store16_disjoint (by omega), load64_store16_disjoint (by omega)]

theorem otherHeader_spec {node other r : Buffer} {nodeOffset : Int} {t n : Nat}
    (ht : t < 2 ^ 16) (hn : n < 2 ^ 16) (ho : IsInt64 nodeOffset)
    (hr : ∀ i, i < 28 → r i = otherHeader node nodeOffset other t n i) :
    all_key_count r = n ∧ all_key_length r = t ∧ OtherLinks node other r nodeOffset := by
  obtain ⟨hcount, hlength, hlinks⟩ := counts_spec ht hn hr
  refine ⟨hcount, hlength, ?_, ?_, ?_⟩
  · rw [left_link, hlinks _ (by omega), setRightLink, load64_store64_disjoint (by omega)]
    exact load64_store64_same _ (isInt64_load64 _ _)
  · exact (hlinks _ (by omega)).trans (load64_store64_same _ ho)
  · rw [overflow_link, hlinks _ (by omega), setRightLink, setLeftLink,
      load64_store64_disjoint (by omega), load64_store64_disjoint (by omega)]
    rfl

theorem Packed.part {node : Buffer} {A B C : List Entry} (h : Packed node (A ++ (B ++ C))) :
    Slots node (keyLengths node) (values node) A.length (keysLength A) B := by
  have := (slots_append.1 (slots_append.1 h.slots).2).1
  simpa using this

/-- **The new node without the new key**: the first entries of the old one. -/
theorem fillOther_before {node other key : Buffer} {nodeOffset v : Int} {ki : Nat}
    {A R : List Entry} (h : Packed node (A ++ R)) (hf : Fits (A ++ R)) (hA : A ≠ [])
    (hki : A.length ≤ ki) (ho : IsInt64 nodeOffset) {r : Buffer}
    (hr : r = fillOther node nodeOffset other
      ⟨A.length, A.length, 0, (keysLength A : Nat), 0⟩ ki key v) :
    Packed r A ∧ OtherLinks node other r nodeOffset := by
  have hlen := hf.keysLength_le
  have hpos := length_le_keysLength fun e he => hf.key_pos e (mem_append_left R he)
  have hne : A.length ≠ 0 := by simpa using hA
  rw [keysLength_append, length_append] at hlen
  have hru := le_round_up (28 + keysLength A)
  unfold fillOther at hr
  simp only [Int.toNat_natCast, Int.toNat_zero, Nat.zero_add, Nat.add_zero, ne_eq, not_true,
    if_false] at hr
  rw [if_pos (by omega), if_neg (by omega)] at hr
  obtain ⟨hcount, hlength, -⟩ := @otherHeader_spec node other _ _ _ _
    (show keysLength A < 2 ^ 16 by omega) (show A.length < 2 ^ 16 by omega) ho fun i _ => rfl
  obtain ⟨hkl, hvs⟩ := layout_of_header hcount hlength
  rw [hkl, hvs] at hr
  obtain ⟨hhead, hbytes, hlens, hvals⟩ := copyBefore_spec (by omega) (by omega) hr
  obtain ⟨hcount', hlength', hlinks⟩ := otherHeader_spec (by omega) (by omega) ho hhead
  refine ⟨packed_of_header hcount' hlength' rfl rfl ?_, hlinks⟩
  refine (slots_append.1 h.slots).1.move (fun i hi => ?_) (fun i hi => ?_) fun j hj => ?_
  · rw [Nat.zero_add]
    have := hlens i hi
    omega
  · rw [Nat.zero_add]
    exact hvals i hi
  · exact hbytes j hj

/-- A node put together from the entries of `node` behind the first `p` with `t` key bytes: `k`
entries with `b` key bytes, a new one, and the `m` entries with `a` key bytes that follow. -/
structure CopiedParts (node r header key : Buffer) (kl vs p t k b L m a : Nat) (v : Int) :
    Prop where
  head : ∀ i, i < 28 → r i = header i
  bytes₁ : ∀ j, j < b → r (28 + j) = node (28 + t + j)
  lens₁ : ∀ i, i < k → load16 r (kl + 2 * i) + t = load16 node (keyLengths node + 2 * (p + i))
  vals₁ : ∀ i, i < k → load64 r (vs + 8 * i) = load64 node (values node + 8 * (p + i))
  bytes : ∀ j, j < L → r (28 + b + j) = key j
  len : load16 r (kl + 2 * k) = b + L
  val : load64 r (vs + 8 * k) = v
  bytes₂ : ∀ j, j < a → r (28 + b + L + j) = node (28 + t + b + j)
  lens₂ : ∀ i, i < m → load16 r (kl + 2 * (k + 1 + i)) + t =
    load16 node (keyLengths node + 2 * (p + k + i)) + L
  vals₂ : ∀ i, i < m → load64 r (vs + 8 * (k + 1 + i)) = load64 node (values node + 8 * (p + k + i))

section CopiedParts

variable {node header key r₁ r₂ r : Buffer} {kl vs k b L m a : Nat} {v : Int}

theorem copiedParts (hkl : 28 + b + L + a ≤ kl) (hvs : vs = kl + 2 * (k + 1 + m))
    (hk : b = 0 → k = 0) (hm : a = 0 → m = 0) (hlen : b + L < 2 ^ 16) (hv : IsInt64 v)
    (hsmall : ∀ i, i < m → load16 node (keyLengths node + 2 * (k + i)) + L < 2 ^ 16)
    (hr₁ : r₁ = if b ≠ 0 then copyBefore node header kl vs k b else header)
    (hr₂ : r₂ = copyNew r₁ kl vs k b key L v)
    (hr : r = if a ≠ 0 then copyAfter node r₂ kl vs k m b L a else r₂) :
    CopiedParts node r header key kl vs 0 0 k b L m a v := by
  -- the keys before the new one
  obtain ⟨hhead, hbytes, hlens, hvals⟩ :
      (∀ i, i < 28 → r₁ i = header i) ∧ (∀ j, j < b → r₁ (28 + j) = node (28 + j)) ∧
      (∀ i, i < k → load16 r₁ (kl + 2 * i) = load16 node (keyLengths node + 2 * i)) ∧
      ∀ i, i < k → load64 r₁ (vs + 8 * i) = load64 node (values node + 8 * i) := by
    by_cases hb : b = 0
    · rw [if_neg (not_not.2 hb)] at hr₁
      have := hk hb
      exact ⟨fun i _ => by rw [hr₁], fun j hj => by omega, fun i hi => by omega,
        fun i hi => by omega⟩
    · rw [if_pos hb] at hr₁
      exact copyBefore_spec (by omega) (by omega) hr₁
  obtain ⟨hframe₂, hnew, hnewlen, hnewval⟩ := copyNew_spec (by omega) (by omega) hlen hv hr₂
  -- the keys behind it
  obtain ⟨hframe₃, hbytes₃, hlens₃, hvals₃⟩ :
      (∀ i, (i < 28 + b + L ∨ 28 + b + L + a ≤ i) →
        (i < kl + 2 * (k + 1) ∨ kl + 2 * (k + 1 + m) ≤ i) →
        (i < vs + 8 * (k + 1) ∨ vs + 8 * (k + 1 + m) ≤ i) → r i = r₂ i) ∧
      (∀ j, j < a → r (28 + b + L + j) = node (28 + b + j)) ∧
      (∀ i, i < m → load16 r (kl + 2 * (k + 1 + i)) =
        load16 node (keyLengths node + 2 * (k + i)) + L) ∧
      ∀ i, i < m → load64 r (vs + 8 * (k + 1 + i)) = load64 node (values node + 8 * (k + i)) := by
    by_cases ha : a = 0
    · rw [if_neg (not_not.2 ha)] at hr
      have := hm ha
      exact ⟨fun i _ _ _ => by rw [hr], fun j hj => by omega, fun i hi => by omega,
        fun i hi => by omega⟩
    · rw [if_pos ha] at hr
      exact copyAfter_spec (by omega) (by omega) hsmall hr
  have hboth : ∀ i, (i < 28 + b ∨ 28 + b + L + a ≤ i) → (i < kl + 2 * k ∨ vs ≤ i) →
      (i < vs + 8 * k) → r i = r₁ i := by
    intro i h₁ h₂ h₃
    rw [hframe₃ i (by omega) (by omega) (by omega), hframe₂ i (by omega) (by omega) (by omega)]
  refine ⟨fun i hi => ?_, fun j hj => ?_, fun i hi => ?_, fun i hi => ?_, fun j hj => ?_, ?_, ?_,
    hbytes₃, fun i hi => ?_, fun i hi => ?_⟩
  · rw [hboth i (by omega) (by omega) (by omega), hhead i hi]
  · rw [hboth _ (by omega) (by omega) (by omega), hbytes j hj, Nat.add_zero]
  · rw [Nat.add_zero, Nat.zero_add, ← hlens i hi]
    exact load16_congr fun j hj => hboth _ (by omega) (by omega) (by omega)
  · rw [Nat.zero_add, ← hvals i hi]
    exact load64_congr fun j hj => hboth _ (by omega) (by omega) (by omega)
  · rw [hframe₃ _ (by omega) (by omega) (by omega), hnew j hj]
  · rw [← hnewlen]
    exact load16_congr fun j hj => hframe₃ _ (by omega) (by omega) (by omega)
  · rw [← hnewval]
    exact load64_congr fun j hj => hframe₃ _ (by omega) (by omega) (by omega)
  · rw [Nat.add_zero, Nat.zero_add, hlens₃ i hi]
  · rw [Nat.zero_add, hvals₃ i hi]

end CopiedParts

/-- Parts of a packed node and a new entry make up the slots of a new node. -/
theorem CopiedParts.slots {node r header key : Buffer} {kl vs L : Nat} {v : Int}
    {S A B R : List Entry} (h : Packed node (S ++ (A ++ (B ++ R))))
    (hp : CopiedParts node r header key kl vs S.length (keysLength S) A.length (keysLength A) L
      B.length (keysLength B) v) : Slots r kl vs 0 0 (A ++ (takeKey key L, v) :: B) := by
  have hS := (slots_append.1 h.slots).2
  rw [Nat.zero_add, Nat.zero_add] at hS
  obtain ⟨hA, hrest⟩ := slots_append.1 hS
  have hB := (slots_append.1 hrest).1
  refine slots_append.2 ⟨?_, ⟨?_, ?_, ?_⟩, ?_⟩
  · refine hA.move (fun i hi => ?_) (fun i hi => ?_) fun j hj => ?_
    · rw [Nat.zero_add]
      have := hp.lens₁ i hi
      omega
    · rw [Nat.zero_add]
      exact hp.vals₁ i hi
    · exact hp.bytes₁ j hj
  · rw [takeKey_length, Nat.zero_add, Nat.zero_add]
    exact hp.len
  · rw [Nat.zero_add]
    exact hp.val
  · intro j hj
    rw [takeKey_getElem, Nat.zero_add]
    rw [takeKey_length] at hj
    exact hp.bytes j hj
  · rw [Nat.zero_add, Nat.zero_add, takeKey_length]
    refine hB.move (fun i hi => ?_) (fun i hi => ?_) fun j hj => ?_
    · have := hp.lens₂ i hi
      omega
    · exact hp.vals₂ i hi
    · rw [show 28 + (keysLength A + L) + j = 28 + keysLength A + L + j by omega,
        show 28 + (keysLength S + keysLength A) + j = 28 + keysLength S + keysLength A + j by omega]
      exact hp.bytes₂ j hj

/-- **The new node with the new key.** -/
theorem fillOther_after {node other key : Buffer} {nodeOffset v : Int} {L : Nat}
    {A B R : List Entry} (h : Packed node (A ++ (B ++ R))) (hf : Fits (A ++ (B ++ R)))
    (hL : 0 < L) (hL' : L ≤ BPLUSTREE_MAX_KEY_LENGTH) (hv : IsInt64 v) (ho : IsInt64 nodeOffset)
    {r : Buffer} (hr : r = fillOther node nodeOffset other
      ⟨A.length + B.length, A.length + B.length + 1, L, (keysLength A : Nat),
        (keysLength B : Nat)⟩ A.length key v) :
    Packed r (A ++ (takeKey key L, v) :: B) ∧ OtherLinks node other r nodeOffset := by
  have hlen := hf.keysLength_le
  have hposA := length_le_keysLength fun e he => hf.key_pos e (mem_append_left _ he)
  have hposB := length_le_keysLength fun e he => hf.key_pos e
    (mem_append_right A (mem_append_left R he))
  simp only [keysLength_append, length_append, BPLUSTREE_MAX_KEY_LENGTH] at hlen hL'
  have hsmall : ∀ i, i < B.length →
      load16 node (keyLengths node + 2 * (A.length + i)) + L < 2 ^ 16 := by
    intro i hi
    have := (h.part.keyEnd_bounds hi).2
    omega
  have hru := le_round_up (28 + (L + keysLength A + keysLength B))
  unfold fillOther at hr
  simp only [Int.toNat_natCast] at hr
  rw [if_pos (show A.length + B.length + 1 > A.length by omega),
    if_pos (show L ≠ 0 by omega), show A.length + B.length + 1 - A.length - 1 = B.length by omega]
    at hr
  obtain ⟨hcount, hlength, -⟩ := @otherHeader_spec node other _ _ _ _
    (show L + keysLength A + keysLength B < 2 ^ 16 by omega)
    (show A.length + B.length + 1 < 2 ^ 16 by omega) ho fun i _ => rfl
  obtain ⟨hkl, hvs⟩ := layout_of_header hcount hlength
  rw [hkl, hvs] at hr
  have hparts := copiedParts (by omega) (by omega) (by omega) (by omega) (by omega) hv hsmall rfl
    rfl hr
  obtain ⟨hcount', hlength', hlinks⟩ := otherHeader_spec (by omega) (by omega) ho hparts.head
  refine ⟨packed_of_header hcount' hlength' ?_ ?_ (CopiedParts.slots (S := []) h hparts), hlinks⟩
  · simp only [length_append, length_cons]
    omega
  · simp only [keysLength_append, keysLength_cons, takeKey_length]
    omega

end BFS
