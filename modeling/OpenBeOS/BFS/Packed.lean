import OpenBeOS.BFS.Node

/-! # Decoded nodes

`Packed node es`: the bytes of `node` decode to the entries `es`. The entries are described
slot by slot (`Slots`), so that a list cut in two is packed exactly when both parts are, the
second one behind the first. The two edits of a node that has room, `insertKey` and
`removeKey`, then act on the entry list as expected.
-/

namespace BFS

open Bytes List

/-! ## Entries -/

/-- The bytes of a key. -/
abbrev Key : Type := List UInt8

/-- A key and its value (a child or a duplicate node, or the value stored for the key). -/
abbrev Entry : Type := Key × Int

/-- The total length of the keys. -/
def keysLength (es : List Entry) : Nat := (es.map (fun e => e.1.length)).sum

@[simp] theorem keysLength_nil : keysLength [] = 0 := rfl

@[simp] theorem keysLength_cons (e : Entry) (es : List Entry) :
    keysLength (e :: es) = e.1.length + keysLength es := by simp [keysLength]

@[simp] theorem keysLength_append (A B : List Entry) :
    keysLength (A ++ B) = keysLength A + keysLength B := by simp [keysLength]

/-- The bytes a node with these entries occupies. -/
def usedBy (es : List Entry) : Nat := round_up (sizeofNode + keysLength es) + es.length * (2 + 8)

/-- The entries a node may hold: key lengths in bounds, 64-bit values, room for all. -/
structure Fits (es : List Entry) : Prop where
  key_pos : ∀ e ∈ es, BPLUSTREE_MIN_KEY_LENGTH ≤ e.1.length
  key_le : ∀ e ∈ es, e.1.length ≤ BPLUSTREE_MAX_KEY_LENGTH
  value : ∀ e ∈ es, IsInt64 e.2
  room : usedBy es ≤ BPLUSTREE_NODE_SIZE

variable {es : List Entry} {node : Buffer} {A B : List Entry} {m : Buffer} {kl vs : Nat} {e : Entry}

theorem Fits.keysLength_le (h : Fits es) : 28 + keysLength es + es.length * 10 ≤ 1024 := by
  have := h.room
  have := le_round_up (28 + keysLength es)
  simp only [usedBy, sizeofNode, BPLUSTREE_NODE_SIZE] at *
  omega

theorem length_le_keysLength
    (h : ∀ e ∈ es, BPLUSTREE_MIN_KEY_LENGTH ≤ e.1.length) : es.length ≤ keysLength es := by
  induction es with
  | nil => simp
  | cons e es ih =>
    have h1 : 1 ≤ e.1.length := h e (by simp)
    have h2 := ih (fun x hx => h x (by simp [hx]))
    simp only [length_cons, keysLength_cons]
    omega

/-! ## Slots -/

/-- The slot `pos` of the arrays at `kl` and `vs` holds `e`, whose key starts at the key
byte `start`. -/
structure SlotAt (m : Buffer) (kl vs pos start : Nat) (e : Entry) : Prop where
  keyEnd : load16 m (kl + 2 * pos) = start + e.1.length
  value : load64 m (vs + 8 * pos) = e.2
  bytes : ∀ j (h : j < e.1.length), m (28 + start + j) = e.1[j]

/-- The slots from `pos` on hold the entries `es`. -/
def Slots (m : Buffer) (kl vs : Nat) : Nat → Nat → List Entry → Prop
  | _, _, [] => True
  | pos, start, e :: es =>
    SlotAt m kl vs pos start e ∧ Slots m kl vs (pos + 1) (start + e.1.length) es

theorem slots_append {pos start : Nat} : Slots m kl vs pos start (A ++ B) ↔
      Slots m kl vs pos start A ∧ Slots m kl vs (pos + A.length) (start + keysLength A) B := by
  induction A generalizing pos start with
  | nil => simp [Slots]
  | cons a A ih =>
    simp only [cons_append, Slots, ih, length_cons, keysLength_cons, and_assoc]
    rw [show pos + 1 + A.length = pos + (A.length + 1) by omega,
      show start + a.1.length + keysLength A = start + (a.1.length + keysLength A) by omega]

/-- Slots whose arrays and key bytes are found unchanged elsewhere: the end positions are
shifted with the start of the first key. -/
theorem Slots.move {m m' : Buffer} {kl vs kl' vs' : Nat} :
    ∀ {pos start pos' start' : Nat}, Slots m kl vs pos start es → (∀ i, i < es.length →
        load16 m' (kl' + 2 * (pos' + i)) + start = load16 m (kl + 2 * (pos + i)) + start') →
      (∀ i, i < es.length → load64 m' (vs' + 8 * (pos' + i)) = load64 m (vs + 8 * (pos + i))) →
      (∀ j, j < keysLength es → m' (28 + start' + j) = m (28 + start + j)) →
      Slots m' kl' vs' pos' start' es := by
  induction es with
  | nil => intros; trivial
  | cons e es ih =>
    intro pos start pos' start' h hl hv hb
    obtain ⟨h0, hrest⟩ := h
    have hl0 := hl 0 (by simp)
    have hv0 := hv 0 (by simp)
    rw [keysLength_cons] at hb
    rw [Nat.add_zero, Nat.add_zero] at hl0 hv0
    refine ⟨⟨?_, ?_, ?_⟩, ih hrest ?_ ?_ ?_⟩
    · have := h0.keyEnd; omega
    · rw [hv0, h0.value]
    · intro j hj
      rw [hb j (by omega), h0.bytes j hj]
    · intro i hi
      have := hl (i + 1) (by simpa using hi)
      rw [show pos' + (i + 1) = pos' + 1 + i by omega,
        show pos + (i + 1) = pos + 1 + i by omega] at this
      omega
    · intro i hi
      have := hv (i + 1) (by simpa using hi)
      rwa [show pos' + (i + 1) = pos' + 1 + i by omega,
        show pos + (i + 1) = pos + 1 + i by omega] at this
    · intro j hj
      have := hb (e.1.length + j) (by omega)
      rwa [← Nat.add_assoc, ← Nat.add_assoc, Nat.add_assoc 28, Nat.add_assoc 28 start] at this

theorem Slots.keyEnd_last {kl vs pos start : Nat}
    (h : Slots m kl vs pos start es) (hne : es ≠ []) :
    load16 m (kl + 2 * (pos + es.length - 1)) = start + keysLength es := by
  induction es generalizing pos start with
  | nil => exact absurd rfl hne
  | cons e es ih =>
    obtain ⟨h0, hrest⟩ := h
    cases es with
    | nil => simpa using h0.keyEnd
    | cons e' es =>
      have := ih hrest (by simp)
      simp only [length_cons, keysLength_cons] at this ⊢
      rw [show pos + (es.length + 1 + 1) - 1 = pos + 1 + (es.length + 1) - 1 by omega, this]
      omega

/-! ## Packed nodes -/

/-- The bytes of `node` decode to the entries `es`. -/
structure Packed (node : Buffer) (es : List Entry) : Prop where
  count : all_key_count node = es.length
  length : all_key_length node = keysLength es
  slots : Slots node (keyLengths node) (values node) 0 0 es

theorem layout_of_header {header : Buffer} {t n : Nat} (hcount : all_key_count header = n)
    (hlength : all_key_length header = t) :
    keyLengths header = round_up (28 + t) ∧ values header = round_up (28 + t) + n * 2 := by
  rw [values, keyLengths, hlength, hcount]
  exact ⟨rfl, rfl⟩

theorem Packed.keyLengths_eq (h : Packed node es) :
    keyLengths node = round_up (28 + keysLength es) := (layout_of_header h.count h.length).1

theorem Packed.values_eq (h : Packed node es) :
    values node = round_up (28 + keysLength es) + es.length * 2 :=
  (layout_of_header h.count h.length).2

section

variable (h : Packed node (A ++ e :: B))
include h

theorem Packed.slotAt :
    SlotAt node (keyLengths node) (values node) A.length (keysLength A) e := by
  have := (slots_append.mp h.slots).2.1
  simpa using this

theorem Packed.keyAt_eq (hf : Fits (A ++ e :: B)) :
    keyAt node A.length = (28 + keysLength A, e.1.length) := by
  have hslot := h.slotAt.keyEnd
  have hlen := hf.keysLength_le
  simp only [keysLength_append, keysLength_cons] at hlen
  have hbefore : (if A.length ≠ 0 then load16 node (keyLengths node + 2 * (A.length - 1)) else 0)
      = keysLength A := by
    by_cases hA : A = []
    · simp [hA]
    · have hne : A.length ≠ 0 := by simpa using hA
      have := (slots_append.mp h.slots).1.keyEnd_last hA
      rw [if_pos hne]
      simpa using this
  simp only [keyAt, hbefore, hslot, keys, sizeofNode, Prod.mk.injEq, true_and]
  omega

theorem Packed.valueAt_eq : valueAt node A.length = e.2 := h.slotAt.value

theorem Packed.keyBytesAt_eq (hf : Fits (A ++ e :: B)) :
    keyBytesAt node A.length = e.1 := by
  rw [keyBytesAt, h.keyAt_eq hf]
  apply ext_getElem
  · simp
  · intro i h1 h2
    simp only [getElem_map, getElem_range]
    exact h.slotAt.bytes i h2

end

/-- The first `n` bytes behind a pointer. -/
def takeKey (key : Buffer) (n : Nat) : Key := (List.range n).map key

@[simp] theorem takeKey_length (key : Buffer) (n : Nat) : (takeKey key n).length = n := by
  simp [takeKey]

theorem takeKey_getElem {key : Buffer} {n j : Nat} (h : j < (takeKey key n).length) :
    (takeKey key n)[j] = key j := by simp [takeKey]

theorem packed_of_header {n t : Nat}
    (hc : all_key_count node = n) (hl : all_key_length node = t)
    (hn : n = es.length) (ht : t = keysLength es)
    (hs : Slots node (round_up (28 + t)) (round_up (28 + t) + n * 2) 0 0 es) :
    Packed node es := by
  refine ⟨hc.trans hn, hl.trans ht, ?_⟩
  rw [values, keyLengths, hc, hl]
  exact hs

theorem Slots.keyEnd_bounds : ∀ {pos start i : Nat}, Slots m kl vs pos start es → i < es.length →
      start ≤ load16 m (kl + 2 * (pos + i)) ∧
        load16 m (kl + 2 * (pos + i)) ≤ start + keysLength es := by
  induction es with
  | nil => intro _ _ i _ hi; simp at hi
  | cons e es ih =>
    intro pos start i h hi
    obtain ⟨h0, hrest⟩ := h
    rw [keysLength_cons]
    cases i with
    | zero => have := h0.keyEnd; rw [Nat.add_zero]; omega
    | succ i =>
      have := ih hrest (by simpa using hi)
      rw [show pos + (i + 1) = pos + 1 + i by omega]
      omega

/-! ## Inserting a key -/

section InsertKey

variable {m : Buffer} {newValues values newKeyLengths keyLengths index count : Nat}

variable {value : Int} {i : Nat}

theorem insertValue_below (hi : i < newValues) :
    insertValue m newValues values index count value i = m i := by
  simp only [insertValue]
  rw [store64_outside (by omega), memmove_outside (by omega), memmove_outside (by omega)]

theorem insertValue_before (h : values ≤ newValues) (hi : i < index) :
    load64 (insertValue m newValues values index count value) (newValues + 8 * i)
      = load64 m (values + 8 * i) := by
  simp only [insertValue]
  rw [load64_store64_disjoint (by omega)]
  apply load64_congr
  intro j hj
  rw [memmove_inside (by omega) (by omega), memmove_outside (by omega)]
  exact congrArg _ (by omega)

theorem insertValue_at (hv : IsInt64 value) :
    load64 (insertValue m newValues values index count value) (newValues + 8 * index) = value :=
  load64_store64_same _ hv

theorem insertValue_behind (hi : i < count - index) :
    load64 (insertValue m newValues values index count value) (newValues + 8 * (index + 1 + i))
      = load64 m (values + 8 * (index + i)) := by
  simp only [insertValue]
  rw [load64_store64_disjoint (by omega)]
  apply load64_congr
  intro j hj
  rw [memmove_outside (by omega), memmove_inside (by omega) (by omega)]
  exact congrArg _ (by omega)

/-- What the loop over the key end positions does: it reads `keyLengths` upwards of what it
has written, because `newKeyLengths` lies behind it. -/
theorem insertKeyLoop_spec (keyLength : Nat) (h : keyLengths ≤ newKeyLengths) (c : Nat) :
    ∀ m : Buffer, (∀ a, a < newKeyLengths + 2 * (index + 1) ∨ newKeyLengths + 2 * c ≤ a →
        insertKeyLoop newKeyLengths keyLengths keyLength index c m a = m a) ∧
      (∀ i, index < i → i < c → load16 (insertKeyLoop newKeyLengths keyLengths keyLength index c m)
            (newKeyLengths + 2 * i)
          = (load16 m (keyLengths + 2 * (i - 1)) + keyLength) % 2 ^ 16) := by
  induction c with
  | zero => intro m; exact ⟨fun _ _ => rfl, fun i _ h => absurd h (by omega)⟩
  | succ c ih =>
    intro m
    by_cases hc : c + 1 > index + 1
    · rw [insertKeyLoop, if_pos hc]
      generalize hm' : store16 m (newKeyLengths + 2 * c)
        (load16 m (keyLengths + 2 * (c - 1)) + keyLength) = m'
      obtain ⟨h1, h2⟩ := ih m'
      refine ⟨fun a ha => ?_, fun i hi hic => ?_⟩
      · rw [h1 a (by omega), ← hm', store16_outside (by omega)]
      · by_cases hi' : i = c
        · subst hi'
          rw [load16_congr fun j (_ : j < 2) => h1 (newKeyLengths + 2 * i + j) (by omega), ← hm']
          exact loadLE_storeLE_same _ _ _ _
        · rw [h2 i hi (by omega), ← hm', load16_store16_disjoint (by omega)]
    · rw [insertKeyLoop, if_neg hc]
      exact ⟨fun _ _ => rfl, fun i h1 h2 => absurd h2 (by omega)⟩

/-- The length of the keys before the one inserted, as `insertKeyLength` finds it. -/
def keyStartAt (m : Buffer) (keyLengths index : Nat) : Nat :=
  if index > 0 then load16 m (keyLengths + 2 * (index - 1)) else 0

theorem insertKeyLength_spec {keyLength : Nat} (h : keyLengths ≤ newKeyLengths)
    (hc : index < count)  {r : Buffer × Nat}
    (hr : insertKeyLength m newKeyLengths keyLengths index count keyLength = r) :
    (∀ a, a < newKeyLengths ∨ newKeyLengths + 2 * count ≤ a → r.1 a = m a) ∧
    (∀ i, i < index → load16 r.1 (newKeyLengths + 2 * i) = load16 m (keyLengths + 2 * i)) ∧
    r.2 = keyStartAt m keyLengths index ∧
    load16 r.1 (newKeyLengths + 2 * index) = (keyLength + r.2) % 2 ^ 16 ∧
    (∀ i, index < i → i < count → load16 r.1 (newKeyLengths + 2 * i)
      = (load16 m (keyLengths + 2 * (i - 1)) + keyLength) % 2 ^ 16) := by
  obtain ⟨out1, in1⟩ := @insertKeyLoop_spec newKeyLengths keyLengths index keyLength h count m
  generalize h1 : insertKeyLoop newKeyLengths keyLengths keyLength index count m = m1 at *
  generalize h2 : memmove m1 newKeyLengths keyLengths (2 * index) = m2
  have lens2 : ∀ i, i < index →
      load16 m2 (newKeyLengths + 2 * i) = load16 m (keyLengths + 2 * i) := fun i hi => by
    apply load16_congr
    intro j hj
    rw [← h2, memmove_inside (by omega) (by omega), out1 _ (by omega)]
    exact congrArg _ (by omega)
  have hks : r.2 = keyStartAt m keyLengths index := by
    rw [← hr]
    simp only [insertKeyLength, h1, h2, keyStartAt]
    split
    · exact lens2 _ (by omega)
    · rfl
  have h3 : r.1 = store16 m2 (newKeyLengths + 2 * index) (keyLength + r.2) := by
    rw [← hr]
    simp only [insertKeyLength, h1, h2]
  refine ⟨fun a ha => ?_, fun i hi => ?_, hks, ?_, fun i hi hic => ?_⟩
  · rw [h3, store16_outside (by omega), ← h2, memmove_outside (by omega), out1 a (by omega)]
  · rw [h3, load16_store16_disjoint (by omega), lens2 i hi]
  · rw [h3]
    exact loadLE_storeLE_same _ _ _ _
  · rw [h3, load16_store16_disjoint (by omega), ← h2]
    rw [← in1 i hi hic]
    exact loadLE_memmove_disjoint (by omega)

theorem insertKeyBytes_spec {keyLength keyStart t : Nat} {key : Buffer} {r : Buffer}
    (hr : insertKeyBytes m (keyLength + keyStart) keyStart key keyLength
      (keyStart + (keyLength + t)) = r) :
    (∀ i, i < 28 + keyStart ∨ 28 + (keyStart + (keyLength + t)) ≤ i → r i = m i) ∧
    (∀ j, j < keyLength → r (28 + keyStart + j) = key j) ∧
    (∀ j, j < t → r (28 + (keyStart + keyLength) + j) = m (28 + keyStart + j)) := by
  subst hr
  simp only [insertKeyBytes, keys, sizeofNode]
  refine ⟨fun i hi => ?_, fun j hj => ?_, fun j hj => ?_⟩
  · rw [memcpy_outside (by omega), memmove_outside (by omega)]
  · rw [memcpy_inside (by omega) (by omega)]
    exact congrArg _ (by omega)
  · rw [memcpy_outside (by omega), memmove_inside (by omega) (by omega)]
    exact congrArg _ (by omega)

/-- The bytes of a node before and after `InsertKey()`, for a node of `a + b` keys with `s`
and `t` key bytes before and behind the new key. -/
structure InsertedAt (node node' key : Buffer) (a b s t L : Nat) (v : Int) : Prop where
  count : all_key_count node' = a + (b + 1)
  length : all_key_length node' = s + (L + t)
  links : ∀ i, i < 24 → node' i = node i
  endBefore : ∀ i, i < a → load16 node' (round_up (28 + (s + (L + t))) + 2 * i)
    = load16 node (round_up (28 + (s + t)) + 2 * i)
  endAt : load16 node' (round_up (28 + (s + (L + t))) + 2 * a) = L + s
  endBehind : ∀ i, i < b → load16 node' (round_up (28 + (s + (L + t))) + 2 * (a + 1 + i))
    = (load16 node (round_up (28 + (s + t)) + 2 * (a + i)) + L) % 2 ^ 16
  valueBefore : ∀ i, i < a →
    load64 node' (round_up (28 + (s + (L + t))) + (a + (b + 1)) * 2 + 8 * i)
      = load64 node (round_up (28 + (s + t)) + (a + b) * 2 + 8 * i)
  valueAt : load64 node' (round_up (28 + (s + (L + t))) + (a + (b + 1)) * 2 + 8 * a) = v
  valueBehind : ∀ i, i < b →
    load64 node' (round_up (28 + (s + (L + t))) + (a + (b + 1)) * 2 + 8 * (a + 1 + i))
      = load64 node (round_up (28 + (s + t)) + (a + b) * 2 + 8 * (a + i))
  bytesBefore : ∀ j, j < s → node' (28 + j) = node (28 + j)
  bytesAt : ∀ j, j < L → node' (28 + s + j) = key j
  bytesBehind : ∀ j, j < t → node' (28 + (s + L) + j) = node (28 + s + j)

theorem all_key_length_setAllKeyCount (node : Buffer) (count : Nat) :
    all_key_length (setAllKeyCount node count) = all_key_length node :=
  load16_store16_disjoint (by omega)

theorem counts_set {node m : Buffer} {count length c l : Nat}
    (hm : setAllKeyLength (setAllKeyCount node count) length = m) (hcount : count = c)
    (hlength : length = l) (hc : c < 2 ^ 16) (hl : l < 2 ^ 16) :
    all_key_count m = c ∧ all_key_length m = l ∧ BFS.keyLengths m = round_up (28 + l) ∧
      BFS.values m = round_up (28 + l) + c * 2 ∧ ∀ i, i < 24 ∨ 28 ≤ i → m i = node i := by
  subst hm hcount hlength
  have hcount : all_key_count (setAllKeyLength (setAllKeyCount node count) length) = count :=
    (load16_store16_disjoint (by omega)).trans (load16_store16_same _ hc)
  have hlength : all_key_length (setAllKeyLength (setAllKeyCount node count) length) = length :=
    load16_store16_same _ hl
  obtain ⟨hkl, hvs⟩ := layout_of_header hcount hlength
  exact ⟨hcount, hlength, hkl, hvs, fun i hi =>
    (store16_outside (by omega)).trans (store16_outside (by omega))⟩

theorem insertedAt_insertKey {node : Buffer} (key : Buffer) {a b s t : Nat} (L : Nat) {v : Int}
    (hcnt : all_key_count node = a + b) (hlen : all_key_length node = s + t)
    (hstart : keyStartAt node (BFS.keyLengths node) a = s) (hv : IsInt64 v)
    (hroom : s + (L + t) + (a + b) * 10 < 2 ^ 15) :
    InsertedAt node (insertKey node a key L v) key a b s t L v := by
  obtain ⟨hkl, hvs⟩ := layout_of_header hcnt hlen
  generalize hm : setAllKeyLength (setAllKeyCount node (all_key_count node + 1))
    (all_key_length (setAllKeyCount node (all_key_count node + 1)) + L) = m1
  -- the header and the array positions
  obtain ⟨c1, l1, e2, e3, hm1⟩ := @counts_set node m1 _ _ (a + (b + 1)) (s + (L + t)) hm
    (by omega) (by rw [all_key_length_setAllKeyCount]; omega) (by omega) (by omega)
  have hr2 := le_round_up (28 + (s + (L + t)))
  have hr3 : round_up (28 + (s + t)) ≤ round_up (28 + (s + (L + t))) := round_up_mono (by omega)
  have hK28 := le_round_up (28 + (s + t))
  generalize hK : round_up (28 + (s + t)) = K at *
  generalize hN : round_up (28 + (s + (L + t))) = N at *
  generalize hm2 : insertValue m1 (N + (a + (b + 1)) * 2) (K + (a + b) * 2) a
    (a + (b + 1) - 1) v = m2
  have below2 : ∀ i, i < N + (a + (b + 1)) * 2 → m2 i = m1 i := fun i hi => by
    rw [← hm2]; exact insertValue_below hi
  have c2 : all_key_count m2 = a + (b + 1) := (load16_congr fun i _ => below2 _ (by omega)).trans c1
  generalize hr : insertKeyLength m2 N K a (a + (b + 1)) L = r
  obtain ⟨out3, bef3, ks3, at3, beh3⟩ := insertKeyLength_spec hr3 (by omega) hr
  have hks : r.2 = s := by
    rw [ks3, ← hstart, hkl]
    unfold keyStartAt
    split
    · exact load16_congr fun j hj => by rw [below2 _ (by omega), hm1 _ (by omega)]
    · rfl
  rw [hks, Nat.mod_eq_of_lt (by omega)] at at3
  have l3 : all_key_length r.1 = s + (L + t) :=
    (load16_congr fun i _ => (out3 _ (by omega)).trans (below2 _ (by omega))).trans l1
  generalize h4 : insertKeyBytes r.1 (L + s) s key L (s + (L + t)) = m4
  obtain ⟨out4, new4, beh4⟩ := insertKeyBytes_spec h4
  have hgoal : BFS.insertKey node a key L v = m4 := by
    rw [BFS.insertKey, if_neg (by omega)]
    simp only [hm, hkl, hvs, e2, e3, c1, hm2, c2, hr, hks, at3, l3, h4]
  clear hm hkl hvs e2 e3 hr hks h4 ks3 hcnt hlen hstart c2 l3 hroom
  rw [hgoal]
  have out13 : ∀ i, i < N → r.1 i = m1 i := fun i hi =>
    (out3 i (Or.inl hi)).trans (below2 i (by omega))
  have top4 : ∀ i, N + (a + (b + 1)) * 2 ≤ i → m4 i = m2 i := fun i hi =>
    (out4 i (by omega)).trans (out3 i (by omega))
  have low2 : ∀ i, 28 ≤ i → i < N + (a + (b + 1)) * 2 → m2 i = node i := fun i h1 h2 =>
    (below2 i h2).trans (hm1 i (Or.inr h1))
  have hV : K + (a + b) * 2 ≤ N + (a + (b + 1)) * 2 := by omega
  refine ⟨?_, ?_, fun i hi => ?_, fun i hi => ?_, ?_, fun i hi => ?_, fun i hi => ?_, ?_,
    fun i hi => ?_, fun j hj => ?_, new4, fun j hj => ?_⟩ <;> try rw [hN] <;> try rw [hK]
  · exact (load16_congr fun i _ => (out4 _ (by omega)).trans (out13 _ (by omega))).trans c1
  · exact (load16_congr fun i _ => (out4 _ (by omega)).trans (out13 _ (by omega))).trans l1
  · rw [out4 i (by omega), out13 i (by omega), hm1 i (Or.inl hi)]
  · rw [load16_congr fun j hj => out4 _ (by omega), bef3 i hi]
    exact load16_congr fun j hj => low2 _ (by omega) (by omega)
  · rw [load16_congr fun j hj => out4 _ (by omega), at3]
  · rw [load16_congr fun j hj => out4 _ (by omega), beh3 _ (by omega) (by omega),
      show a + 1 + i - 1 = a + i by omega]
    congr 2
    exact load16_congr fun j hj => low2 _ (by omega) (by omega)
  · rw [load64_congr fun j hj => top4 _ (by omega), ← hm2, insertValue_before hV hi]
    exact load64_congr fun j hj => hm1 _ (by omega)
  · rw [load64_congr fun j hj => top4 _ (by omega), ← hm2, insertValue_at hv]
  · rw [load64_congr fun j hj => top4 _ (by omega), ← hm2, insertValue_behind (by omega)]
    exact load64_congr fun j hj => hm1 _ (by omega)
  · rw [out4 _ (by omega), out13 _ (by omega), hm1 _ (by omega)]
  · rw [beh4 j hj, out13 _ (by omega), hm1 _ (by omega)]

/-- **`InsertKey()` inserts one entry.** It puts the pair at `index` and leaves the other
entries and the links as they are. -/
theorem Packed.insertKey {node : Buffer} {A B : List Entry} {key : Buffer} {L : Nat} {v : Int}
    (h : Packed node (A ++ B)) (hv : IsInt64 v)
    (hroom : usedBy (A ++ (takeKey key L, v) :: B) ≤ BPLUSTREE_NODE_SIZE) :
    Packed (insertKey node A.length key L v) (A ++ (takeKey key L, v) :: B) ∧
      ∀ i, i < 24 → BFS.insertKey node A.length key L v i = node i := by
  obtain ⟨hA, hB⟩ := slots_append.mp h.slots
  have hstart : keyStartAt node (BFS.keyLengths node) A.length = keysLength A := by
    unfold keyStartAt
    split
    · have hne : A ≠ [] := by rintro rfl; simp_all
      simpa using hA.keyEnd_last hne
    · have : A = [] := eq_nil_of_length_eq_zero (by omega)
      simp [this]
  have hsmall : keysLength A + (L + keysLength B) + (A.length + B.length) * 10 < 2 ^ 15 := by
    have := le_round_up (28 + (keysLength A + (L + keysLength B)))
    simp only [usedBy, sizeofNode, BPLUSTREE_NODE_SIZE, keysLength_append, keysLength_cons,
      takeKey_length, length_append, length_cons] at hroom
    omega
  have hins := insertedAt_insertKey key L
    (by simpa using h.count) (by simpa using h.length) hstart hv hsmall
  rw [h.values_eq, h.keyLengths_eq, keysLength_append, length_append] at hA hB
  rw [Nat.zero_add, Nat.zero_add] at hB
  refine ⟨packed_of_header hins.count hins.length (by simp) (by simp) ?_, hins.links⟩
  rw [slots_append]
  refine ⟨hA.move ?_ ?_ ?_, ⟨?_, ?_, ?_⟩, hB.move ?_ ?_ ?_⟩
  · intro i hi
    rw [Nat.zero_add, hins.endBefore i hi]
  · intro i hi
    rw [Nat.zero_add, hins.valueBefore i hi]
  · intro j hj
    rw [Nat.add_zero, hins.bytesBefore j hj]
  · rw [Nat.zero_add, hins.endAt, takeKey_length, Nat.zero_add, Nat.add_comm]
  · rw [Nat.zero_add, hins.valueAt]
  · intro j hj
    rw [takeKey_length] at hj
    rw [takeKey_getElem, Nat.zero_add, hins.bytesAt j hj]
  · intro i hi
    have hle := (hB.keyEnd_bounds hi).2
    rw [Nat.zero_add, hins.endBehind i hi, takeKey_length, Nat.zero_add,
      Nat.mod_eq_of_lt (by omega)]
    omega
  · intro i hi
    rw [Nat.zero_add, hins.valueBehind i hi]
  · intro j hj
    rw [takeKey_length, Nat.zero_add, hins.bytesBehind j hj]

end InsertKey

/-! ## Removing a key -/

section RemoveKey

variable {m : Buffer} {newValues values newKeyLengths keyLengths index count : Nat}

theorem removeKeyLoop_spec (len : Nat) (h : newKeyLengths ≤ keyLengths) (n : Nat) :
    ∀ (i : Nat) (m : Buffer), (∀ a, a < newKeyLengths + 2 * i ∨ newKeyLengths + 2 * (i + n) ≤ a →
        removeKeyLoop newKeyLengths keyLengths len n i m a = m a) ∧
      (∀ j, i ≤ j → j < i + n →
        load16 (removeKeyLoop newKeyLengths keyLengths len n i m) (newKeyLengths + 2 * j)
          = (load16 m (keyLengths + 2 * (j + 1)) + 2 ^ 16 - len) % 2 ^ 16) := by
  induction n with
  | zero => intro i m; exact ⟨fun _ _ => rfl, fun j h1 h2 => absurd h2 (by omega)⟩
  | succ n ih =>
    intro i m
    rw [removeKeyLoop]
    generalize hm' : store16 m (newKeyLengths + 2 * i)
      (load16 m (keyLengths + 2 * (i + 1)) + 2 ^ 16 - len) = m'
    obtain ⟨h1, h2⟩ := ih (i + 1) m'
    refine ⟨fun a ha => ?_, fun j hij hj => ?_⟩
    · rw [h1 a (by omega), ← hm', store16_outside (by omega)]
    · by_cases hji : j = i
      · subst hji
        rw [load16_congr fun k (_ : k < 2) => h1 (newKeyLengths + 2 * j + k) (by omega), ← hm']
        exact loadLE_storeLE_same _ _ _ _
      · rw [h2 j (by omega) (by omega), ← hm', load16_store16_disjoint (by omega)]

theorem removeKeyLength_spec {len : Nat} (h : newKeyLengths ≤ keyLengths)
    (hc : index ≤ count) {r : Buffer}
    (hr : removeKeyLength m newKeyLengths keyLengths index count len = r) :
    (∀ a, a < newKeyLengths ∨ newKeyLengths + 2 * count ≤ a → r a = m a) ∧
    (∀ i, i < index → load16 r (newKeyLengths + 2 * i) = load16 m (keyLengths + 2 * i)) ∧
    (∀ i, index ≤ i → i < count → load16 r (newKeyLengths + 2 * i)
      = (load16 m (keyLengths + 2 * (i + 1)) + 2 ^ 16 - len) % 2 ^ 16) := by
  unfold removeKeyLength at hr
  generalize hm1 : (if index > 0 ∧ newKeyLengths ≠ keyLengths then
    memmove m newKeyLengths keyLengths (2 * index) else m) = m1 at hr
  have out1 : ∀ a, a < newKeyLengths ∨ newKeyLengths + 2 * index ≤ a → m1 a = m a := by
    intro a ha
    rw [← hm1]
    split
    · exact memmove_outside ha
    · rfl
  have in1 : ∀ i, i < index → load16 m1 (newKeyLengths + 2 * i) = load16 m (keyLengths + 2 * i) := by
    intro i hi
    rw [← hm1]
    split
    · apply load16_congr
      intro j hj
      rw [memmove_inside (by omega) (by omega)]
      exact congrArg _ (by omega)
    · rw [show newKeyLengths = keyLengths by omega]
  obtain ⟨out2, in2⟩ := removeKeyLoop_spec len h (count - index) index m1
  rw [hr] at out2 in2
  refine ⟨fun a ha => ?_, fun i hi => ?_, fun i h1 h2 => ?_⟩
  · rw [out2 a (by omega), out1 a (by omega)]
  · rw [load16_congr fun j hj => out2 _ (by omega), in1 i hi]
  · rw [in2 i h1 (by omega), load16_congr fun j hj => out1 _ (by omega)]

theorem removeValue_spec (h : newValues ≤ values) (hc : index ≤ count) {r : Buffer}
    (hr : removeValue m newValues values index count = r) :
    (∀ a, a < newValues → r a = m a) ∧
    (∀ i, i < index → load64 r (newValues + 8 * i) = load64 m (values + 8 * i)) ∧
    (∀ i, index ≤ i → i < count →
      load64 r (newValues + 8 * i) = load64 m (values + 8 * (i + 1))) := by
  unfold removeValue at hr
  generalize hm1 : (if index > 0 then memmove m newValues values (8 * index) else m) = m1 at hr
  have out1 : ∀ a, a < newValues ∨ newValues + 8 * index ≤ a → m1 a = m a := by
    intro a ha
    rw [← hm1]
    split
    · exact memmove_outside ha
    · rfl
  have in1 : ∀ i, i < index → load64 m1 (newValues + 8 * i) = load64 m (values + 8 * i) := by
    intro i hi
    rw [← hm1, if_pos (by omega)]
    apply load64_congr
    intro j hj
    rw [memmove_inside (by omega) (by omega)]
    exact congrArg _ (by omega)
  subst hr
  refine ⟨fun a ha => ?_, fun i hi => ?_, fun i h1 h2 => ?_⟩
  · dsimp only
    split
    · rw [memmove_outside (by omega), out1 a (by omega)]
    · exact out1 a (by omega)
  · rw [← in1 i hi]
    dsimp only
    split
    · exact load64_memmove_disjoint (by omega)
    · rfl
  · dsimp only
    rw [if_pos (by omega)]
    apply load64_congr
    intro j hj
    rw [memmove_inside (by omega) (by omega), out1 _ (by omega)]
    exact congrArg _ (by omega)

/-- **`RemoveKey()` removes one entry** and leaves the other entries and the links as they
are. -/
theorem Packed.removeKey {node : Buffer} {A B : List Entry} {e : Entry}
    (h : Packed node (A ++ e :: B)) (hf : Fits (A ++ e :: B)) :
    Packed (removeKey node A.length) (A ++ B) ∧
      ∀ i, i < 24 → BFS.removeKey node A.length i = node i := by
  obtain ⟨hA, -, hB⟩ := slots_append.mp h.slots
  have hkey := h.keyAt_eq hf
  have hlen := hf.keysLength_le
  have hkeyle := hf.key_le e (by simp)
  have hcnt := h.count
  have htot := h.length
  have hkl := h.keyLengths_eq
  have hvs := h.values_eq
  rw [hvs, hkl] at hA hB
  simp only [keysLength_append, keysLength_cons, length_append, length_cons,
    BPLUSTREE_MAX_KEY_LENGTH, Nat.zero_add] at *
  generalize ha : A.length = a at *
  generalize hb : B.length = b at *
  generalize hs : keysLength A = s at *
  generalize ht : keysLength B = t at *
  generalize hL : e.1.length = L at *
  generalize hm : setAllKeyLength (setAllKeyCount node (all_key_count node - 1))
    (all_key_length (setAllKeyCount node (all_key_count node - 1)) - L) = m1
  obtain ⟨c1, l1, e2, e3, hm1⟩ := @counts_set node m1 _ _ (a + b) (s + t) hm
    (by omega) (by rw [all_key_length_setAllKeyCount]; omega) (by omega) (by omega)
  have hr2 := le_round_up (28 + (s + t))
  have hr3 : round_up (28 + (s + t)) ≤ round_up (28 + (s + (L + t))) := round_up_mono (by omega)
  generalize hK : round_up (28 + (s + (L + t))) = K at *
  generalize hN : round_up (28 + (s + t)) = N at *
  generalize hm2 : memmove m1 (28 + s) (28 + s + L) t = m2
  have below2 : ∀ i, i < 28 + s → m2 i = m1 i := fun i hi => by
    rw [← hm2, memmove_outside (by omega)]
  have bytes2 : ∀ j, j < t → m2 (28 + s + j) = node (28 + s + L + j) := fun j hj => by
    rw [← hm2, memmove_inside (by omega) (by omega), hm1 _ (by omega)]
    exact congrArg _ (by omega)
  have top2 : ∀ i, N ≤ i → m2 i = node i := fun i hi => by
    rw [← hm2, memmove_outside (by omega), hm1 i (by omega)]
  have c2 : all_key_count m2 = a + b := (load16_congr fun i _ => below2 _ (by omega)).trans c1
  generalize hm3 : removeKeyLength m2 N K a (a + b) L = m3
  obtain ⟨out3, bef3, beh3⟩ := removeKeyLength_spec hr3 (by omega) hm3
  have c3 : all_key_count m3 = a + b := (load16_congr fun i _ => out3 _ (by omega)).trans c2
  generalize hm4 : removeValue m3 (N + (a + b) * 2) (K + (a + (b + 1)) * 2) a (a + b) = m4
  obtain ⟨out4, bef4, beh4⟩ := removeValue_spec (by omega) (by omega) hm4
  have hgoal : BFS.removeKey node a = m4 := by
    have hd : (!isLeaf node && a == all_key_count node) = false := by
      rw [hcnt, beq_eq_false_iff_ne.mpr (by omega), Bool.and_false]
    rw [BFS.removeKey, if_neg (by omega)]
    simp only [hd, Bool.false_eq_true, if_false, hkey]
    rw [if_neg (by simp only [BPLUSTREE_NODE_SIZE, BPLUSTREE_MAX_KEY_LENGTH]; omega)]
    simp only [hm, hkl, hvs, e2, e3, l1, keys, sizeofNode, Nat.add_sub_cancel_left, hm2, c2,
      hm3, c3, hm4]
  clear hm hkl hvs e2 e3 hm2 hm3 hm4 hcnt htot hkey hf h
  rw [hgoal]
  have low4 : ∀ i, i < N → m4 i = m2 i := fun i hi => (out4 i (by omega)).trans (out3 i (Or.inl hi))
  have hdr : ∀ i, i < 28 → m4 i = m1 i := fun i hi =>
    (low4 i (by omega)).trans (below2 i (by omega))
  refine ⟨packed_of_header ((load16_congr fun i _ => hdr _ (by omega)).trans c1)
    ((load16_congr fun i _ => hdr _ (by omega)).trans l1) (by simp; omega) (by simp; omega) ?_,
    fun i hi => (hdr i (by omega)).trans (hm1 i (Or.inl hi))⟩
  clear c1 l1 c2 c3 hgoal
  rw [hN, slots_append]
  refine ⟨hA.move ?_ ?_ ?_, hB.move ?_ ?_ ?_⟩
  · intro i hi
    rw [Nat.zero_add, load16_congr fun j _ => out4 _ (by omega), bef3 i (by omega)]
    rw [load16_congr fun j _ => top2 _ (by omega)]
  · intro i hi
    rw [Nat.zero_add, bef4 i (by omega), load64_congr fun j _ => out3 _ (by omega)]
    exact load64_congr fun j _ => top2 _ (by omega)
  · intro j hj
    rw [low4 _ (by omega), below2 _ (by omega), hm1 _ (by omega)]
  · intro i hi
    obtain ⟨hge, hle⟩ := hB.keyEnd_bounds hi
    have hsame : load16 m2 (K + 2 * (a + i + 1)) = load16 node (K + 2 * (a + 1 + i)) := by
      rw [load16_congr fun j _ => top2 _ (by omega), show a + i + 1 = a + 1 + i by omega]
    rw [ha, hs, Nat.zero_add, load16_congr fun j _ => out4 _ (by omega),
      beh3 _ (by omega) (by omega), hsame]
    omega
  · intro i hi
    rw [ha, Nat.zero_add, beh4 _ (by omega) (by omega),
      load64_congr fun j _ => out3 _ (by omega), load64_congr fun j _ => top2 _ (by omega),
      show a + i + 1 = a + 1 + i by omega]
  · intro j hj
    rw [hs, Nat.zero_add, low4 _ (by omega), bytes2 j (by omega)]
    exact congrArg _ (by omega)

end RemoveKey

end BFS
