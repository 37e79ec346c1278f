import OpenBeOS.BFS.NodeEdit
import OpenBeOS.BFS.SplitRest

/-! # A split conserves the entries

The two halves of `SplitNode()` put together: what `other` and the node decode to, with the key for
the parent between them in an index node, are the old entries with the new one among them. That
holds where the moves inside the node do not overwrite what is still to be moved (`MoveSafe`), and
where the new node does not come out too big: the loop that looks for the split point counts the
key before the new one too late.
-/

namespace BFS

open Bytes List

/-! ## The split point of a full node -/

/-- The node has no room for a key of this length: the test in `Insert()`. -/
def NoRoom (node : Buffer) (keyLength : Nat) : Prop :=
  BPLUSTREE_NODE_SIZE ≤ round_up (sizeofNode + all_key_length node + keyLength) +
    (all_key_count node + 1) * (2 + 8)

/-- The number of entries that go to the new node, as the loop counts them in these entries. -/
def splitAt (es : List Entry) (ki L : Nat) : Nat :=
  splitPoint (fun i => keysLength (es.take i)) es.length ki L

section SplitPoint

variable {es : List Entry} {ki L : Nat}

theorem full_of_noRoom {node : Buffer} (h : Packed node es) (hki : ki ≤ es.length)
    (hroom : NoRoom node L) :
    512 ≤ halfSize (fun i => keysLength (es.take i)) ki L (es.length + 1) := by
  unfold NoRoom at hroom
  rw [h.length, h.count] at hroom
  simp only [BPLUSTREE_NODE_SIZE, sizeofNode] at hroom
  unfold halfSize
  simp only
  rw [if_neg (by omega), Nat.add_sub_cancel, keysLength_take_all es (Nat.le_refl _),
    ← Nat.add_assoc]
  omega

theorem splitAt_bounds (hL : L ≤ BPLUSTREE_MAX_KEY_LENGTH)
    (hfull : 512 ≤ halfSize (fun i => keysLength (es.take i)) ki L (es.length + 1)) :
    2 ≤ splitAt es ki L ∧ splitAt es ki L ≤ es.length + 1 := by
  have hbounds := splitFrom_bounds (fun i => keysLength (es.take i)) ki L es.length 1
  have hsize := splitFrom_size (fun i => keysLength (es.take i)) ki L es.length 1
    (by rwa [Nat.add_comm 1])
  refine ⟨?_, by unfold splitAt splitPoint; omega⟩
  by_contra hone
  have hsplit : splitFrom (fun i => keysLength (es.take i)) ki L es.length 1 = 1 := by
    unfold splitAt splitPoint at hone
    omega
  -- one key alone is not half a node
  have hru := round_up_lt (28 + L)
  have hru0 : round_up (28 + 0) = 32 := rfl
  rw [hsplit, halfSize] at hsize
  simp only [Nat.sub_self, take_zero, keysLength_nil, Nat.zero_add,
    BPLUSTREE_MAX_KEY_LENGTH] at hsize hL
  split at hsize <;> omega

end SplitPoint

/-! ## The two halves -/

/-- What a split leaves: `before` and the overflow link `link` in the new node, `rest` in the old
one, and `parent` for the parent. -/
structure SplitParts (node : Buffer) (nodeOffset otherOffset : Int) (r : SplitResult)
    (before rest : List Entry) (parent : Key) (link : Int) : Prop where
  status : r.status = .B_OK
  other : Packed r.other before
  old : Packed r.node rest
  key : takeKey r.key r.keyLength = parent
  value : r.value = otherOffset
  other_left : left_link r.other = left_link node
  other_right : right_link r.other = nodeOffset
  other_overflow : overflow_link r.other = link
  links : RestLinks node r.node otherOffset

section Halves

variable {node other key : Buffer} {nodeOffset otherOffset v : Int} {ki L : Nat} {s : Half}

section

variable (hki : ki ≤ all_key_count node) (hs : firstHalf node ki L = s) (hbytes : ¬(s.bytesBefore < 0 ∨ s.bytesAfter < 0))
include hki hs hbytes

theorem splitNode_leaf (hleaf : isLeaf node = true) :
    SplitNode node nodeOffset other otherOffset ki key L v =
      splitRest node (fillOther node nodeOffset other s ki key v) otherOffset s.inn
        (s.bytesBefore + s.bytesAfter).toNat (if s.inn ≠ s.out then (ki : Int) - 1 else ki) key L v
        none := by
  have hlink : ¬overflow_link node ≠ BPLUSTREE_NULL := by simpa [isLeaf] using hleaf
  unfold SplitNode
  rw [if_neg (by omega), hs]
  simp only [if_neg hbytes, if_neg hlink]

theorem splitNode_index_new (hindex : isLeaf node = false)
    (hinn : (s.inn : Int) = if s.inn ≠ s.out then (ki : Int) - 1 else ki) :
    SplitNode node nodeOffset other otherOffset ki key L v =
      splitRest node (setOverflowLink (fillOther node nodeOffset other s ki key v) v) otherOffset
        s.inn (s.bytesBefore + s.bytesAfter).toNat ((s.inn : Int) - 1) key L v
        (some (key, L)) := by
  have hlink : overflow_link node ≠ BPLUSTREE_NULL := by simpa [isLeaf] using hindex
  unfold SplitNode
  rw [if_neg (by omega), hs]
  simp only [if_neg hbytes, if_pos hlink, ← hinn, if_true]

theorem splitNode_index_dropped (hindex : isLeaf node = false)
    (hinn : (s.inn : Int) ≠ if s.inn ≠ s.out then (ki : Int) - 1 else ki) {start length : Nat}
    (hdropped : keyAt node s.inn = (start, length))
    (hvalid : ¬(start + length + 8 + 2 > BPLUSTREE_NODE_SIZE ∨ length > BPLUSTREE_MAX_KEY_LENGTH)) :
    SplitNode node nodeOffset other otherOffset ki key L v =
      splitRest node
        (setOverflowLink (fillOther node nodeOffset other s ki key v) (valueAt node s.inn))
        otherOffset (s.inn + 1) (load16 node (keyLengths node + 2 * s.inn))
        (if s.inn ≠ s.out then (ki : Int) - 1 else ki) key L v
        (some (fun i => node (start + i), length)) := by
  have hlink : overflow_link node ≠ BPLUSTREE_NULL := by simpa [isLeaf] using hindex
  unfold SplitNode
  rw [if_neg (by omega), hs]
  simp only [if_neg hbytes, if_pos hlink, if_neg hinn, hdropped, if_neg hvalid]
  rfl

theorem splitNode_index_invalid (hindex : isLeaf node = false)
    (hinn : (s.inn : Int) ≠ if s.inn ≠ s.out then (ki : Int) - 1 else ki) {start length : Nat}
    (hdropped : keyAt node s.inn = (start, length))
    (hinvalid : start + length + 8 + 2 > BPLUSTREE_NODE_SIZE ∨ length > BPLUSTREE_MAX_KEY_LENGTH) :
    (SplitNode node nodeOffset other otherOffset ki key L v).status = .B_BAD_DATA := by
  have hlink : overflow_link node ≠ BPLUSTREE_NULL := by simpa [isLeaf] using hindex
  unfold SplitNode
  rw [if_neg (by omega), hs]
  simp only [if_neg hbytes, if_pos hlink, if_neg hinn, hdropped, if_pos hinvalid]

end

theorem parentKey_none {es : List Entry} (h : Packed other es) (hf : Fits es) (hne : es ≠ []) :
    takeKey (parentKey other none).1 (parentKey other none).2 = (es.getLast hne).1 := by
  have hes := dropLast_append_getLast hne
  have hlast : all_key_count other - 1 = es.dropLast.length := by
    rw [h.count, length_dropLast]
  have hkey := (hes.symm ▸ h : Packed other (es.dropLast ++ [es.getLast hne])).keyBytesAt_eq
    (hes.symm ▸ hf)
  simp only [parentKey, Option.getD_none, hlast]
  exact hkey

theorem packed_setOverflowLink {es : List Entry} (h : Packed other es) (link : Int) :
    Packed (setOverflowLink other link) es :=
  h.congr fun _ hi => store64_outside (by omega)

theorem siblings_setOverflowLink (link : Int) :
    left_link (setOverflowLink other link) = left_link other ∧
      right_link (setOverflowLink other link) = right_link other :=
  ⟨load64_store64_disjoint (by omega), load64_store64_disjoint (by omega)⟩

end Halves

theorem Fits.left {A B : List Entry} (h : Fits (A ++ B)) : Fits A := by
  have hmem : ∀ x ∈ A, x ∈ A ++ B := fun x hx => mem_append_left B hx
  refine ⟨fun x hx => h.key_pos x (hmem x hx), fun x hx => h.key_le x (hmem x hx),
    fun x hx => h.value x (hmem x hx), ?_⟩
  have hroom := h.room
  have hmono : round_up (sizeofNode + keysLength A) ≤
      round_up (sizeofNode + (keysLength A + keysLength B)) := round_up_mono (by omega)
  simp only [usedBy, keysLength_append, length_append] at hroom ⊢
  omega

/-! ## The five cases -/

section Cases

variable {node other key : Buffer} {nodeOffset otherOffset v : Int} {L : Nat}

theorem splitParts_of_rest {s₀ : Buffer} {r : SplitResult} {before rest : List Entry} {parent : Key}
    {link : Int} (hother : Packed s₀ before) (hleft : left_link s₀ = left_link node)
    (hright : right_link s₀ = nodeOffset) (hoverflow : overflow_link s₀ = link)
    (h : Packed r.node rest ∧ RestLinks node r.node otherOffset ∧
      SplitDone r s₀ otherOffset parent) :
    SplitParts node nodeOffset otherOffset r before rest parent link := by
  obtain ⟨hrest, hlinks, hdone⟩ := h
  refine ⟨hdone.status, ?_, hrest, hdone.key, hdone.value, ?_, ?_, ?_, hlinks⟩
  · rw [hdone.other]
    exact hother
  · rw [hdone.other]
    exact hleft
  · rw [hdone.other]
    exact hright
  · rw [hdone.other]
    exact hoverflow

/-- A leaf whose new key stays in the old node. -/
theorem split_leaf_right {S A B : List Entry} (h : Packed node (S ++ (A ++ B)))
    (hf : Fits (S ++ (A ++ B))) (hS : S ≠ []) (hL : 0 < L) (hL' : L ≤ BPLUSTREE_MAX_KEY_LENGTH)
    (hv : IsInt64 v) (hn : IsInt64 nodeOffset) (ho : IsInt64 otherOffset)
    (hleaf : isLeaf node = true)
    (hfirst : firstHalf node (S.length + A.length) L =
      ⟨S.length, S.length, 0, (keysLength S : Nat), 0⟩)
    (hsafe : RestSafe node S.length A.length B.length (keysLength A) L (keysLength B)) :
    SplitParts node nodeOffset otherOffset
      (SplitNode node nodeOffset other otherOffset (S.length + A.length) key L v)
      S (A ++ (takeKey key L, v) :: B) (S.getLast hS).1 (overflow_link other) := by
  have hki : S.length + A.length ≤ all_key_count node := by
    rw [h.count, length_append, length_append]
    omega
  rw [splitNode_leaf hki hfirst (by simp only; omega) hleaf]
  obtain ⟨hpacked, hlinks⟩ := @fillOther_before node other key nodeOffset v (S.length + A.length)
    S (A ++ B) h hf hS (Nat.le_add_right _ _) hn _ rfl
  refine splitParts_of_rest hpacked hlinks.left hlinks.right hlinks.overflow ?_
  have hrest := @splitRest_right node (fillOther node nodeOffset other
    ⟨S.length, S.length, 0, (keysLength S : Nat), 0⟩ (S.length + A.length) key v) key S A B
    otherOffset v L none _ h hf hS hL hL' hv ho rfl hsafe _ rfl
  rw [parentKey_none hpacked hf.left hS] at hrest
  simpa using hrest

/-- A leaf whose new key goes to the new node. -/
theorem split_leaf_left {A B R : List Entry} (h : Packed node (A ++ (B ++ R)))
    (hf : Fits (A ++ (B ++ R))) (hAB : A ++ B ≠ []) (hL : 0 < L)
    (hL' : L ≤ BPLUSTREE_MAX_KEY_LENGTH) (hv : IsInt64 v) (hn : IsInt64 nodeOffset)
    (ho : IsInt64 otherOffset) (hleaf : isLeaf node = true)
    (hfirst : firstHalf node A.length L =
      ⟨A.length + B.length, A.length + B.length + 1, L, (keysLength A : Nat),
        (keysLength B : Nat)⟩) :
    ∃ parent, SplitParts node nodeOffset otherOffset
        (SplitNode node nodeOffset other otherOffset A.length key L v)
        (A ++ (takeKey key L, v) :: B) R parent (overflow_link other) ∧
      (usedBy (A ++ (takeKey key L, v) :: B) ≤ BPLUSTREE_NODE_SIZE →
        parent = ((A ++ (takeKey key L, v) :: B).getLast (by simp)).1) := by
  have hki : A.length ≤ all_key_count node := by
    rw [h.count, length_append]
    omega
  have h' : Packed node ((A ++ B) ++ R) := by rwa [append_assoc]
  have hf' : Fits ((A ++ B) ++ R) := by rwa [append_assoc]
  rw [splitNode_leaf hki hfirst (by simp only; omega) hleaf]
  obtain ⟨hpacked, hlinks⟩ := @fillOther_after node other key nodeOffset v L A B R h hf hL hL' hv
    hn _ rfl
  have hrest := @splitRest_left node (fillOther node nodeOffset other
    ⟨A.length + B.length, A.length + B.length + 1, L, (keysLength A : Nat),
      (keysLength B : Nat)⟩ A.length key v) key (A ++ B) R otherOffset v L none
    (keysLength A + keysLength B) h' hf' hAB ho (keysLength_append A B).symm
    ((A.length : Int) - 1) (by rw [length_append]; omega)
  rw [length_append] at hrest
  simp only
  rw [if_pos (by omega), ← Int.natCast_add, Int.toNat_natCast]
  refine ⟨_, splitParts_of_rest hpacked hlinks.left hlinks.right hlinks.overflow hrest, ?_⟩
  intro hroom
  have hnew : Fits (A ++ (takeKey key L, v) :: B) :=
    hf'.left.insert (by rw [takeKey_length]; exact hL) (by rw [takeKey_length]; exact hL') hv hroom
  exact parentKey_none hpacked hnew (by simp)

/-- An index node whose new key goes to the parent. -/
theorem split_index_new {S R : List Entry} (h : Packed node (S ++ R)) (hf : Fits (S ++ R))
    (hS : S ≠ []) (hv : IsInt64 v) (hn : IsInt64 nodeOffset) (ho : IsInt64 otherOffset)
    (hindex : isLeaf node = false)
    (hfirst : firstHalf node S.length L = ⟨S.length, S.length, 0, (keysLength S : Nat), 0⟩) :
    SplitParts node nodeOffset otherOffset
      (SplitNode node nodeOffset other otherOffset S.length key L v)
      S R (takeKey key L) v := by
  have hki : S.length ≤ all_key_count node := by
    rw [h.count, length_append]
    omega
  rw [splitNode_index_new hki hfirst (by simp only; omega) hindex (by simp)]
  obtain ⟨hpacked, hlinks⟩ := @fillOther_before node other key nodeOffset v S.length S R h hf hS
    (Nat.le_refl _) hn _ rfl
  have hsiblings := @siblings_setOverflowLink (fillOther node nodeOffset other
    ⟨S.length, S.length, 0, (keysLength S : Nat), 0⟩ S.length key v) v
  refine splitParts_of_rest (packed_setOverflowLink hpacked v)
    (hsiblings.1.trans hlinks.left) (hsiblings.2.trans hlinks.right)
    (load64_store64_same _ hv) ?_
  have hrest := @splitRest_left node (setOverflowLink (fillOther node nodeOffset other
    ⟨S.length, S.length, 0, (keysLength S : Nat), 0⟩ S.length key v) v) key S R otherOffset v L
    (some (key, L)) (keysLength S) h hf hS ho rfl ((S.length : Int) - 1) (by omega)
  simpa [parentKey] using hrest

theorem dropped_key {S T : List Entry} {d : Entry} (h : Packed node (S ++ d :: T))
    (hf : Fits (S ++ d :: T)) :
    keyAt node S.length = (28 + keysLength S, d.1.length) ∧
      ¬(28 + keysLength S + d.1.length + 8 + 2 > BPLUSTREE_NODE_SIZE ∨
        d.1.length > BPLUSTREE_MAX_KEY_LENGTH) ∧
      load16 node (keyLengths node + 2 * S.length) = keysLength (S ++ [d]) ∧
      takeKey (fun i => node (28 + keysLength S + i)) d.1.length = d.1 := by
  have hlen := hf.keysLength_le
  have hkey := hf.key_le d (by simp)
  have hkeyAt := h.keyAt_eq hf
  have hbytes := h.keyBytesAt_eq hf
  rw [keyBytesAt, hkeyAt] at hbytes
  refine ⟨hkeyAt, ?_, ?_, hbytes⟩
  · simp only [keysLength_append, keysLength_cons, length_append, length_cons,
      BPLUSTREE_MAX_KEY_LENGTH, BPLUSTREE_NODE_SIZE] at hlen hkey ⊢
    omega
  · rw [h.slotAt.keyEnd]
    simp

/-- An index node whose new key stays in the old node: the next key goes to the parent. -/
theorem split_index_right {S A B : List Entry} {d : Entry} (h : Packed node (S ++ d :: (A ++ B)))
    (hf : Fits (S ++ d :: (A ++ B))) (hS : S ≠ []) (hL : 0 < L)
    (hL' : L ≤ BPLUSTREE_MAX_KEY_LENGTH) (hv : IsInt64 v) (hn : IsInt64 nodeOffset)
    (ho : IsInt64 otherOffset) (hindex : isLeaf node = false)
    (hfirst : firstHalf node (S.length + 1 + A.length) L =
      ⟨S.length, S.length, 0, (keysLength S : Nat), 0⟩)
    (hsafe : RestSafe node (S.length + 1) A.length B.length (keysLength A) L (keysLength B)) :
    SplitParts node nodeOffset otherOffset
      (SplitNode node nodeOffset other otherOffset (S.length + 1 + A.length) key L v)
      S (A ++ (takeKey key L, v) :: B) d.1 d.2 := by
  have hki : S.length + 1 + A.length ≤ all_key_count node := by
    rw [h.count, length_append, length_cons, length_append]
    omega
  obtain ⟨hkeyAt, hvalid, htotal, hkey⟩ := dropped_key h hf
  rw [splitNode_index_dropped hki hfirst (by simp only; omega) hindex (by simp; omega) hkeyAt
    hvalid]
  obtain ⟨hpacked, hlinks⟩ := @fillOther_before node other key nodeOffset v
    (S.length + 1 + A.length) S (d :: (A ++ B)) h hf hS (by omega) hn _ rfl
  generalize hfill : fillOther node nodeOffset other
    ⟨S.length, S.length, 0, (keysLength S : Nat), 0⟩ (S.length + 1 + A.length) key v = s₀ at *
  have hvalue : valueAt node S.length = d.2 := h.valueAt_eq
  have hd : IsInt64 d.2 := hf.value d (by simp)
  simp only [hvalue, htotal]
  have hsiblings := @siblings_setOverflowLink s₀ d.2
  refine splitParts_of_rest (packed_setOverflowLink hpacked d.2)
    (hsiblings.1.trans hlinks.left) (hsiblings.2.trans hlinks.right)
    (load64_store64_same _ hd) ?_
  have happend : S ++ d :: (A ++ B) = (S ++ [d]) ++ (A ++ B) := by simp
  have hlength : (S ++ [d]).length = S.length + 1 := by simp
  rw [happend] at h hf
  have hrest := @splitRest_right node (setOverflowLink s₀ d.2) key (S ++ [d]) A B otherOffset v L
    (some (fun i => node (28 + keysLength S + i), d.1.length)) _ h hf (by simp) hL hL' hv ho rfl
    (by rw [hlength]; exact hsafe) _ rfl
  rw [hlength] at hrest
  simpa [parentKey, hkey] using hrest

/-- An index node whose new key goes to the new node: the next key goes to the parent. -/
theorem split_index_left {A B R : List Entry} {d : Entry} (h : Packed node (A ++ (B ++ d :: R)))
    (hf : Fits (A ++ (B ++ d :: R))) (hL : 0 < L)
    (hL' : L ≤ BPLUSTREE_MAX_KEY_LENGTH) (hv : IsInt64 v) (hn : IsInt64 nodeOffset)
    (ho : IsInt64 otherOffset) (hindex : isLeaf node = false)
    (hfirst : firstHalf node A.length L =
      ⟨A.length + B.length, A.length + B.length + 1, L, (keysLength A : Nat),
        (keysLength B : Nat)⟩) :
    SplitParts node nodeOffset otherOffset
      (SplitNode node nodeOffset other otherOffset A.length key L v)
      (A ++ (takeKey key L, v) :: B) R d.1 d.2 := by
  have hki : A.length ≤ all_key_count node := by
    rw [h.count, length_append]
    omega
  have hassoc : A ++ (B ++ d :: R) = (A ++ B) ++ d :: R := by simp
  have hAB : (A ++ B).length = A.length + B.length := length_append
  obtain ⟨hpacked, hlinks⟩ := @fillOther_after node other key nodeOffset v L A B (d :: R) h hf hL
    hL' hv hn _ rfl
  rw [hassoc] at h hf
  obtain ⟨hkeyAt, hvalid, htotal, hkey⟩ := dropped_key h hf
  have hvalue : valueAt node (A ++ B).length = d.2 := h.valueAt_eq
  have hd : IsInt64 d.2 := hf.value d (by simp)
  rw [hAB] at hkeyAt htotal hvalue
  have hinn : ((A.length + B.length : Nat) : Int) ≠
      if A.length + B.length ≠ A.length + B.length + 1 then (A.length : Int) - 1 else A.length := by
    rw [if_pos (by omega)]
    omega
  rw [splitNode_index_dropped hki hfirst (by simp only; omega) hindex hinn hkeyAt hvalid]
  generalize hfill : fillOther node nodeOffset other
    ⟨A.length + B.length, A.length + B.length + 1, L, (keysLength A : Nat),
      (keysLength B : Nat)⟩ A.length key v = s₀ at *
  simp only [hvalue, htotal]
  rw [if_pos (by omega)]
  have hsiblings := @siblings_setOverflowLink s₀ d.2
  refine splitParts_of_rest (packed_setOverflowLink hpacked d.2)
    (hsiblings.1.trans hlinks.left) (hsiblings.2.trans hlinks.right)
    (load64_store64_same _ hd) ?_
  have happend : (A ++ B) ++ d :: R = ((A ++ B) ++ [d]) ++ R := by simp
  have hlength : ((A ++ B) ++ [d]).length = A.length + B.length + 1 := by
    rw [length_append, hAB, length_singleton]
  rw [happend] at h hf
  have hrest := @splitRest_left node (setOverflowLink s₀ d.2) key ((A ++ B) ++ [d]) R otherOffset
    v L (some (fun i => node (28 + keysLength (A ++ B) + i), d.1.length)) _ h hf (by simp) ho rfl
    ((A.length : Int) - 1) (by rw [hlength]; omega)
  rw [hlength] at hrest
  simpa only [parentKey, Option.getD_some, hkey] using hrest

/-- All keys of an index node and the new one in the new node: there is no next key, and what the
code takes for it is the beginning of the values. -/
theorem split_index_all {A B : List Entry} (h : Packed node (A ++ B)) (hf : Fits (A ++ B))
    (hAB : A ++ B ≠ []) (hL : 0 < L) (hL' : L ≤ BPLUSTREE_MAX_KEY_LENGTH) (hv : IsInt64 v)
    (hn : IsInt64 nodeOffset) (hindex : isLeaf node = false)
    (hfirst : firstHalf node A.length L =
      ⟨A.length + B.length, A.length + B.length + 1, L, (keysLength A : Nat),
        (keysLength B : Nat)⟩) :
    ((SplitNode node nodeOffset other otherOffset A.length key L v).status = .B_OK ↔
        load16 node (values node) = all_key_length node) ∧
      ((SplitNode node nodeOffset other otherOffset A.length key L v).status = .B_OK →
        all_key_count (SplitNode node nodeOffset other otherOffset A.length key L v).other =
          A.length + B.length + 1) := by
  have hcount := h.count
  have hlength := h.length
  have hlen := hf.keysLength_le
  have hpos : A.length + B.length ≠ 0 := by
    rw [← length_append]
    simpa using hAB
  have hlast := h.slots.keyEnd_last hAB
  obtain ⟨hpacked, -⟩ := @fillOther_after node other key nodeOffset v L A B []
    (by rwa [append_nil]) (by rwa [append_nil]) hL hL' hv hn _ rfl
  rw [keysLength_append] at hlength
  rw [length_append] at hcount
  rw [keysLength_append, length_append] at hlen
  rw [keysLength_append, length_append] at hlast
  simp only [Nat.zero_add] at hlast
  have hvalues : values node = keyLengths node + 2 * (A.length + B.length) := by
    rw [values, hcount]
    omega
  have hkeyAt : keyAt node (A.length + B.length) = (28 + (keysLength A + keysLength B),
      (load16 node (values node) + 2 ^ 16 - (keysLength A + keysLength B)) % 2 ^ 16) := by
    rw [keyAt, if_pos hpos, hlast, hvalues]
    rfl
  have hinn : ((A.length + B.length : Nat) : Int) ≠
      if A.length + B.length ≠ A.length + B.length + 1 then (A.length : Int) - 1 else A.length := by
    rw [if_pos (by omega)]
    omega
  by_cases hinvalid : 28 + (keysLength A + keysLength B) +
      (load16 node (values node) + 2 ^ 16 - (keysLength A + keysLength B)) % 2 ^ 16 + 8 + 2 >
        BPLUSTREE_NODE_SIZE ∨
      (load16 node (values node) + 2 ^ 16 - (keysLength A + keysLength B)) % 2 ^ 16 >
        BPLUSTREE_MAX_KEY_LENGTH
  · have hstatus := @splitNode_index_invalid node other key nodeOffset otherOffset v A.length L _
      (by omega) hfirst (by simp only; omega) hindex hinn _ _ hkeyAt hinvalid
    rw [hstatus, hlength]
    simp only [BPLUSTREE_NODE_SIZE, BPLUSTREE_MAX_KEY_LENGTH] at hinvalid
    refine ⟨⟨by simp, fun hsame => ?_⟩, by simp⟩
    omega
  · rw [splitNode_index_dropped (by omega) hfirst (by simp only; omega) hindex hinn hkeyAt hinvalid]
    simp only [BPLUSTREE_NODE_SIZE, BPLUSTREE_MAX_KEY_LENGTH] at hinvalid
    -- nothing is left for the second loop
    have hloop : restLoop (keyLengths node) (all_key_count node) L (load16 node (values node))
        (A.length + B.length + 1) ((A.length : Int) - 1) (all_key_count node + 2)
        ⟨A.length + B.length + 1, 0, 0, 0, 0, node⟩ =
        ⟨A.length + B.length + 1, 0, 0, 0, 0, node⟩ := by
      rw [restLoop, if_neg (by simp only; omega)]
    have hadjust : adjustCounts ⟨A.length + B.length + 1, 0, 0, 0, 0, node⟩ (keyLengths node)
        (load16 node (values node)) (A.length + B.length + 1) ((A.length : Int) - 1) =
        ⟨A.length + B.length + 1, 0, 0,
          (all_key_length node : Int) - load16 node (values node), 0, node⟩ := by
      unfold adjustCounts
      rw [if_neg (by simp only; omega), if_pos (by omega)]
    simp only [← hvalues]
    rw [if_pos (by omega)]
    unfold splitRest
    simp only [hloop, hadjust, hlength]
    by_cases hsame : load16 node (values node) = keysLength A + keysLength B
    · rw [if_neg (by omega)]
      refine ⟨⟨fun _ => hsame, fun _ => rfl⟩, fun _ => ?_⟩
      have hcount' := (packed_setOverflowLink hpacked
        (valueAt node (A.length + B.length))).count
      rw [length_append, length_cons] at hcount'
      exact hcount'
    · rw [if_pos (by omega)]
      exact ⟨⟨by simp, fun h => absurd h hsame⟩, by simp⟩

end Cases

/-! ## When a split conserves the entries -/

theorem Packed.used_eq {node : Buffer} {es : List Entry} (h : Packed node es) :
    used node = usedBy es := by
  rw [used, h.length, h.count]
  rfl

/-- The entries of both nodes, with what goes to the parent between them in an index node, are the
old ones and the new one; the key for the parent of a leaf is the last one of the new node, and
both nodes end inside their block. -/
structure Conserved (node : Buffer) (ki : Nat) (new : Entry) (r : SplitResult) : Prop where
  entries : BFS.entries r.other ++
    (if isLeaf node then [] else [(takeKey r.key r.keyLength, overflow_link r.other)]) ++
    BFS.entries r.node = (BFS.entries node).insertIdx ki new
  parent : isLeaf node = true →
    (BFS.entries r.other).getLast?.map Prod.fst = some (takeKey r.key r.keyLength)
  other_room : used r.other ≤ BPLUSTREE_NODE_SIZE
  node_room : used r.node ≤ BPLUSTREE_NODE_SIZE

theorem Conserved.of_parts {node : Buffer} {ki : Nat} {new : Entry} {nodeOffset otherOffset : Int}
    {r : SplitResult} {before rest : List Entry} {parent : Key} {link : Int}
    (h : SplitParts node nodeOffset otherOffset r before rest parent link) (hbefore : Fits before)
    (hrest : Fits rest)
    (hlist : before ++ (if isLeaf node then [] else [(parent, link)]) ++ rest =
      (BFS.entries node).insertIdx ki new)
    (hparent : isLeaf node = true → before.getLast?.map Prod.fst = some parent) :
    Conserved node ki new r := by
  refine ⟨?_, fun hleaf => ?_, ?_, ?_⟩
  · rw [h.other.entries_eq hbefore, h.old.entries_eq hrest, h.key, h.other_overflow, hlist]
  · rw [h.other.entries_eq hbefore, h.key]
    exact hparent hleaf
  · rw [h.other.used_eq]
    exact hbefore.room
  · rw [h.old.used_eq]
    exact hrest.room

section Conditions

variable (node : Buffer) (ki L : Nat)

/-- Where the loop cuts this node. -/
def cutAt : Nat := splitAt (entries node) ki L

/-- The bytes of the first `i` keys. -/
def bytesUpTo (i : Nat) : Nat := keysLength ((entries node).take i)

/-- When the new key goes to the new node, that node is not too big. -/
def NewNodeFits : Prop :=
  ki < cutAt node ki L → round_up (sizeofNode + (bytesUpTo node (cutAt node ki L - 1) + L)) +
      cutAt node ki L * (2 + 8) ≤ BPLUSTREE_NODE_SIZE

/-- The number of entries that leave the old node: an index node also loses the next one. -/
def skipped : Nat := if isLeaf node then cutAt node ki L else cutAt node ki L + 1

/-- When the new key stays in the old node, nothing is overwritten there that is still to be
moved. -/
def MovesSafe : Prop :=
  skipped node ki L ≤ ki →
    RestSafe node (skipped node ki L) (ki - skipped node ki L) (all_key_count node - ki)
      (bytesUpTo node ki - bytesUpTo node (skipped node ki L)) L
      (all_key_length node - bytesUpTo node ki)

/-- An index node keeps a key for the parent, or the code notices that there is none: it takes the
beginning of the values for the length of the key. -/
def SplitsWell : Prop :=
  if isLeaf node = false ∧ all_key_count node < cutAt node ki L then
    load16 node (values node) ≠ all_key_length node
  else NewNodeFits node ki L

end Conditions

/-! ## The parts of the entry list -/

theorem exists_cut {α : Type} {es : List α} {i j : Nat} (hij : i ≤ j) (hj : j ≤ es.length) :
    ∃ S A B : List α, es = S ++ (A ++ B) ∧ S.length = i ∧ S.length + A.length = j := by
  refine ⟨es.take i, (es.drop i).take (j - i), (es.drop i).drop (j - i), ?_, ?_, ?_⟩
  · rw [take_append_drop, take_append_drop]
  · rw [length_take]
    omega
  · rw [length_take, length_take, length_drop]
    omega

theorem keysLength_take_middle (S A B : List Entry) :
    keysLength ((S ++ (A ++ B)).take (S.length + A.length)) = keysLength S + keysLength A := by
  rw [← append_assoc, ← length_append, keysLength_take_append, keysLength_append]

theorem insertIdx_middle {α : Type} (S A B : List α) (x : α) :
    (S ++ (A ++ B)).insertIdx (S.length + A.length) x = S ++ (A ++ x :: B) := by
  rw [← append_assoc, ← length_append, insertIdx_append_length, append_assoc]

theorem Fits.right {A B : List Entry} (h : Fits (A ++ B)) : Fits B := by
  have hmem : ∀ x ∈ B, x ∈ A ++ B := fun x hx => mem_append_right A hx
  refine ⟨fun x hx => h.key_pos x (hmem x hx), fun x hx => h.key_le x (hmem x hx),
    fun x hx => h.value x (hmem x hx), ?_⟩
  have hroom := h.room
  have hmono : round_up (sizeofNode + keysLength B) ≤
      round_up (sizeofNode + (keysLength A + keysLength B)) := round_up_mono (by omega)
  simp only [usedBy, keysLength_append, length_append] at hroom ⊢
  omega

theorem Fits.replace {S A B : List Entry} {e : Entry} (h : Fits (S ++ (A ++ B)))
    (hpos : BPLUSTREE_MIN_KEY_LENGTH ≤ e.1.length) (hle : e.1.length ≤ BPLUSTREE_MAX_KEY_LENGTH)
    (hvalue : IsInt64 e.2) (hlost : e.1.length + 18 ≤ keysLength S + S.length * 10) :
    Fits (A ++ e :: B) := by
  refine h.right.insert hpos hle hvalue ?_
  have hroom := h.room
  simp only [usedBy, keysLength_append, keysLength_cons, length_append, length_cons,
    round_up] at hroom ⊢
  omega

section Assembled

variable {node other key : Buffer} {nodeOffset otherOffset v : Int} {ki L : Nat}

theorem cutAt_spec (h : WellFormed node) (hki : ki ≤ all_key_count node) (hL : 0 < L)
    (hL' : L ≤ BPLUSTREE_MAX_KEY_LENGTH) (hroom : NoRoom node L) :
    2 ≤ cutAt node ki L ∧ cutAt node ki L ≤ all_key_count node + 1 ∧
      512 ≤ halfSize (bytesUpTo node) ki L (cutAt node ki L) ∧
      firstHalf node ki L =
        if cutAt node ki L ≤ ki then
          ⟨cutAt node ki L, cutAt node ki L, 0, (bytesUpTo node (cutAt node ki L) : Nat), 0⟩
        else ⟨cutAt node ki L - 1, cutAt node ki L, L, (bytesUpTo node ki : Nat),
          (bytesUpTo node (cutAt node ki L - 1) - bytesUpTo node ki : Nat)⟩ := by
  have hki' : ki ≤ (entries node).length := by rwa [entries_length]
  have hfull := full_of_noRoom h.packed hki' hroom
  have hbounds := splitAt_bounds hL' hfull
  have hsize := splitFrom_size (fun i => keysLength ((entries node).take i)) ki L
    (entries node).length 1 (by rwa [Nat.add_comm 1])
  rw [entries_length] at hbounds
  exact ⟨hbounds.1, hbounds.2, hsize, h.packed.firstHalf_eq (by omega) hki' rfl hfull⟩

theorem lost_of_cut (hT : cutAt node ki L ≤ ki) (hL : L ≤ BPLUSTREE_MAX_KEY_LENGTH)
    (hsize : 512 ≤ halfSize (bytesUpTo node) ki L (cutAt node ki L)) {S R : List Entry}
    (hes : entries node = S ++ R) (hS : cutAt node ki L ≤ S.length) :
    L + 18 ≤ keysLength S + S.length * 10 := by
  have hmono := keysLength_take_le (S ++ R) (Nat.le_trans (Nat.sub_le _ 1) hS)
  rw [keysLength_take_append] at hmono
  have hru := round_up_lt (28 + keysLength ((S ++ R).take (cutAt node ki L - 1)))
  simp only [halfSize, if_pos hT, bytesUpTo, hes, BPLUSTREE_MAX_KEY_LENGTH] at hsize hL
  omega

theorem bytesUpTo_middle {S A B : List Entry} (hes : entries node = S ++ (A ++ B)) :
    bytesUpTo node S.length = keysLength S ∧
      bytesUpTo node (S.length + A.length) = keysLength S + keysLength A := by
  rw [bytesUpTo, bytesUpTo, hes]
  exact ⟨keysLength_take_append S _, keysLength_take_middle S A B⟩

theorem MovesSafe.parts (h : WellFormed node) (hsafe : MovesSafe node ki L) {S A B : List Entry}
    (hes : entries node = S ++ (A ++ B)) (hS : skipped node ki L = S.length)
    (hki : ki = S.length + A.length) :
    RestSafe node S.length A.length B.length (keysLength A) L (keysLength B) := by
  obtain ⟨hfront, hmiddle⟩ := bytesUpTo_middle hes
  have hmoves := hsafe (by omega)
  rw [hS, hki, hfront, hmiddle, h.packed.length, h.packed.count, hes, Nat.add_sub_cancel_left,
    Nat.add_sub_cancel_left] at hmoves
  simp only [keysLength_append, length_append] at hmoves
  rw [show keysLength S + (keysLength A + keysLength B) - (keysLength S + keysLength A) =
      keysLength B by omega,
    show S.length + (A.length + B.length) - (S.length + A.length) = B.length by omega] at hmoves
  exact hmoves

/-- The new key stays in the old node, or goes to the parent. -/
theorem conserved_right (h : WellFormed node) (hki : ki ≤ all_key_count node) (hL : 0 < L)
    (hL' : L ≤ BPLUSTREE_MAX_KEY_LENGTH) (hv : IsInt64 v) (hn : IsInt64 nodeOffset)
    (ho : IsInt64 otherOffset) (hroom : NoRoom node L) (hT : cutAt node ki L ≤ ki)
    (hsafe : MovesSafe node ki L) :
    (SplitNode node nodeOffset other otherOffset ki key L v).status = .B_OK ∧
      Conserved node ki (takeKey key L, v)
        (SplitNode node nodeOffset other otherOffset ki key L v) := by
  have hpacked := h.packed
  have hfits := h.fits
  obtain ⟨htwo, -, hsize, hfirst⟩ := cutAt_spec h hki hL hL' hroom
  rw [if_pos hT] at hfirst
  rw [← entries_length] at hki
  -- what stays has room for the new key
  have hnew : ∀ {S A B : List Entry}, entries node = S ++ (A ++ B) → cutAt node ki L ≤ S.length →
      Fits (A ++ (takeKey key L, v) :: B) := by
    intro S A B hes hS
    refine (hes ▸ hfits).replace (by rw [takeKey_length]; exact hL)
      (by rw [takeKey_length]; exact hL') hv ?_
    rw [takeKey_length]
    exact lost_of_cut hT hL' hsize hes hS
  cases hleaf : isLeaf node with
  | true =>
    obtain ⟨S, A, B, hes, hS, hSA⟩ := exists_cut hT hki
    have hne : S ≠ [] := ne_nil_of_length_pos (by omega)
    have hmoves := hsafe.parts h hes (by rw [skipped, if_pos hleaf, hS]) hSA.symm
    rw [← hS, (bytesUpTo_middle hes).1] at hfirst
    rw [hes] at hpacked hfits
    rw [← hSA] at hfirst ⊢
    have hparts := @split_leaf_right node other key nodeOffset otherOffset v L S A B hpacked hfits
      hne hL hL' hv hn ho hleaf hfirst hmoves
    refine ⟨hparts.status, .of_parts hparts hfits.left (hnew hes (Nat.le_of_eq hS.symm)) ?_
      fun _ => ?_⟩
    · rw [if_pos hleaf, append_nil, hes, insertIdx_middle]
    · rw [List.getLast?_eq_getLast_of_ne_nil hne]
      rfl
  | false =>
    rcases Nat.eq_or_lt_of_le hT with heq | hlt
    · -- the new key is the next one
      obtain ⟨S, A, R, hes, hS, hSA⟩ := exists_cut (Nat.le_refl ki) hki
      obtain rfl : A = [] := eq_nil_of_length_eq_zero (by omega)
      rw [nil_append] at hes
      have hne : S ≠ [] := ne_nil_of_length_pos (by omega)
      rw [heq, ← hS, (bytesUpTo_middle (A := []) hes).1] at hfirst
      rw [hes] at hpacked hfits
      rw [← hS]
      have hparts := @split_index_new node other key nodeOffset otherOffset v L S R hpacked hfits
        hne hv hn ho hleaf hfirst
      refine ⟨hparts.status, .of_parts hparts hfits.left hfits.right ?_ fun h => ?_⟩
      · rw [hleaf, if_neg nofun, hes, insertIdx_append_length, append_assoc]
        rfl
      · rw [hleaf] at h
        cases h
    · -- the next key of the node is dropped
      obtain ⟨S', A, B, hes, hS', hSA⟩ := exists_cut (Nat.succ_le_of_lt hlt) hki
      have hne' : S' ≠ [] := ne_nil_of_length_pos (by omega)
      obtain ⟨S, d, rfl⟩ : ∃ S d, S' = S ++ [d] :=
        ⟨S'.dropLast, S'.getLast hne', (dropLast_append_getLast hne').symm⟩
      have hmoves := hsafe.parts h hes (by rw [skipped, if_neg (by simp [hleaf]), hS']) hSA.symm
      have hfit := hnew hes (by omega)
      rw [length_append, length_singleton] at hS' hSA hmoves
      have hne : S ≠ [] := ne_nil_of_length_pos (by omega)
      have hdrop : entries node = S ++ d :: (A ++ B) := by rw [hes]; simp
      rw [show cutAt node ki L = S.length by omega,
        (bytesUpTo_middle (A := []) (B := d :: (A ++ B)) hdrop).1] at hfirst
      rw [hdrop] at hpacked hfits
      rw [← hSA] at hfirst ⊢
      have hparts := @split_index_right node other key nodeOffset otherOffset v L S A B d hpacked
        hfits hne hL hL' hv hn ho hleaf hfirst hmoves
      refine ⟨hparts.status, .of_parts hparts hfits.left hfit ?_ fun h => ?_⟩
      · rw [hleaf, if_neg nofun, hes, ← length_singleton, ← length_append, insertIdx_middle]
      · rw [hleaf] at h
        cases h

/-- The new key goes to the new node. -/
theorem conserved_left (h : WellFormed node) (hki : ki ≤ all_key_count node) (hL : 0 < L)
    (hL' : L ≤ BPLUSTREE_MAX_KEY_LENGTH) (hv : IsInt64 v) (hn : IsInt64 nodeOffset)
    (ho : IsInt64 otherOffset) (hroom : NoRoom node L) (hT : ki < cutAt node ki L)
    (hnext : isLeaf node = false → cutAt node ki L ≤ all_key_count node) :
    (SplitNode node nodeOffset other otherOffset ki key L v).status = .B_OK ∧
      (Conserved node ki (takeKey key L, v)
          (SplitNode node nodeOffset other otherOffset ki key L v) ↔ NewNodeFits node ki L) := by
  have hpacked := h.packed
  have hfits := h.fits
  obtain ⟨htwo, hle, -, hfirst⟩ := cutAt_spec h hki hL hL' hroom
  rw [if_neg (Nat.not_le.2 hT)] at hfirst
  obtain ⟨A, B, R, hes, hA, hAB⟩ := exists_cut (Nat.le_sub_one_of_lt hT)
    (by rw [entries_length]; omega : cutAt node ki L - 1 ≤ (entries node).length)
  have hne : A ++ B ≠ [] := ne_nil_of_length_pos (by rw [length_append]; omega)
  obtain ⟨hfront, hmiddle⟩ := bytesUpTo_middle hes
  have hfits' : Fits ((A ++ B) ++ R) := by rwa [append_assoc, ← hes]
  have hroom' : NewNodeFits node ki L ↔
      usedBy (A ++ (takeKey key L, v) :: B) ≤ BPLUSTREE_NODE_SIZE := by
    rw [NewNodeFits, ← hAB, hmiddle, usedBy]
    simp only [keysLength_append, keysLength_cons, takeKey_length, length_append, length_cons]
    rw [show keysLength A + keysLength B + L = keysLength A + (L + keysLength B) by omega,
      show cutAt node ki L = A.length + (B.length + 1) by omega]
    exact ⟨fun h => h (by omega), fun h _ => h⟩
  have hnew : usedBy (A ++ (takeKey key L, v) :: B) ≤ BPLUSTREE_NODE_SIZE →
      Fits (A ++ (takeKey key L, v) :: B) :=
    hfits'.left.insert (by rw [takeKey_length]; exact hL) (by rw [takeKey_length]; exact hL') hv
  rw [hroom']
  rw [show cutAt node ki L = A.length + B.length + 1 by omega, Nat.add_sub_cancel, hmiddle, ← hA,
    hfront, Nat.add_sub_cancel_left] at hfirst
  rw [hes] at hpacked hfits
  rw [← hA]
  cases hleaf : isLeaf node with
  | true =>
    obtain ⟨parent, hparts, hparent⟩ := @split_leaf_left node other key nodeOffset otherOffset v
      L A B R hpacked hfits hne hL hL' hv hn ho hleaf hfirst
    refine ⟨hparts.status, fun hconserved => ?_, fun hfit => ?_⟩
    · rw [← hparts.other.used_eq]
      exact hconserved.other_room
    · refine .of_parts hparts (hnew hfit) hfits'.right ?_ fun _ => ?_
      · rw [if_pos hleaf, append_nil, hes, insertIdx_append_length]
        simp
      · rw [hparent hfit, List.getLast?_eq_getLast_of_ne_nil (by simp)]
        rfl
  | false =>
    have hcount := hnext hleaf
    rw [← entries_length, hes, length_append, length_append] at hcount
    obtain ⟨d, R, rfl⟩ : ∃ d R', R = d :: R' := exists_cons_of_length_pos (by omega)
    have hparts := @split_index_left node other key nodeOffset otherOffset v L A B R d hpacked
      hfits hL hL' hv hn ho hleaf hfirst
    refine ⟨hparts.status, fun hconserved => ?_, fun hfit => ?_⟩
    · rw [← hparts.other.used_eq]
      exact hconserved.other_room
    · refine .of_parts hparts (hnew hfit) (Fits.right (A := [d]) hfits'.right) ?_ fun h => ?_
      · rw [hleaf, if_neg (by simp), hes, insertIdx_append_length]
        simp
      · rw [hleaf] at h
        cases h

/-- **When a split conserves the entries.** -/
theorem splitNode_conserves (h : WellFormed node) (hki : ki ≤ all_key_count node)
    (hL : BPLUSTREE_MIN_KEY_LENGTH ≤ L) (hL' : L ≤ BPLUSTREE_MAX_KEY_LENGTH) (hv : IsInt64 v)
    (hn : IsInt64 nodeOffset) (ho : IsInt64 otherOffset) (hroom : NoRoom node L) :
    (SplitsWell node ki L → MovesSafe node ki L →
        (SplitNode node nodeOffset other otherOffset ki key L v).status = .B_OK →
        Conserved node ki (takeKey key L, v)
          (SplitNode node nodeOffset other otherOffset ki key L v)) ∧
      (((SplitNode node nodeOffset other otherOffset ki key L v).status = .B_OK →
          Conserved node ki (takeKey key L, v)
            (SplitNode node nodeOffset other otherOffset ki key L v)) →
        SplitsWell node ki L) := by
  obtain ⟨htwo, hle, -, hfirst⟩ := cutAt_spec h hki hL hL' hroom
  unfold SplitsWell
  by_cases hall : isLeaf node = false ∧ all_key_count node < cutAt node ki L
  · -- there is no key left for the parent
    obtain ⟨hindex, hlt⟩ := hall
    rw [if_pos ⟨hindex, hlt⟩]
    rw [if_neg (by omega)] at hfirst
    obtain ⟨A, B, hes, hA⟩ : ∃ A B, entries node = A ++ B ∧ A.length = ki :=
      ⟨(entries node).take ki, (entries node).drop ki, (take_append_drop _ _).symm,
        length_take_of_le (by rwa [entries_length])⟩
    have hpacked := h.packed
    have hfits := h.fits
    have hcount := h.packed.count
    rw [hes] at hpacked hfits hcount
    rw [length_append] at hcount
    obtain ⟨hfront, hmiddle⟩ := bytesUpTo_middle (B := []) (by rw [hes, append_nil])
    rw [show cutAt node ki L = A.length + B.length + 1 by omega, Nat.add_sub_cancel, hmiddle,
      ← hA, hfront, Nat.add_sub_cancel_left] at hfirst
    obtain ⟨hstatus, hother⟩ := @split_index_all node other key nodeOffset otherOffset v L A B
      hpacked hfits (ne_nil_of_length_pos (by rw [length_append]; omega)) hL hL' hv hn
      hindex hfirst
    rw [← hA, hstatus]
    refine ⟨fun hbad _ hok => absurd hok hbad, fun hconserved hsame => ?_⟩
    -- all the entries are in the new node, and one more for the parent
    have hentries := congrArg List.length (hconserved hsame).entries
    rw [length_append, length_append, entries_length, hother (hstatus.2 hsame),
      hindex, if_neg nofun, length_singleton,
      length_insertIdx_of_le_length (by rw [entries_length]; omega), entries_length,
      entries_length] at hentries
    omega
  · rw [if_neg hall]
    rcases Nat.lt_or_ge ki (cutAt node ki L) with hlt | hge
    · obtain ⟨hok, hiff⟩ := @conserved_left node other key nodeOffset otherOffset v ki L h hki hL
        hL' hv hn ho hroom hlt fun hindex => by
          by_contra hgt
          exact hall ⟨hindex, by omega⟩
      exact ⟨fun hfit _ _ => hiff.2 hfit, fun hconserved => hiff.1 (hconserved hok)⟩
    · refine ⟨fun _ hsafe _ => (conserved_right h hki hL hL' hv hn ho hroom hge hsafe).2,
        fun _ hlt => ?_⟩
      exact absurd hlt (Nat.not_lt.2 hge)

end Assembled

/-! ## Two leaves -/

/-- A leaf with these entries. -/
def leafOf : List Entry → Buffer
  | [] => initializeNode fun _ => 0
  | e :: es => insertKey (leafOf es) 0 (fun i => e.1.getD i 0) e.1.length e.2

theorem takeKey_getD (key : Key) : takeKey (fun i => key.getD i 0) key.length = key := by
  apply ext_getElem
  · simp
  · intro i _ hi
    rw [takeKey_getElem]
    simp [getD_eq_getElem?_getD, hi]

theorem leafOf_packed {es : List Entry} (h : Fits es) :
    Packed (leafOf es) es ∧ ∀ i, i < 24 → leafOf es i = leafOf [] i := by
  induction es with
  | nil => exact ⟨packed_of_header (by decide) (by decide) rfl rfl trivial, fun _ _ => rfl⟩
  | cons e es ih =>
    obtain ⟨hpacked, hlinks⟩ := ih (h.remove (A := []))
    have hkey := takeKey_getD e.1
    have hroom : usedBy ([] ++ (takeKey (fun i => e.1.getD i 0) e.1.length, e.2) :: es) ≤
        BPLUSTREE_NODE_SIZE := by
      rw [hkey]
      exact h.room
    obtain ⟨hinserted, hsame⟩ := @Packed.insertKey _ [] es _ _ _ hpacked (h.value e (by simp)) hroom
    rw [hkey] at hinserted
    exact ⟨hinserted, fun i hi => (hsame i hi).trans (hlinks i hi)⟩

theorem leafOf_spec {es : List Entry} (h : Fits es) :
    WellFormed (leafOf es) ∧ entries (leafOf es) = es ∧ isLeaf (leafOf es) = true := by
  obtain ⟨hpacked, hlinks⟩ := leafOf_packed h
  refine ⟨hpacked.wellFormed h, hpacked.entries_eq h, ?_⟩
  have hlink : overflow_link (leafOf es) = overflow_link (leafOf []) :=
    load64_congr fun i _ => hlinks _ (by omega)
  rw [isLeaf, hlink]
  decide

/-- Eight keys of 90 bytes. -/
def eightKeys : List Entry := (List.range 8).map fun i => (List.replicate 90 (UInt8.ofNat i), i)

/-- Two keys of 226 bytes and one of 256. -/
def threeKeys : List Entry :=
  [(List.replicate 226 1, 1), (List.replicate 226 2, 2), (List.replicate 256 3, 3)]

theorem eightKeys_fits : Fits eightKeys := by
  refine ⟨?_, ?_, ?_, ?_⟩ <;> decide +kernel

theorem threeKeys_fits : Fits threeKeys := by
  refine ⟨?_, ?_, ?_, ?_⟩ <;> decide +kernel

/-- A key of 200 bytes between the last two of eight keys: six of them move. -/
theorem eightKeys_conserved : Conserved (leafOf eightKeys) 7 (takeKey (fun _ => 6) 200, 9)
      (SplitNode (leafOf eightKeys) 1024 (leafOf []) 2048 7 (fun _ => 6) 200 9) := by
  obtain ⟨hwell, hentries, hleaf⟩ := leafOf_spec eightKeys_fits
  generalize leafOf eightKeys = node at *
  have hcount : all_key_count node = 8 := by
    rw [hwell.packed.count, hentries]
    rfl
  have hlength : all_key_length node = 720 := by
    rw [hwell.packed.length, hentries]
    decide +kernel
  have hcut : cutAt node 7 200 = 6 := by
    rw [cutAt, hentries]
    decide +kernel
  have hskipped : skipped node 7 200 = 6 := by rw [skipped, if_pos hleaf, hcut]
  have hlengths : keyLengths node = 752 := by
    rw [keyLengths, hlength]
    rfl
  have hvalues : values node = 768 := by rw [values, hlengths, hcount]
  have hroom : NoRoom node 200 := by
    rw [NoRoom, hlength, hcount]
    decide
  have hwell' : SplitsWell node 7 200 := by
    rw [SplitsWell, if_neg (by simp [hleaf])]
    intro hlt
    omega
  have hsafe : MovesSafe node 7 200 := by
    intro _
    have h₆ : bytesUpTo node 6 = 540 := by
      rw [bytesUpTo, hentries]
      decide +kernel
    have h₇ : bytesUpTo node 7 = 630 := by
      rw [bytesUpTo, hentries]
      decide +kernel
    have hru : round_up (28 + (200 + (630 - 540) + (720 - 630))) = 408 := by decide
    rw [hskipped, h₆, h₇, hcount, hlength, RestSafe, hlengths, hvalues, hru]
    constructor <;> simp [Apart]
  obtain ⟨hstatus, -⟩ := @conserved_right node (leafOf []) (fun _ => 6) 1024 2048 9 7 200 hwell
    (by omega) (by decide) (by decide) (by decide) (by decide) (by decide) hroom (by omega) hsafe
  exact (splitNode_conserves hwell (by omega) (by decide) (by decide) (by decide) (by decide)
    (by decide) hroom).1 hwell' hsafe hstatus

/-- With a fourth key of 256 bytes behind the other three all four go to the new node, which comes
out eight bytes too big. -/
theorem threeKeys_not_conserved : WellFormed (leafOf threeKeys) ∧ NoRoom (leafOf threeKeys) 256 ∧
      (SplitNode (leafOf threeKeys) 1024 (leafOf []) 2048 3 (fun _ => 4) 256 4).status = .B_OK ∧
      ¬Conserved (leafOf threeKeys) 3 (takeKey (fun _ => 4) 256, 4)
        (SplitNode (leafOf threeKeys) 1024 (leafOf []) 2048 3 (fun _ => 4) 256 4) := by
  obtain ⟨hwell, hentries, hleaf⟩ := leafOf_spec threeKeys_fits
  have hcount : all_key_count (leafOf threeKeys) = 3 := by
    rw [hwell.packed.count, hentries]
    rfl
  have hlength : all_key_length (leafOf threeKeys) = 708 := by
    rw [hwell.packed.length, hentries]
    decide +kernel
  have hcut : cutAt (leafOf threeKeys) 3 256 = 4 := by
    rw [cutAt, hentries]
    decide +kernel
  have hroom : NoRoom (leafOf threeKeys) 256 := by
    rw [NoRoom, hlength, hcount]
    decide
  obtain ⟨hstatus, hconserved⟩ := @conserved_left (leafOf threeKeys) (leafOf []) (fun _ => 4) 1024
    2048 4 3 256 hwell (by omega) (by decide) (by decide) (by decide) (by decide) (by decide) hroom
    (by omega) fun hindex => by simp [hleaf] at hindex
  refine ⟨hwell, hroom, hstatus, fun h => ?_⟩
  have hfit := hconserved.1 h (by omega)
  have hbytes : bytesUpTo (leafOf threeKeys) (4 - 1) = 708 := by
    rw [bytesUpTo, hentries]
    decide +kernel
  rw [hcut, hbytes] at hfit
  exact absurd hfit (by decide)

end BFS
