import OpenBeOS.BFS.Packed

/-! # Editing one entry of a node

`entries node` decodes a node as `KeyAt()` and `Values()` read it. `WellFormed` nodes are those
whose arrays are what their header says. `InsertKey()` and `RemoveKey()` are list operations on
the decoded entries; where `RemoveKey()` of an index node would have to drop the overflow link,
it drops the last key, and the child of that key becomes the overflow link.
-/

namespace BFS

open Bytes List

/-! ## Decoding -/

/-- The entries of a node, read with `KeyAt()` and `Values()`. -/
def entries (node : Buffer) : List Entry :=
  (List.range (all_key_count node)).map fun i => (keyBytesAt node i, valueAt node i)

@[simp] theorem entries_length (node : Buffer) : (entries node).length = all_key_count node := by
  simp [entries]

/-- The arrays of the node are what its header says: the lengths are cumulative, the keys have
valid lengths, and all is inside the node. -/
structure WellFormed (node : Buffer) : Prop where
  packed : Packed node (entries node)
  fits : Fits (entries node)

variable {node : Buffer} {es : List Entry}

theorem Packed.entries_eq (h : Packed node es) (hf : Fits es) : entries node = es := by
  apply ext_getElem
  · rw [entries_length, h.count]
  · intro i hi hes
    obtain ⟨A, B, hsplit, rfl⟩ : ∃ A B, es = A ++ es[i] :: B ∧ A.length = i :=
      ⟨es.take i, es.drop (i + 1), by rw [getElem_cons_drop, take_append_drop],
        length_take_of_le hes.le⟩
    have hkey := (hsplit ▸ h : Packed node (A ++ es[A.length] :: B)).keyBytesAt_eq (hsplit ▸ hf)
    have hvalue := (hsplit ▸ h : Packed node (A ++ es[A.length] :: B)).valueAt_eq
    simp only [entries, getElem_map, getElem_range, hkey, hvalue]

theorem Packed.wellFormed (h : Packed node es) (hf : Fits es) : WellFormed node := by
  have heq := h.entries_eq hf
  exact ⟨heq ▸ h, heq ▸ hf⟩

theorem Packed.congr {node node' : Buffer} (h : Packed node es)
    (hsame : ∀ i, 24 ≤ i → node' i = node i) : Packed node' es := by
  have hcount : all_key_count node' = es.length :=
    (load16_congr fun i _ => hsame _ (by omega)).trans h.count
  have hlength : all_key_length node' = keysLength es :=
    (load16_congr fun i _ => hsame _ (by omega)).trans h.length
  refine packed_of_header hcount hlength rfl rfl ?_
  have hslots := h.slots
  have hbehind := le_round_up (28 + keysLength es)
  rw [h.values_eq, h.keyLengths_eq] at hslots
  refine hslots.move ?_ ?_ ?_
  · intro i _
    rw [load16_congr fun j _ => hsame _ (by omega)]
  · intro i _
    exact load64_congr fun j _ => hsame _ (by omega)
  · intro j _
    exact hsame _ (by omega)

/-! ## The links -/

/-- The links to the siblings are the same. -/
structure SameSiblings (node node' : Buffer) : Prop where
  left : left_link node' = left_link node
  right : right_link node' = right_link node

/-- All three links are the same. -/
structure SameLinks (node node' : Buffer) : Prop extends SameSiblings node node' where
  overflow : overflow_link node' = overflow_link node

theorem SameSiblings.of_bytes {node node' : Buffer} (h : ∀ i, i < 16 → node' i = node i) :
    SameSiblings node node' :=
  ⟨load64_congr fun i _ => h _ (by omega), load64_congr fun i _ => h _ (by omega)⟩

theorem SameLinks.of_bytes {node node' : Buffer} (h : ∀ i, i < 24 → node' i = node i) :
    SameLinks node node' :=
  ⟨.of_bytes fun i hi => h i (by omega), load64_congr fun i _ => h _ (by omega)⟩

/-! ## The edits -/

/-- The pair has room in the node: the test `Insert()` makes (which even leaves a byte). -/
structure HasRoom (node : Buffer) (keyLength : Nat) (value : Int) : Prop where
  key_pos : BPLUSTREE_MIN_KEY_LENGTH ≤ keyLength
  key_le : keyLength ≤ BPLUSTREE_MAX_KEY_LENGTH
  value : IsInt64 value
  room : round_up (sizeofNode + all_key_length node + keyLength) +
    (all_key_count node + 1) * (2 + 8) ≤ BPLUSTREE_NODE_SIZE

theorem insertIdx_append_length {α : Type} (A B : List α) (x : α) :
    (A ++ B).insertIdx A.length x = A ++ x :: B := by
  induction A with
  | nil => simp
  | cons a A ih => simp [ih]

theorem Fits.insert {A B : List Entry} {e : Entry} (h : Fits (A ++ B))
    (hpos : BPLUSTREE_MIN_KEY_LENGTH ≤ e.1.length) (hle : e.1.length ≤ BPLUSTREE_MAX_KEY_LENGTH)
    (hvalue : IsInt64 e.2) (hroom : usedBy (A ++ e :: B) ≤ BPLUSTREE_NODE_SIZE) :
    Fits (A ++ e :: B) := by
  have hcases : ∀ x ∈ A ++ e :: B, x = e ∨ x ∈ A ++ B := by
    intro x hx
    simp only [mem_append, mem_cons] at hx ⊢
    tauto
  refine ⟨fun x hx => ?_, fun x hx => ?_, fun x hx => ?_, hroom⟩
  · obtain rfl | hold := hcases x hx
    · exact hpos
    · exact h.key_pos x hold
  · obtain rfl | hold := hcases x hx
    · exact hle
    · exact h.key_le x hold
  · obtain rfl | hold := hcases x hx
    · exact hvalue
    · exact h.value x hold

theorem Fits.remove {A B : List Entry} {e : Entry} (h : Fits (A ++ e :: B)) : Fits (A ++ B) := by
  have hmem : ∀ x ∈ A ++ B, x ∈ A ++ e :: B := by
    intro x hx
    simp only [mem_append, mem_cons] at hx ⊢
    tauto
  refine ⟨fun x hx => h.key_pos x (hmem x hx), fun x hx => h.key_le x (hmem x hx),
    fun x hx => h.value x (hmem x hx), ?_⟩
  have hroom := h.room
  have hmono : round_up (sizeofNode + (keysLength A + keysLength B)) ≤
      round_up (sizeofNode + (keysLength A + (e.1.length + keysLength B))) :=
    round_up_mono (by omega)
  simp only [usedBy, keysLength_append, keysLength_cons, length_append, length_cons] at hroom ⊢
  omega

theorem WellFormed.insertKey {node key : Buffer} {index keyLength : Nat} {value : Int}
    (h : WellFormed node) (hindex : index ≤ all_key_count node)
    (hroom : HasRoom node keyLength value) :
    entries (insertKey node index key keyLength value) =
        (entries node).insertIdx index (takeKey key keyLength, value) ∧
      SameLinks node (BFS.insertKey node index key keyLength value) ∧
      WellFormed (BFS.insertKey node index key keyLength value) := by
  obtain ⟨A, B, hsplit, rfl⟩ : ∃ A B, entries node = A ++ B ∧ A.length = index :=
    ⟨(entries node).take index, (entries node).drop index, (take_append_drop _ _).symm,
      length_take_of_le (by rwa [entries_length])⟩
  have hpacked := h.packed
  have hfits := h.fits
  have hused : usedBy (A ++ (takeKey key keyLength, value) :: B) ≤ BPLUSTREE_NODE_SIZE := by
    have hlength := h.packed.length
    have hcount := h.packed.count
    have hbound := hroom.room
    rw [hsplit, keysLength_append] at hlength
    rw [hsplit, length_append] at hcount
    rw [hlength, hcount] at hbound
    simp only [usedBy, keysLength_append, keysLength_cons, takeKey_length, length_append,
      length_cons]
    rw [show sizeofNode + (keysLength A + (keyLength + keysLength B)) =
        sizeofNode + (keysLength A + keysLength B) + keyLength by omega]
    omega
  rw [hsplit] at hpacked hfits
  have hnew : Fits (A ++ (takeKey key keyLength, value) :: B) :=
    hfits.insert (by simpa using hroom.key_pos) (by simpa using hroom.key_le) hroom.value hused
  obtain ⟨hinserted, hlinks⟩ := hpacked.insertKey hroom.value hused
  refine ⟨?_, .of_bytes hlinks, hinserted.wellFormed hnew⟩
  rw [hinserted.entries_eq hnew, hsplit, insertIdx_append_length]

theorem WellFormed.removeKey {index : Nat} (h : WellFormed node)
    (hindex : index < all_key_count node) :
    entries (removeKey node index) = (entries node).eraseIdx index ∧
      SameLinks node (BFS.removeKey node index) ∧ WellFormed (BFS.removeKey node index) := by
  have hlt : index < (entries node).length := by rwa [entries_length]
  obtain ⟨A, e, B, hsplit, rfl⟩ : ∃ A e B, entries node = A ++ e :: B ∧ A.length = index :=
    ⟨(entries node).take index, (entries node)[index], (entries node).drop (index + 1),
      by rw [getElem_cons_drop, take_append_drop], length_take_of_le hlt.le⟩
  have hpacked := h.packed
  have hfits := h.fits
  rw [hsplit] at hpacked hfits
  obtain ⟨hremoved, hlinks⟩ := hpacked.removeKey hfits
  refine ⟨?_, .of_bytes hlinks, hremoved.wellFormed hfits.remove⟩
  rw [hremoved.entries_eq hfits.remove, hsplit, eraseIdx_append_of_length_le (Nat.le_refl _),
    Nat.sub_self, eraseIdx_cons_zero]

/-- Where the overflow link of an index node would have to go, the last key goes instead, and
its value becomes the overflow link. -/
theorem removeKey_all_key_count (hindex : isLeaf node = false)
    (hcount : 0 < all_key_count node) :
    removeKey node (all_key_count node) =
      removeKey (setOverflowLink node (valueAt node (all_key_count node - 1)))
        (all_key_count node - 1) := by
  generalize hlink : setOverflowLink node (valueAt node (all_key_count node - 1)) = node'
  have hcount' : all_key_count node' = all_key_count node := by
    rw [← hlink]
    exact load16_store64_disjoint (by omega)
  have hlength' : all_key_length node' = all_key_length node := by
    rw [← hlink]
    exact load16_store64_disjoint (by omega)
  have hvalues : values node' = values node := by
    rw [values, values, keyLengths, keyLengths, hcount', hlength']
  have hdrop : (!isLeaf node && all_key_count node == all_key_count node) = true := by
    simp [hindex]
  -- one key less is not all keys: the second call leaves the overflow link alone
  have hkeep : (!isLeaf node' && all_key_count node - 1 == all_key_count node') = false := by
    rw [hcount', beq_eq_false_iff_ne.mpr (by omega), Bool.and_false]
  have hguard : ¬(all_key_count node > all_key_count node ∧ all_key_count node > 0) := by omega
  have hguard' : ¬(all_key_count node - 1 > all_key_count node' ∧ all_key_count node' > 0) := by
    omega
  have hfirst : setOverflowLink node
      (load64 node (values node + 8 * (all_key_count node - 1))) = node' := hlink
  unfold removeKey
  rw [if_neg hguard, if_neg hguard']
  simp only [hdrop, hkeep, if_true, Bool.false_eq_true, if_false, hfirst, hvalues]

theorem WellFormed.removeKey_last (h : WellFormed node)
    (hindex : isLeaf node = false) (hcount : 0 < all_key_count node) :
    entries (BFS.removeKey node (all_key_count node)) = (entries node).dropLast ∧
      SameSiblings node (BFS.removeKey node (all_key_count node)) ∧
      overflow_link (BFS.removeKey node (all_key_count node)) =
        valueAt node (all_key_count node - 1) ∧
      WellFormed (BFS.removeKey node (all_key_count node)) := by
  rw [removeKey_all_key_count hindex hcount]
  have hbehind : ∀ i, 24 ≤ i →
      setOverflowLink node (valueAt node (all_key_count node - 1)) i = node i :=
    fun i hi => store64_outside (by omega)
  have hpacked := h.packed.congr hbehind
  have hentries := hpacked.entries_eq h.fits
  have hcount' : all_key_count (setOverflowLink node (valueAt node (all_key_count node - 1))) =
      all_key_count node := load16_store64_disjoint (by omega)
  have hlast : all_key_count node - 1 <
      all_key_count (setOverflowLink node (valueAt node (all_key_count node - 1))) := by omega
  obtain ⟨hremoved, hlinks, hwell⟩ := (hpacked.wellFormed h.fits).removeKey hlast
  refine ⟨?_, ?_, ?_, hwell⟩
  · rw [hremoved, hentries]
    exact eraseIdx_eq_dropLast (by rw [entries_length]; omega)
  · have hsiblings : SameSiblings node
        (setOverflowLink node (valueAt node (all_key_count node - 1))) :=
      .of_bytes fun i hi => store64_outside (by omega)
    exact ⟨hlinks.left.trans hsiblings.left, hlinks.right.trans hsiblings.right⟩
  · rw [hlinks.overflow, overflow_link, setOverflowLink]
    exact load64_store64_same _ (isInt64_load64 _ _)

/-- **`InsertKey()` and `RemoveKey()` edit exactly one entry of a well-formed node.** -/
theorem node_edits {node : Buffer} (h : WellFormed node) :
    (∀ (index : Nat) (key : Buffer) (keyLength : Nat) (value : Int),
      index ≤ all_key_count node → HasRoom node keyLength value →
        entries (insertKey node index key keyLength value) =
            (entries node).insertIdx index (takeKey key keyLength, value) ∧
          SameLinks node (insertKey node index key keyLength value) ∧
          entries (removeKey (insertKey node index key keyLength value) index) = entries node) ∧
    (∀ index, index < all_key_count node →
      entries (removeKey node index) = (entries node).eraseIdx index ∧
        SameLinks node (removeKey node index)) ∧
    (isLeaf node = false → 0 < all_key_count node →
      entries (removeKey node (all_key_count node)) = (entries node).dropLast ∧
        SameSiblings node (removeKey node (all_key_count node)) ∧
        (entries node).getLast?.map Prod.snd =
          some (overflow_link (removeKey node (all_key_count node)))) := by
  refine ⟨?_, ?_, ?_⟩
  · intro index key keyLength value hindex hroom
    obtain ⟨hinserted, hlinks, hwell⟩ := @WellFormed.insertKey _ key _ _ _ h hindex hroom
    have hcount : all_key_count (insertKey node index key keyLength value) =
        all_key_count node + 1 := by
      rw [← entries_length, hinserted, length_insertIdx, entries_length, if_pos hindex]
    obtain ⟨hremoved, -, -⟩ := hwell.removeKey (show index < _ by omega)
    refine ⟨hinserted, hlinks, ?_⟩
    rw [hremoved, hinserted, eraseIdx_insertIdx_self]
  · intro index hindex
    obtain ⟨hremoved, hlinks, -⟩ := h.removeKey hindex
    exact ⟨hremoved, hlinks⟩
  · intro hindex hcount
    obtain ⟨hremoved, hlinks, hoverflow, -⟩ := h.removeKey_last hindex hcount
    refine ⟨hremoved, hlinks, ?_⟩
    rw [hoverflow, List.getLast?_eq_getElem?, entries_length,
      List.getElem?_eq_getElem (by rw [entries_length]; omega)]
    simp [entries]

/-- An index node without keys. -/
def emptyIndexNode : Buffer := setOverflowLink (initializeNode fun _ => 0) 2048

/-- An index node with the key `a`. -/
def oneKeyNode : Buffer := insertKey emptyIndexNode 0 (fun _ => 97) 1 1024

theorem emptyIndexNode_wellFormed : WellFormed emptyIndexNode := by
  have hcount : all_key_count emptyIndexNode = 0 := by decide
  have hlength : all_key_length emptyIndexNode = 0 := by decide
  have hpacked : Packed emptyIndexNode [] := packed_of_header hcount hlength rfl rfl trivial
  exact hpacked.wellFormed ⟨nofun, nofun, nofun, by decide⟩

theorem oneKeyNode_spec : WellFormed oneKeyNode ∧ entries oneKeyNode = [([97], 1024)] ∧
    isLeaf oneKeyNode = false := by
  have hroom : HasRoom emptyIndexNode 1 1024 := ⟨by decide, by decide, by decide, by decide⟩
  obtain ⟨hentries, hlinks, hwell⟩ :=
    @WellFormed.insertKey _ (fun _ => 97) _ _ _ emptyIndexNode_wellFormed (Nat.zero_le _) hroom
  refine ⟨hwell, ?_, ?_⟩
  · have hempty : entries emptyIndexNode = [] := by
      apply eq_nil_of_length_eq_zero
      rw [entries_length]
      decide
    rw [oneKeyNode, hentries, hempty]
    rfl
  · have hlink : overflow_link oneKeyNode = 2048 := hlinks.overflow.trans (by decide)
    rw [isLeaf, hlink]
    decide

/-- A second key goes in and out again, and the only key goes out in both ways. -/
theorem oneKeyNode_edits :
    entries (removeKey (insertKey oneKeyNode 1 (fun _ => 98) 1 3072) 1) = [([97], 1024)] ∧
      entries (removeKey oneKeyNode 0) = [] ∧
      entries (removeKey oneKeyNode (all_key_count oneKeyNode)) = [] := by
  obtain ⟨hwell, hentries, hindex⟩ := oneKeyNode_spec
  have hcount : all_key_count oneKeyNode = 1 := by rw [← entries_length, hentries]; rfl
  have hlength : all_key_length oneKeyNode = 1 := by rw [hwell.packed.length, hentries]; rfl
  obtain ⟨hinsert, hremove, hlast⟩ := node_edits hwell
  refine ⟨?_, ?_, ?_⟩
  · obtain ⟨-, -, hback⟩ := hinsert 1 (fun _ => 98) 1 3072 (by omega)
      ⟨by decide, by decide, by decide, by rw [hlength, hcount]; decide⟩
    rw [hback, hentries]
  · rw [(hremove 0 (by omega)).1, hentries]
    rfl
  · rw [(hlast hindex (by omega)).1, hentries]
    rfl

end BFS
