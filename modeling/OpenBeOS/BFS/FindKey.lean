import OpenBeOS.BFS.CompareKeys
import OpenBeOS.BFS.NodeEdit
import OpenBeOS.Lib.Bisect

/-! # Searching a node

`FindKey()` is a binary search over the keys of a node. In a packed node whose keys are sorted
it finds the key, or the place where it belongs and the link to follow from there.
-/

namespace BFS

open Bytes List

/-- The comparison with the key at `i`; `none` stands for the panic about a bad key. -/
def probeKey (type : KeyType) (node : Buffer) (key : Key) (i : Nat) : Option Int :=
  let (searchKey, searchLength) := keyAt node i
  if searchKey + searchLength + 8 + 2 > BPLUSTREE_NODE_SIZE ∨
      searchLength > BPLUSTREE_MAX_KEY_LENGTH then none
  else some (compareKeys type key (keyBytesAt node i))

/-- `FindKey()`: the status, the index and the next offset. -/
def FindKey (type : KeyType) (node : Buffer) (key : Key) : Status × Nat × Int :=
  if all_key_count node = 0 then (.B_ENTRY_NOT_FOUND, 0, overflow_link node)
  else
    match Bisect.search (probeKey type node key) (all_key_count node) 0 (all_key_count node) 0 with
    | .failed => (.B_BAD_DATA, 0, 0)
    | .found i => (.B_OK, i, valueAt node i)
    | .absent i =>
      (.B_ENTRY_NOT_FOUND, i,
        if i = all_key_count node then overflow_link node else valueAt node i)

/-! ## The entries of a node in order -/

/-- The keys are strictly increasing. -/
def SortedKeys (type : KeyType) (es : List Entry) : Prop :=
  es.Pairwise fun e e' => rank type e.1 < rank type e'.1

/-- The key is above all entries. -/
def Above (type : KeyType) (key : Key) (es : List Entry) : Prop :=
  ∀ e ∈ es, rank type e.1 < rank type key

/-- The key is below all entries. -/
def Below (type : KeyType) (key : Key) (es : List Entry) : Prop :=
  ∀ e ∈ es, rank type key < rank type e.1

/-- The link to follow at the front of the entries. -/
def firstLink (overflow : Int) : List Entry → Int
  | [] => overflow
  | e :: _ => e.2

variable {type : KeyType} {A B : List Entry} {node : Buffer}

theorem SortedKeys.split {es : List Entry} (h : SortedKeys type es) (key : Key) :
    ∃ A B, es = A ++ B ∧ Above type key A ∧
      (Below type key B ∨ ∃ e B', B = e :: B' ∧ rank type e.1 = rank type key ∧ Below type key B') := by
  induction es with
  | nil => exact ⟨[], [], rfl, by simp [Above], .inl (by simp [Below])⟩
  | cons e es ih =>
    obtain ⟨hfirst, hrest⟩ := pairwise_cons.1 h
    rcases lt_trichotomy (rank type e.1) (rank type key) with hlt | heq | hgt
    · obtain ⟨A, B, rfl, hA, hB⟩ := ih hrest
      refine ⟨e :: A, B, rfl, ?_, hB⟩
      intro x hx
      rcases mem_cons.1 hx with rfl | hx
      · exact hlt
      · exact hA x hx
    · refine ⟨[], e :: es, rfl, by simp [Above], .inr ⟨e, es, rfl, heq, fun x hx => ?_⟩⟩
      exact heq ▸ hfirst x hx
    · refine ⟨[], e :: es, rfl, by simp [Above], .inl fun x hx => ?_⟩
      rcases mem_cons.1 hx with rfl | hx
      · exact hgt
      · exact hgt.trans (hfirst x hx)

theorem sortedKeys_append : SortedKeys type (A ++ B) ↔ SortedKeys type A ∧ SortedKeys type B ∧
      ∀ a ∈ A, ∀ b ∈ B, rank type a.1 < rank type b.1 :=
  pairwise_append

/-! ## FindKey in a packed node -/

theorem Packed.probeKey_eq {e : Entry}
    (h : Packed node (A ++ e :: B)) (hf : Fits (A ++ e :: B)) (key : Key) :
    probeKey type node key A.length = some (compareKeys type key e.1) := by
  have hlen := hf.keysLength_le
  have hkey := hf.key_le e (by simp)
  unfold probeKey
  rw [h.keyAt_eq hf, h.keyBytesAt_eq hf]
  simp only [keysLength_append, keysLength_cons, length_append, length_cons] at hlen
  simp only
  rw [if_neg (by simp only [BPLUSTREE_NODE_SIZE]; omega)]

/-- The search over the entries that `FindKey()` makes in a packed node. -/
def searchEntries (type : KeyType) (es : List Entry) (key : Key) : Bisect.Outcome :=
  Bisect.search (fun i => (es[i]?).map fun e => compareKeys type key e.1) es.length 0 es.length 0

theorem Packed.findKey_eq {es : List Entry}
    (h : Packed node es) (hf : Fits es) (key : Key) :
    FindKey type node key =
      match searchEntries type es key with
      | .failed => (.B_BAD_DATA, 0, 0)
      | .found i => (.B_OK, i, valueAt node i)
      | .absent i => (.B_ENTRY_NOT_FOUND, i,
          if i = es.length then overflow_link node else valueAt node i) := by
  unfold FindKey searchEntries
  rw [h.count]
  by_cases hnil : es.length = 0
  · rw [if_pos hnil, hnil]
    simp [Bisect.search]
  · rw [if_neg hnil, Bisect.search_congr es.length 0 es.length 0 fun i hi => ?_]
    obtain ⟨A, e, B, rfl, rfl⟩ : ∃ A e B, es = A ++ e :: B ∧ A.length = i :=
      ⟨es.take i, es[i], es.drop (i + 1), by
        rw [← drop_eq_getElem_cons hi, take_append_drop], by
        rw [length_take]; omega⟩
    rw [h.probeKey_eq hf key]
    simp

/-- The search over sorted entries, with a comparison that decides. -/
theorem searchEntries_spec {key : Key}
    (hA : Above type key A) (hd : ∀ e ∈ A ++ B, Decides type key e.1) :
    (Below type key B → searchEntries type (A ++ B) key = .absent A.length) ∧
      ∀ e B', B = e :: B' → e.1 = key → Below type key B' →
        searchEntries type (A ++ B) key = .found A.length := by
  have habove : ∀ i, i < A.length → ∃ cmp,
      ((A ++ B)[i]?).map (fun e => compareKeys type key e.1) = some cmp ∧ 0 < cmp := by
    intro i hi
    have hget : (A ++ B)[i]? = some A[i] := by
      rw [List.getElem?_append_left hi, List.getElem?_eq_getElem hi]
    have hmem : A[i] ∈ A := getElem_mem hi
    exact ⟨_, by rw [hget]; rfl, (hd _ (by simp [hmem])).pos.2 (hA _ hmem)⟩
  have hbelow : ∀ (C : List Entry) (j : Nat), Below type key C → (∀ e ∈ C, Decides type key e.1) →
      j < C.length → ∃ cmp, (C[j]?).map (fun e => compareKeys type key e.1) = some cmp ∧ cmp < 0 := by
    intro C j hC hdC hj
    have hmem : C[j] ∈ C := getElem_mem hj
    exact ⟨_, by rw [List.getElem?_eq_getElem hj]; rfl, (hdC _ hmem).neg.2 (hC _ hmem)⟩
  have hright : ∀ i, A.length ≤ i → (A ++ B)[i]? = B[i - A.length]? :=
    fun i hi => List.getElem?_append_right hi
  constructor
  · intro hB
    have hBd : ∀ e ∈ B, Decides type key e.1 := fun e he => hd e (by simp [he])
    have hsplit : Bisect.SplitAt (fun i => ((A ++ B)[i]?).map fun e => compareKeys type key e.1)
        (A ++ B).length A.length := by
      refine ⟨by simp, habove, fun i hlow hhigh => ?_, fun hlt => ?_⟩
      · rw [hright i (by omega)]
        exact hbelow B _ hB hBd (by rw [length_append] at hhigh; omega)
      · rw [hright _ (Nat.le_refl _)]
        obtain ⟨cmp, hcmp, hneg⟩ := hbelow B 0 hB hBd (by simpa using hlt)
        exact ⟨cmp, by simpa using hcmp, by omega⟩
    rw [searchEntries, Bisect.search_all hsplit, Bisect.outcomeAt, if_neg]
    rintro ⟨hlt, hzero⟩
    rw [hright _ (Nat.le_refl _)] at hzero
    obtain ⟨cmp, hcmp, hneg⟩ := hbelow B 0 hB hBd (by simpa using hlt)
    rw [Nat.sub_self, hcmp] at hzero
    exact absurd (Option.some.inj hzero) (by omega)
  · rintro e B' rfl rfl hB'
    have hBd : ∀ x ∈ B', Decides type e.1 x.1 := fun x hx => hd x (by simp [hx])
    have hat : ((A ++ e :: B')[A.length]?).map (fun x => compareKeys type e.1 x.1) = some 0 := by
      rw [hright _ (Nat.le_refl _), Nat.sub_self]
      exact congrArg some ((hd e (by simp)).zero.2 rfl)
    have hsplit : Bisect.SplitAt
        (fun i => ((A ++ e :: B')[i]?).map fun x => compareKeys type e.1 x.1)
        (A ++ e :: B').length A.length := by
      refine ⟨by simp, habove, fun i hlow hhigh => ?_, fun _ => ⟨0, hat, Int.le_refl _⟩⟩
      rw [hright i (by omega), show i - A.length = (i - A.length - 1) + 1 by omega,
        List.getElem?_cons_succ]
      refine hbelow B' _ hB' hBd ?_
      rw [length_append, length_cons] at hhigh
      omega
    rw [searchEntries, Bisect.search_all hsplit, Bisect.outcomeAt, if_pos ⟨by simp, hat⟩]

/-- **`FindKey()` for a key that is not in the node**: its place, and the link there. -/
theorem Packed.findKey_absent {key : Key}
    (h : Packed node (A ++ B)) (hf : Fits (A ++ B)) (hA : Above type key A)
    (hB : Below type key B) (hd : ∀ e ∈ A ++ B, Decides type key e.1) :
    FindKey type node key = (.B_ENTRY_NOT_FOUND, A.length, firstLink (overflow_link node) B) := by
  rw [h.findKey_eq hf, (searchEntries_spec hA hd).1 hB]
  cases B with
  | nil => simp [firstLink]
  | cons e B => simp [firstLink, h.valueAt_eq]

/-- **`FindKey()` for a key of the node.** -/
theorem Packed.findKey_found {e : Entry}
    (h : Packed node (A ++ e :: B)) (hf : Fits (A ++ e :: B)) (hA : Above type e.1 A)
    (hB : Below type e.1 B) (hd : ∀ x ∈ A ++ e :: B, Decides type e.1 x.1) :
    FindKey type node e.1 = (.B_OK, A.length, e.2) := by
  rw [h.findKey_eq hf, (searchEntries_spec hA hd).2 e B rfl rfl hB]
  simp [h.valueAt_eq]

/-! ## Editing where `FindKey()` points -/

/-- In a node in order, a key that `FindKey()` does not find is not there, and is put in at the
place it gives; a key it finds is taken out there. The node stays in order, and `FindKey()` finds
the key there, or not any more. -/
theorem edit_where_found {key : Buffer} {keyLength : Nat} {value : Int} (h : WellFormed node)
    (hsorted : SortedKeys type (entries node)) (hroom : HasRoom node keyLength value)
    (hd : ∀ e ∈ (takeKey key keyLength, value) :: entries node,
      Decides type (takeKey key keyLength) e.1) :
    ∃ i link, (FindKey type node (takeKey key keyLength) = (.B_ENTRY_NOT_FOUND, i, link) ∧
        (∀ e ∈ entries node, e.1 ≠ takeKey key keyLength) ∧
        SortedKeys type (entries (insertKey node i key keyLength value)) ∧
        FindKey type (insertKey node i key keyLength value) (takeKey key keyLength) =
          (.B_OK, i, value)) ∨
      (FindKey type node (takeKey key keyLength) = (.B_OK, i, link) ∧
        (takeKey key keyLength, link) ∈ entries node ∧
        SortedKeys type (entries (removeKey node i)) ∧
        (FindKey type (removeKey node i) (takeKey key keyLength)).1 = .B_ENTRY_NOT_FOUND) := by
  have hins := fun index => @WellFormed.insertKey node key index keyLength value h
  have hrem := fun index => @WellFormed.removeKey node index h
  have hcount := entries_length node
  have hpacked := h.packed
  have hfits := h.fits
  generalize takeKey key keyLength = k at *
  obtain ⟨A, B, hes, hA, hB⟩ := hsorted.split k
  rw [hes, length_append] at hcount
  rw [hes] at hpacked hfits hsorted hd hins hrem ⊢
  obtain ⟨hsA, hsB, hAB⟩ := sortedKeys_append.mp hsorted
  rcases hB with hB | ⟨⟨k', v⟩, B, rfl, hrank, hB⟩
  · obtain ⟨hinserted, -, hwell⟩ := hins A.length (by omega) hroom
    rw [insertIdx_append_length] at hinserted
    have hpacked' := hwell.packed
    have hfits' := hwell.fits
    rw [hinserted] at hpacked' hfits'
    refine ⟨_, _, .inl ⟨hpacked.findKey_absent hfits hA hB fun e he => hd e (.tail _ he), ?_, ?_,
      hpacked'.findKey_found hfits' hA hB fun e he => hd e (perm_middle.mem_iff.mp he)⟩⟩
    · rintro e he rfl
      rcases mem_append.mp he with he | he
      · exact lt_irrefl _ (hA e he)
      · exact lt_irrefl _ (hB e he)
    · rw [hinserted]
      refine sortedKeys_append.mpr ⟨hsA, pairwise_cons.mpr ⟨hB, hsB⟩, fun a ha b hb => ?_⟩
      rcases mem_cons.mp hb with rfl | hb
      · exact hA a ha
      · exact hAB a ha b hb
  · have hdecides := hd (k', v) (.tail _ mem_append_cons_self)
    have hneg := mt hdecides.neg.mp (hrank ▸ lt_irrefl _)
    have hpos := mt hdecides.pos.mp (hrank ▸ lt_irrefl _)
    obtain rfl : k = k' := hdecides.zero.mp (by omega)
    obtain ⟨hremoved, -, hwell⟩ := hrem A.length (by rw [← hcount, length_cons]; omega)
    rw [eraseIdx_append_of_length_le (Nat.le_refl _), Nat.sub_self, eraseIdx_cons_zero] at hremoved
    have hpacked' := hwell.packed
    have hfits' := hwell.fits
    rw [hremoved] at hpacked' hfits'
    have hsub : A ++ B <+ A ++ (k, v) :: B := (sublist_cons_self _ _).append_left _
    refine ⟨_, _, .inr ⟨hpacked.findKey_found hfits hA hB fun e he => hd e (.tail _ he),
      mem_append_cons_self, ?_, ?_⟩⟩
    · rw [hremoved]
      exact hsorted.sublist hsub
    · rw [hpacked'.findKey_absent hfits' hA hB fun e he => hd e (.tail _ (hsub.mem he))]

theorem edit_where_found_one : ∃ i link,
    FindKey .STRING_TYPE oneKeyNode [98] = (.B_ENTRY_NOT_FOUND, i, link) ∨
      FindKey .STRING_TYPE oneKeyNode [98] = (.B_OK, i, link) := by
  obtain ⟨hwell, hentries, -⟩ := oneKeyNode_spec
  have hroom : HasRoom oneKeyNode 1 3072 := ⟨by decide, by decide, by decide, by decide +kernel⟩
  obtain ⟨i, link, h⟩ := @edit_where_found .STRING_TYPE _ (fun _ => 98) _ _ hwell
    (hentries ▸ pairwise_singleton _ _) hroom fun e he => by
      rw [hentries] at he
      exact decides_string (by decide) (by fin_cases he <;> decide)
  exact ⟨i, link, h.imp And.left And.left⟩

end BFS
