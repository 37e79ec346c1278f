import OpenBeOS.BFS.SmallData

/-! # Adding and removing attributes

The section as a list of items, and what `AddSmallData()` and `RemoveSmallData()` do to the list.
-/

namespace BFS.SmallData

open Bytes List Nat

/-! ## Items -/

/-- An attribute in the section. -/
structure Item where
  type : Nat
  name : List UInt8
  data : List UInt8
  type_lt : type < 2 ^ 32
  name_ne : name ≠ []
  name_nul : 0 ∉ name

/-- `Size()` of an item. -/
def Item.size (item : Item) : Nat := 12 + item.name.length + item.data.length

/-- The item stands at a place. Of the three bytes behind the name, only the first one matters. -/
structure Item.At (m : Buffer) (item : Item) (p : Nat) : Prop where
  type : loadLE m p 4 = item.type
  name_size : load16 m (p + 4) = item.name.length
  data_size : load16 m (p + 6) = item.data.length
  name : ∀ i c, item.name[i]? = some c → m (p + 8 + i) = c
  nul : m (p + 8 + item.name.length) = 0
  data : ∀ i c, item.data[i]? = some c → m (p + 8 + item.name.length + 3 + i) = c

/-- The items stand one behind the other, up to `last`. -/
def Items (m : Buffer) : Nat → List Item → Nat → Prop
  | p, [], last => p = last
  | p, item :: items, last => item.At m p ∧ Items m (p + item.size) items last

/-- The room the items take. -/
def total (items : List Item) : Nat := (items.map Item.size).sum

@[simp] theorem total_nil : total [] = 0 := rfl

@[simp] theorem total_cons (item : Item) (items : List Item) :
    total (item :: items) = item.size + total items := by
  simp [total]

@[simp] theorem total_append (xs ys : List Item) : total (xs ++ ys) = total xs + total ys := by
  simp [total]

section

variable {m m' : Buffer} {item : Item} {items : List Item} {p q last size : Nat}

theorem Item.At.Size (h : item.At m p) : SmallData.Size m p = item.size := by
  rw [SmallData.Size, SmallData.name_size, SmallData.data_size, h.name_size, h.data_size, Item.size]
  omega

theorem Item.At.Next (h : item.At m p) : SmallData.Next m p = p + item.size := by
  rw [SmallData.Next, h.Size]

theorem Item.At.Data (h : item.At m p) : SmallData.Data m p = p + 11 + item.name.length := by
  rw [SmallData.Data, SmallData.name_size, h.name_size]
  omega

theorem Item.At.isLast (h : item.At m p) (hfits : p + item.size ≤ size) :
    IsLast size m p = false := by
  have hname := length_pos_iff.mpr item.name_ne
  rw [Item.size] at hfits
  rw [IsLast, SmallData.name_size, h.name_size]
  simp only [gt_iff_lt, Bool.or_eq_false_iff, decide_eq_false_iff_not]
  omega

/-- Only the bytes of the item matter. -/
theorem Item.At.congr (h : item.At m p) (hsame : ∀ k, k < item.size → m' (q + k) = m (p + k)) :
    item.At m' q := by
  rw [Item.size] at hsame
  refine ⟨?_, ?_, ?_, fun i c hc => ?_, ?_, fun i c hc => ?_⟩
  · rw [← h.type]
    exact loadLE_congr fun i hi => hsame i (by omega)
  · rw [← h.name_size]
    refine load16_congr fun i hi => ?_
    rw [add_assoc, add_assoc]
    exact hsame (4 + i) (by omega)
  · rw [← h.data_size]
    refine load16_congr fun i hi => ?_
    rw [add_assoc, add_assoc]
    exact hsame (6 + i) (by omega)
  · obtain ⟨hi, -⟩ := List.getElem?_eq_some_iff.mp hc
    rw [← h.name i c hc, add_assoc, add_assoc]
    exact hsame (8 + i) (by omega)
  · rw [← h.nul, add_assoc, add_assoc]
    exact hsame (8 + item.name.length) (by omega)
  · obtain ⟨hi, -⟩ := List.getElem?_eq_some_iff.mp hc
    rw [← h.data i c hc, show q + 8 + item.name.length + 3 + i = q + (11 + item.name.length + i) by
      omega, show p + 8 + item.name.length + 3 + i = p + (11 + item.name.length + i) by omega]
    exact hsame _ (by omega)

theorem Items.congr (h : Items m p items last)
    (hsame : ∀ k, k < total items → m' (q + k) = m (p + k)) :
    Items m' q items (q + total items) := by
  induction items generalizing p q with
  | nil => simp [Items]
  | cons item items ih =>
    rw [total_cons] at hsame ⊢
    refine ⟨h.1.congr fun k hk => hsame k (by omega), ?_⟩
    rw [← add_assoc]
    refine ih h.2 fun k hk => ?_
    rw [add_assoc, add_assoc]
    exact hsame (item.size + k) (by omega)

theorem Items.append_iff {xs ys : List Item} : Items m p (xs ++ ys) last ↔
    Items m p xs (p + total xs) ∧ Items m (p + total xs) ys last := by
  induction xs generalizing p with
  | nil => simp [Items]
  | cons item xs ih =>
    rw [cons_append, Items, ih, Items, total_cons, ← add_assoc]
    exact and_assoc.symm

/-! ## C strings -/

/-- Comparing with the name of an item. -/
theorem strcmpEq_iff : ∀ (stored name : List UInt8) (p : Nat), 0 ∉ stored → 0 ∉ name →
    (∀ i c, stored[i]? = some c → m (p + i) = c) → m (p + stored.length) = 0 →
    (strcmpEq m p name = true ↔ stored = name)
  | [], [], p, _, _, _, hnul => by simpa [strcmpEq] using hnul
  | [], c :: name, p, _, hname, _, hnul => by
    have hc : c ≠ 0 := fun h => hname (by simp [h])
    rw [length_nil, add_zero] at hnul
    simp [strcmpEq, hnul, Ne.symm hc]
  | c :: stored, [], p, hstored, _, hbytes, _ => by
    have hc : c ≠ 0 := fun h => hstored (by simp [h])
    have hfirst := hbytes 0 c rfl
    rw [add_zero] at hfirst
    simp [strcmpEq, hfirst, hc]
  | c :: stored, d :: name, p, hstored, hname, hbytes, hnul => by
    have hfirst := hbytes 0 c rfl
    rw [add_zero] at hfirst
    have hrest := strcmpEq_iff stored name (p + 1) (fun h => hstored (mem_cons_of_mem _ h))
      (fun h => hname (mem_cons_of_mem _ h))
      (fun i e he => by rw [add_assoc, add_comm 1]; exact hbytes (i + 1) e he)
      (by rw [← hnul, length_cons, add_assoc, add_comm 1])
    rw [strcmpEq, Bool.and_eq_true, hrest, decide_eq_true_eq, hfirst, List.cons.injEq]

variable {before after : List Item} {name : List UInt8}

theorem Item.At.strcmp (h : item.At m p) (hname : 0 ∉ name) :
    strcmpEq m (Name p) name = true ↔ item.name = name := by
  refine strcmpEq_iff item.name name (p + 8) item.name_nul hname (fun i c hc => h.name i c hc) ?_
  exact h.nul

/-! ## Searching -/

/-- The list ends within the inode. -/
structure Section (size : Nat) (m : Buffer) (items : List Item) : Prop where
  stored : Items m sizeofInode items (sizeofInode + total items)
  le : sizeofInode + total items ≤ size
  isLast : IsLast size m (sizeofInode + total items) = true

/-- Over items with other names, the search goes on. -/
theorem findItem_skip (hname : 0 ∉ name) {before : List Item} :
    ∀ {fuel p index : Nat}, Items m p before (p + total before) → p + total before ≤ size →
      (∀ item ∈ before, item.name ≠ name) → before.length ≤ fuel →
      findItem size m name fuel p index =
        findItem size m name (fuel - before.length) (p + total before) (index + before.length) := by
  induction before with
  | nil =>
    intro fuel p index _ _ _ _
    simp
  | cons item before ih =>
    intro fuel p index hitems hle hother hfuel
    rw [total_cons, ← add_assoc] at hitems hle ⊢
    obtain ⟨hat, hrest⟩ := hitems
    rw [length_cons] at hfuel
    obtain ⟨fuel, rfl⟩ : ∃ n, fuel = n + 1 := ⟨fuel - 1, by omega⟩
    have hnot := mt (hat.strcmp hname).mp (hother item (by simp))
    rw [findItem, hat.isLast (by omega), if_pos ⟨by simp, hnot⟩, hat.Next,
      ih hrest hle (fun i hi => hother i (by simp [hi])) (by omega), length_cons]
    congr 1
    · omega
    · omega

theorem length_le_total (items : List Item) : 12 * items.length ≤ total items := by
  induction items with
  | nil => simp
  | cons item items ih =>
    rw [total_cons, length_cons, Item.size]
    omega

theorem findItem_found
    (h : Section size m (before ++ item :: after)) (hbefore : ∀ i ∈ before, i.name ≠ item.name)
    (hname : name = item.name) :
    findItem size m name size sizeofInode 0 = (sizeofInode + total before, before.length) := by
  subst hname
  have hitems := h.stored
  have hle := h.le
  rw [total_append, total_cons] at hle
  rw [Items.append_iff] at hitems
  have hlength := length_le_total before
  rw [findItem_skip item.name_nul hitems.1 (by omega) hbefore (by omega), zero_add]
  obtain ⟨fuel, hfuel⟩ : ∃ n, size - before.length = n + 1 :=
    ⟨size - before.length - 1, by rw [sizeofInode] at hle; omega⟩
  rw [hfuel, findItem, (hitems.2.1.strcmp item.name_nul).mpr rfl, if_neg (by simp)]

theorem findItem_absent (h : Section size m items) (hname : 0 ∉ name)
    (hother : ∀ i ∈ items, i.name ≠ name) :
    findItem size m name size sizeofInode 0 = (sizeofInode + total items, items.length) := by
  have hlength := length_le_total items
  have hle := h.le
  rw [findItem_skip hname h.stored h.le hother (by omega), zero_add]
  cases hfuel : size - items.length with
  | zero => rfl
  | succ fuel => rw [findItem, h.isLast, if_neg (by simp)]

theorem findLast_skip {items : List Item} :
    ∀ {fuel p index : Nat}, Items m p items (p + total items) → p + total items ≤ size →
      IsLast size m (p + total items) = true → items.length ≤ fuel →
      findLast size m fuel p index = (p + total items, index + items.length) := by
  induction items with
  | nil =>
    intro fuel p index _ _ hlast _
    rw [total_nil, add_zero] at hlast ⊢
    cases fuel with
    | zero => rfl
    | succ fuel =>
      rw [findLast, hlast, if_neg (by simp)]
      rfl
  | cons item items ih =>
    intro fuel p index hitems hle hlast hfuel
    rw [total_cons, ← add_assoc] at hitems hle hlast ⊢
    obtain ⟨hat, hrest⟩ := hitems
    rw [length_cons] at hfuel
    obtain ⟨fuel, rfl⟩ : ∃ n, fuel = n + 1 := ⟨fuel - 1, by omega⟩
    rw [findLast, hat.isLast (by omega), if_pos (by simp), hat.Next,
      ih hrest hle hlast (by omega), length_cons]
    congr 1
    omega

/-! ## Writing an item -/

theorem putData_eq {n type : Nat} {data : List UInt8} (hn : load16 m (p + 4) = n) :
    putData m p type data =
      memset (memcpy (store16 (storeLE m p 4 type) (p + 6) data.length) (p + 11 + n) (ofList data) 0
        data.length) (p + 11 + n + data.length) 0 1 := by
  have hstored : SmallData.Data (store16 (storeLE m p 4 type) (p + 6) data.length) p = p + 11 + n := by
    rw [SmallData.Data, SmallData.name_size, load16_store16_disjoint (by omega), load16,
      loadLE_storeLE_disjoint (by omega), ← hn, load16]
    omega
  have hcopied : SmallData.Data (memcpy (store16 (storeLE m p 4 type) (p + 6) data.length)
      (p + 11 + n) (ofList data) 0 data.length) p = p + 11 + n := by
    rw [← hstored, SmallData.Data, SmallData.Data, SmallData.name_size, SmallData.name_size, load16,
      loadLE_memcpy_disjoint (by omega), load16]
  rw [putData]
  simp only [hstored, hcopied]

theorem putData_other {n type i : Nat} {data : List UInt8} (hn : load16 m (p + 4) = n)
    (hi : i < p ∨ (p + 4 ≤ i ∧ i < p + 6) ∨ (p + 8 ≤ i ∧ i < p + 11 + n) ∨
      p + 12 + n + data.length ≤ i) : putData m p type data i = m i := by
  rw [putData_eq hn, memset_outside (by omega), memcpy_outside (by omega),
    store16_outside (by omega), storeLE_outside (by omega)]

theorem ofList_get {bytes : List UInt8} {i : Nat} {c : UInt8} (h : bytes[i]? = some c) :
    ofList bytes i = c := by
  rw [ofList, getD_eq_getElem?_getD, h]
  rfl

/-- The item with its new data. -/
theorem putData_at {item : Item} (hlength : item.data.length < 2 ^ 16)
    (hsize : load16 m (p + 4) = item.name.length)
    (hname : ∀ i c, item.name[i]? = some c → m (p + 8 + i) = c)
    (hnul : m (p + 8 + item.name.length) = 0) :
    item.At (putData m p item.type item.data) p := by
  have hsame : ∀ i, (p + 4 ≤ i ∧ i < p + 6) ∨ (p + 8 ≤ i ∧ i < p + 11 + item.name.length) →
      putData m p item.type item.data i = m i := fun i hi => putData_other hsize (by omega)
  refine ⟨?_, ?_, ?_, fun i c hc => ?_, ?_, fun i c hc => ?_⟩
  · rw [putData_eq hsize, loadLE_memset_disjoint (by omega), loadLE_memcpy_disjoint (by omega),
      store16, loadLE_storeLE_disjoint (by omega), loadLE_storeLE_same]
    exact mod_eq_of_lt item.type_lt
  · rw [← hsize]
    refine load16_congr fun i hi => ?_
    exact hsame _ (by omega)
  · rw [putData_eq hsize, load16, loadLE_memset_disjoint (by omega),
      loadLE_memcpy_disjoint (by omega), ← load16, load16_store16_same _ hlength]
  · obtain ⟨hi, -⟩ := List.getElem?_eq_some_iff.mp hc
    rw [hsame _ (by omega)]
    exact hname i c hc
  · rw [hsame _ (by omega)]
    exact hnul
  · obtain ⟨hi, -⟩ := List.getElem?_eq_some_iff.mp hc
    rw [putData_eq hsize, memset_outside (by omega), memcpy_inside (by omega) (by omega),
      show 0 + (p + 8 + item.name.length + 3 + i - (p + 11 + item.name.length)) = i by omega]
    exact ofList_get hc

/-! ## The edits -/

/-- Nothing is written outside of the section. -/
def Framed (size : Nat) (m m' : Buffer) : Prop := ∀ i, i < sizeofInode ∨ size ≤ i → m' i = m i

theorem isLast_of_zero (hsize : 8 ≤ size) (hzero : ∀ i, p ≤ i → i < size → m i = 0) :
    IsLast size m p = true := by
  rw [IsLast, Bool.or_eq_true, decide_eq_true_eq, decide_eq_true_eq]
  by_cases hbehind : p > size - 8
  · exact .inl hbehind
  · refine .inr ?_
    have hload : loadLE m (p + 4) 2 = loadLE (fun _ => 0) 0 2 :=
      loadLE_congr fun i hi => hzero (p + 4 + i) (by omega) (by omega)
    rw [SmallData.name_size, load16, hload]
    rfl

theorem Items.keep (h : Items m p items (p + total items))
    (hsame : ∀ i, i < p + total items → m' i = m i) : Items m' p items (p + total items) :=
  h.congr fun k hk => hsame (p + k) (by omega)

/-- **Removing an item** from the list. -/
theorem removeItem_spec (h : Section size m (before ++ item :: after)) :
    (removeItem size m (sizeofInode + total before)).1 = .B_OK ∧
      Section size (removeItem size m (sizeofInode + total before)).2 (before ++ after) ∧
      Framed size m (removeItem size m (sizeofInode + total before)).2 := by
  have hle := h.le
  have hlast := h.isLast
  obtain ⟨hbefore, hitem, hafter⟩ := Items.append_iff.mp h.stored
  rw [total_append, total_cons] at hle hlast hafter
  generalize hp : sizeofInode + total before = p at hbefore hitem hafter
  have hplace : sizeofInode + (total before + (item.size + total after)) =
      p + item.size + total after := by omega
  rw [hplace] at hle hlast hafter
  have hitemSize : 12 ≤ item.size := by
    rw [Item.size]
    omega
  rw [removeItem]
  simp only [hitem.Next]
  cases after with
  | nil =>
    rw [total_nil, add_zero] at hle hlast
    rw [hlast, if_neg (by simp), hitem.Size, append_nil]
    have hkeep : Items (memset m p 0 item.size) sizeofInode before p :=
      hp ▸ (Items.keep (hp ▸ hbefore) fun i hi => memset_outside (by omega))
    refine ⟨rfl, ⟨by rw [hp]; exact hkeep, by omega, ?_⟩, fun i hi => memset_outside (by omega)⟩
    -- it ends where the item was
    rw [hp, IsLast, SmallData.name_size, load16, loadLE_memset_zero (by omega) (by omega)]
    simp
  | cons a rest =>
    have hnext : IsLast size m (p + item.size) = false := hafter.1.isLast (by
      rw [total_cons] at hle
      omega)
    have hlength := length_le_total (a :: rest)
    have hfind : (findLast size m size (p + item.size) 0).1 =
        p + item.size + total (a :: rest) := by
      rw [findLast_skip hafter hle hlast (by omega)]
    generalize a :: rest = after at *
    simp only [hnext, hfind]
    rw [if_pos (by simp), if_neg (by omega),
      show p + item.size + total after - (p + item.size) = total after by omega,
      show p + item.size + total after - (p + item.size - p) = p + total after by omega]
    have hmoved : ∀ i, p + total after ≤ i → i < size →
        memset (memmove m p (p + item.size) (total after)) (p + total after) 0
          (size - (p + total after)) i = 0 := fun i h1 h2 => memset_inside h1 (by omega)
    have hbytes : ∀ k, k < total after →
        memset (memmove m p (p + item.size) (total after)) (p + total after) 0
          (size - (p + total after)) (p + k) = m (p + item.size + k) := by
      intro k hk
      rw [memset_outside (by omega), memmove_inside (by omega) (by omega),
        show p + k - p = k by omega]
    have hfront : ∀ i, i < p →
        memset (memmove m p (p + item.size) (total after)) (p + total after) 0
          (size - (p + total after)) i = m i := by
      intro i hi
      rw [memset_outside (by omega), memmove_outside (by omega)]
    have hframe : ∀ i, i < sizeofInode ∨ size ≤ i →
        memset (memmove m p (p + item.size) (total after)) (p + total after) 0
          (size - (p + total after)) i = m i := by
      intro i hi
      rw [memset_outside (by omega), memmove_outside (by omega)]
    refine ⟨rfl, ⟨?_, ?_, ?_⟩, hframe⟩
    · rw [Items.append_iff, total_append, ← add_assoc]
      refine ⟨Items.keep (hp.symm ▸ hbefore) fun i hi => hfront i (by omega), ?_⟩
      rw [hp]
      exact hafter.congr hbytes
    · rw [total_append]
      omega
    · rw [total_append, ← add_assoc, hp]
      exact isLast_of_zero (by rw [sizeofInode] at hp; omega) hmoved

/-- **Replacing the data** of an item. -/
theorem replaceItem_spec {item' : Item}
    (h : Section size m (before ++ item :: after)) (hname : item'.name = item.name)
    (hlength : item'.data.length < 2 ^ 16)
    (hfits : sizeofInode + total (before ++ item' :: after) ≤ size) :
    Section size (replaceItem size m (sizeofInode + total before)
        (sizeofInode + total (before ++ item :: after)) item'.size item'.type item'.data)
        (before ++ item' :: after) ∧
      Framed size m (replaceItem size m (sizeofInode + total before)
        (sizeofInode + total (before ++ item :: after)) item'.size item'.type item'.data) := by
  have hle := h.le
  have hlast := h.isLast
  obtain ⟨hbefore, hitem, hafter⟩ := Items.append_iff.mp h.stored
  rw [total_append, total_cons] at hle hlast hafter hfits
  rw [total_append, total_cons]
  generalize hp : sizeofInode + total before = p at hbefore hitem hafter ⊢
  have hplace : sizeofInode + (total before + (item.size + total after)) =
      p + item.size + total after := by omega
  rw [hplace] at hle hlast hafter ⊢
  have hitemSize : item'.size = 12 + item.name.length + item'.data.length := by rw [Item.size, hname]
  -- the items behind are moved in any case
  have hmoved : (if IsLast size m (p + item.size) = true then m
      else memmove m (p + item'.size) (p + item.size)
        (p + item.size + total after - (p + item.size))) =
      memmove m (p + item'.size) (p + item.size) (total after) := by
    rw [show p + item.size + total after - (p + item.size) = total after by omega]
    split
    · rename_i hnext
      cases after with
      | nil => exact (memcpy_zero m m _ _).symm
      | cons a rest =>
        rw [total_cons] at hle
        rw [hafter.1.isLast (by omega)] at hnext
        cases hnext
    · rfl
  obtain ⟨ended, hended, hzero⟩ : ∃ ended, replaceItem size m p (p + item.size + total after)
      item'.size item'.type item'.data = putData ended p item'.type item'.data ∧
      ∀ i, ended i = if p + item'.size + total after ≤ i ∧ i < size then 0
        else memmove m (p + item'.size) (p + item.size) (total after) i := by
    rw [replaceItem]
    simp only [hitem.Next, hmoved]
    rw [show p + item.size + total after + (p + item'.size) - (p + item.size) =
      p + item'.size + total after by omega]
    refine ⟨_, rfl, fun i => ?_⟩
    split
    · rw [memset]
      congr 1
      rw [eq_iff_iff]
      omega
    · rw [if_neg (by omega)]
  rw [hended]
  have hkept : ∀ i, i < p + item'.size → ended i = m i := by
    intro i hi
    rw [hzero, if_neg (by omega), memmove_outside (by omega)]
  have hname_size : load16 ended (p + 4) = item'.name.length := by
    rw [hname, ← hitem.name_size]
    exact load16_congr fun i hi => hkept _ (by omega)
  have hat : item'.At (putData ended p item'.type item'.data) p := by
    refine putData_at hlength hname_size (fun i c hc => ?_) ?_
    · rw [hname] at hc
      obtain ⟨hi, -⟩ := List.getElem?_eq_some_iff.mp hc
      rw [hkept _ (by omega)]
      exact hitem.name i c hc
    · rw [hname, hkept _ (by omega)]
      exact hitem.nul
  have hother : ∀ i, i < p ∨ p + item'.size ≤ i →
      putData ended p item'.type item'.data i = ended i := by
    intro i hi
    rw [hname] at hname_size
    exact putData_other hname_size (by omega)
  refine ⟨⟨?_, ?_, ?_⟩, fun i hi => ?_⟩
  · rw [Items.append_iff, total_append, total_cons, ← add_assoc]
    refine ⟨Items.keep (hp.symm ▸ hbefore) fun i hi => ?_, ?_⟩
    · rw [hother i (by omega), hkept i (by omega)]
    · rw [hp, Items, ← add_assoc]
      refine ⟨hat, hafter.congr fun k hk => ?_⟩
      rw [hother _ (by omega), hzero, if_neg (by omega), memmove_inside (by omega) (by omega)]
      congr 1
      omega
  · rw [total_append, total_cons]
    omega
  · rw [total_append, total_cons, show sizeofInode + (total before + (item'.size + total after)) =
      p + item'.size + total after by omega]
    refine isLast_of_zero (by rw [sizeofInode] at hp; omega) fun i h1 h2 => ?_
    rw [hother i (by omega), hzero, if_pos ⟨h1, h2⟩]
  · rw [hother i (by omega), hzero, if_neg (by omega), memmove_outside (by omega)]

/-- The bytes of a new item. -/
def newItem (m : Buffer) (item : Item) (p : Nat) : Buffer :=
  let m := memset m p 0 item.size
  let m := storeLE m p 4 item.type
  let m := store16 m (p + 4) item.name.length
  let m := store16 m (p + 6) item.data.length
  let m := memcpy m (p + 8) (ofList item.name) 0 (item.name.length + 1)
  memcpy m (p + 11 + item.name.length) (ofList item.data) 0 item.data.length

theorem newItem_outside (item : Item) {i : Nat} (hi : i < p ∨ p + item.size ≤ i) :
    newItem m item p i = m i := by
  rw [Item.size] at hi
  rw [newItem, memcpy_outside (by omega), memcpy_outside (by omega), store16_outside (by omega),
    store16_outside (by omega), storeLE_outside (by omega), memset_outside (by rw [Item.size]; omega)]

theorem newItem_at {item : Item} (hname : item.name.length < 2 ^ 16)
    (hdata : item.data.length < 2 ^ 16) : item.At (newItem m item p) p := by
  refine ⟨?_, ?_, ?_, fun i c hc => ?_, ?_, fun i c hc => ?_⟩
  · rw [newItem, loadLE_memcpy_disjoint (by omega), loadLE_memcpy_disjoint (by omega), store16,
      loadLE_storeLE_disjoint (by omega), store16, loadLE_storeLE_disjoint (by omega),
      loadLE_storeLE_same]
    exact mod_eq_of_lt item.type_lt
  · rw [newItem, load16, loadLE_memcpy_disjoint (by omega), loadLE_memcpy_disjoint (by omega),
      ← load16, load16_store16_disjoint (by omega), load16_store16_same _ hname]
  · rw [newItem, load16, loadLE_memcpy_disjoint (by omega), loadLE_memcpy_disjoint (by omega),
      ← load16, load16_store16_same _ hdata]
  · obtain ⟨hi, -⟩ := List.getElem?_eq_some_iff.mp hc
    rw [newItem, memcpy_outside (by omega), memcpy_inside (by omega) (by omega),
      show 0 + (p + 8 + i - (p + 8)) = i by omega]
    exact ofList_get hc
  · rw [newItem, memcpy_outside (by omega), memcpy_inside (by omega) (by omega),
      show 0 + (p + 8 + item.name.length - (p + 8)) = item.name.length by omega, ofList]
    simp
  · obtain ⟨hi, -⟩ := List.getElem?_eq_some_iff.mp hc
    rw [newItem, memcpy_inside (by omega) (by omega),
      show 0 + (p + 8 + item.name.length + 3 + i - (p + 11 + item.name.length)) = i by omega]
    exact ofList_get hc

theorem appendItem_eq {item : Item} (hname : item.name.length < 2 ^ 16)
    (hdata : item.data.length < 2 ^ 16) :
    appendItem size m p item.size item.type item.name item.data =
      if IsLast size (newItem m item p) (p + item.size) then newItem m item p
      else memset (newItem m item p) (p + item.size) 0 (size - (p + item.size)) := by
  have hpointer : SmallData.Data (memcpy (store16 (store16 (storeLE (memset m p 0 item.size) p 4
      item.type) (p + 4) item.name.length) (p + 6) item.data.length) (p + 8) (ofList item.name) 0
      (item.name.length + 1)) p = p + 11 + item.name.length := by
    rw [SmallData.Data, SmallData.name_size, load16, loadLE_memcpy_disjoint (by omega), ← load16,
      load16_store16_disjoint (by omega), load16_store16_same _ hname]
    omega
  have hnext : SmallData.Next (newItem m item p) p = p + item.size := (newItem_at hname hdata).Next
  rw [appendItem]
  simp only [Name, hpointer]
  rw [newItem] at hnext ⊢
  rw [hnext]

/-- **Appending an item** to the list. -/
theorem appendItem_spec {items : List Item} {item : Item} (h : Section size m items)
    (hname : item.name.length < 2 ^ 16) (hdata : item.data.length < 2 ^ 16)
    (hfits : sizeofInode + total items + item.size ≤ size) :
    Section size (appendItem size m (sizeofInode + total items) item.size item.type item.name
        item.data) (items ++ [item]) ∧
      Framed size m (appendItem size m (sizeofInode + total items) item.size item.type item.name
        item.data) := by
  rw [appendItem_eq hname hdata]
  have hitems := h.stored
  generalize hp : sizeofInode + total items = p at hfits hitems ⊢
  have hat := newItem_at (m := m) (p := p) hname hdata
  have hsame : ∀ i, i < p ∨ p + item.size ≤ i → newItem m item p i = m i := fun i hi =>
    newItem_outside item hi
  generalize newItem m item p = written at hat hsame ⊢
  obtain ⟨m', hm', hkept, hlast⟩ : ∃ m', (if IsLast size written (p + item.size) = true then written
      else memset written (p + item.size) 0 (size - (p + item.size))) = m' ∧
      (∀ i, i < p + item.size ∨ size ≤ i → m' i = written i) ∧
      IsLast size m' (p + item.size) = true := by
    by_cases hlast : IsLast size written (p + item.size) = true
    · exact ⟨written, if_pos hlast, fun _ _ => rfl, hlast⟩
    · refine ⟨_, if_neg hlast, fun i hi => memset_outside (by omega), ?_⟩
      refine isLast_of_zero (by rw [sizeofInode] at hp; omega) fun i h1 h2 => ?_
      exact memset_inside h1 (by omega)
  rw [hm']
  refine ⟨⟨?_, ?_, ?_⟩, fun i hi => ?_⟩
  · rw [Items.append_iff, total_append, ← add_assoc, hp, total_cons, total_nil, add_zero]
    refine ⟨?_, hat.congr fun k hk => hkept _ (by omega), rfl⟩
    rw [← hp]
    refine Items.keep (hp.symm ▸ hitems) fun i hi => ?_
    rw [hkept i (by omega), hsame i (by omega)]
  · rw [total_append, total_cons, total_nil]
    omega
  · rw [total_append, total_cons, total_nil, ← add_assoc, hp, add_zero]
    exact hlast
  · rw [hkept i (by omega), hsame i (by omega)]

end

/-! ## The list of attributes -/

/-- The names of the attributes. -/
def names (items : List Item) : List (List UInt8) := items.map Item.name

/-- A well-formed section: no name is there twice. -/
structure WellFormed (size : Nat) (m : Buffer) (items : List Item) : Prop extends
    Section size m items where
  nodup : (names items).Nodup

/-- The list with an attribute, in the place of the one with that name, or behind all others. -/
def put (items : List Item) (item : Item) : List Item :=
  if item.name ∈ names items then items.map fun i => if i.name = item.name then item else i
  else items ++ [item]

/-- The list without an attribute. -/
def without (items : List Item) (name : List UInt8) : List Item := items.filter (·.name ≠ name)

section

variable {size : Nat} {m : Buffer} {items : List Item} {item : Item} {name : List UInt8}

theorem exists_of_name (hnodup : (names items).Nodup) (hname : name ∈ names items) :
    ∃ before old after, items = before ++ old :: after ∧ old.name = name ∧
      (∀ i ∈ before, i.name ≠ name) ∧ ∀ i ∈ after, i.name ≠ name := by
  obtain ⟨old, hold, rfl⟩ := mem_map.mp hname
  obtain ⟨before, after, rfl⟩ := append_of_mem hold
  refine ⟨before, old, after, rfl, rfl, fun i hi heq => ?_, fun i hi heq => ?_⟩
  · rw [names, map_append, nodup_append] at hnodup
    exact hnodup.2.2 i.name (mem_map_of_mem hi) old.name (by simp) heq
  · rw [names, map_append, nodup_append, map_cons, nodup_cons] at hnodup
    exact hnodup.2.1.1 (heq ▸ mem_map_of_mem hi)

theorem put_replace {before after : List Item} {old : Item} (hname : old.name = item.name)
    (hbefore : ∀ i ∈ before, i.name ≠ item.name) (hafter : ∀ i ∈ after, i.name ≠ item.name) :
    put (before ++ old :: after) item = before ++ item :: after := by
  have hmem : item.name ∈ names (before ++ old :: after) := by simp [names, hname]
  have hsame : ∀ xs : List Item, (∀ i ∈ xs, i.name ≠ item.name) →
      xs.map (fun i => if i.name = item.name then item else i) = xs := by
    intro xs hxs
    conv_rhs => rw [← map_id xs]
    exact map_congr_left fun i hi => if_neg (hxs i hi)
  rw [put, if_pos hmem, map_append, map_cons, if_pos hname, hsame before hbefore,
    hsame after hafter]

theorem without_remove {before after : List Item} {old : Item} (hname : old.name = name)
    (hbefore : ∀ i ∈ before, i.name ≠ name) (hafter : ∀ i ∈ after, i.name ≠ name) :
    without (before ++ old :: after) name = before ++ after := by
  have hsame : ∀ xs : List Item, (∀ i ∈ xs, i.name ≠ name) → xs.filter (·.name ≠ name) = xs :=
    fun xs hxs => filter_eq_self.mpr fun i hi => by simpa using hxs i hi
  rw [without, filter_append, filter_cons_of_neg (by simpa using hname),
    hsame before hbefore, hsame after hafter]

theorem without_absent (hname : name ∉ names items) : without items name = items :=
  filter_eq_self.mpr fun i hi => by
    simp only [decide_eq_true_eq]
    rintro rfl
    exact hname (mem_map_of_mem hi)

theorem names_put_nodup (hnodup : (names items).Nodup) : (names (put items item)).Nodup := by
  by_cases hname : item.name ∈ names items
  · obtain ⟨before, old, after, rfl, hold, hbefore, hafter⟩ := exists_of_name hnodup hname
    rw [put_replace hold hbefore hafter]
    rw [names, map_append, map_cons, hold] at hnodup
    rwa [names, map_append, map_cons]
  · rw [put, if_neg hname, names, map_append, nodup_append]
    refine ⟨hnodup, by simp, fun a ha b hb heq => hname ?_⟩
    rw [map_singleton, mem_singleton] at hb
    rw [← hb, ← heq]
    exact ha

/-- What stands in the section is one list. -/
theorem Items.unique {p : Nat} {xs ys : List Item} (hxs : Items m p xs (p + total xs))
    (hys : Items m p ys (p + total ys)) (hx : p + total xs ≤ size) (hy : p + total ys ≤ size)
    (hxlast : IsLast size m (p + total xs) = true) (hylast : IsLast size m (p + total ys) = true) :
    xs = ys := by
  induction xs generalizing p ys with
  | nil =>
    cases ys with
    | nil => rfl
    | cons y ys =>
      rw [total_cons] at hy
      rw [total_nil, add_zero, hys.1.isLast (by omega)] at hxlast
      cases hxlast
  | cons x xs ih =>
    cases ys with
    | nil =>
      rw [total_cons] at hx
      rw [total_nil, add_zero, hxs.1.isLast (by omega)] at hylast
      cases hylast
    | cons y ys =>
      have hsame : x = y := by
        have hnamelength : x.name.length = y.name.length := by
          rw [← hxs.1.name_size, hys.1.name_size]
        have hname : x.name = y.name := by
          refine ext_getElem? fun i => ?_
          by_cases hi : i < x.name.length
          · obtain ⟨c, hc⟩ : ∃ c, x.name[i]? = some c := ⟨_, List.getElem?_eq_getElem hi⟩
            obtain ⟨d, hd⟩ : ∃ d, y.name[i]? = some d :=
              ⟨_, List.getElem?_eq_getElem (hnamelength ▸ hi)⟩
            rw [hc, hd, ← hxs.1.name i c hc, ← hys.1.name i d hd]
          · rw [List.getElem?_eq_none (by omega), List.getElem?_eq_none (by omega)]
        have hdatalength : x.data.length = y.data.length := by
          rw [← hxs.1.data_size, hys.1.data_size]
        have hdata : x.data = y.data := by
          refine ext_getElem? fun i => ?_
          by_cases hi : i < x.data.length
          · obtain ⟨c, hc⟩ : ∃ c, x.data[i]? = some c := ⟨_, List.getElem?_eq_getElem hi⟩
            obtain ⟨d, hd⟩ : ∃ d, y.data[i]? = some d :=
              ⟨_, List.getElem?_eq_getElem (hdatalength ▸ hi)⟩
            rw [hc, hd, ← hxs.1.data i c hc, ← hys.1.data i d hd, hname]
          · rw [List.getElem?_eq_none (by omega), List.getElem?_eq_none (by omega)]
        have htype : x.type = y.type := by rw [← hxs.1.type, hys.1.type]
        cases x
        cases y
        simp only at htype hname hdata
        subst htype hname hdata
        rfl
      subst hsame
      rw [total_cons, ← add_assoc] at hxs hys hx hy hxlast hylast
      rw [ih hxs.2 hys.2 hx hy hxlast hylast]

theorem Section.unique {xs ys : List Item} (hxs : Section size m xs) (hys : Section size m ys) :
    xs = ys :=
  Items.unique hxs.stored hys.stored hxs.le hys.le hxs.isLast hys.isLast

end

/-! ## The functions -/

/-- The claim about a call of `AddSmallData()` that leaves `s'`. -/
def Adds (size : Nat) (s : Inode) (items : List Item) (item : Item) (r : Status × Inode) : Prop :=
  Framed size s.node r.2.node ∧ (r.1 = .B_OK ∧ WellFormed size r.2.node (put items item) ∨
      r.1 = .B_DEVICE_FULL ∧ WellFormed size r.2.node (without items item.name))

/-- The claim about a call of `RemoveSmallData()`. -/
def Removes (size : Nat) (s : Inode) (items : List Item) (name : List UInt8)
    (r : Status × Inode) : Prop :=
  Framed size s.node r.2.node ∧ WellFormed size r.2.node (without items name) ∧
    (r.1 = .B_OK ∧ name ∈ names items ∨ r.1 = .B_ENTRY_NOT_FOUND ∧ name ∉ names items)

section

variable {size : Nat} {io : AttributeIO} {s : Inode} {items : List Item} {item : Item}
  {name : List UInt8}

theorem Framed.refl (size : Nat) (m : Buffer) : Framed size m m := fun _ _ => rfl

variable {before after : List Item} {old : Item} {m : Buffer}

theorem removeItem_at
    (h : WellFormed size s.node (before ++ old :: after)) (index : Nat) :
    ∃ s', s.removeItem size (sizeofInode + total before) index = (.B_OK, s') ∧
      WellFormed size s'.node (before ++ after) ∧ Framed size s.node s'.node ∧
      s'.files = s.files ∧ s'.updates = s.updates ++ [(index, -1)] := by
  obtain ⟨hok, hsection, hframe⟩ := removeItem_spec h.toSection
  refine ⟨{ s with
    node := (SmallData.removeItem size s.node (sizeofInode + total before)).2
    updates := s.updates ++ [(index, -1)] }, ?_, ⟨hsection, ?_⟩, hframe, rfl, rfl⟩
  · rw [Inode.removeItem]
    simp only [hok, if_true]
  · refine h.nodup.sublist (List.Sublist.map _ ?_)
    exact List.Sublist.append_left (sublist_cons_self ..) before

theorem removeSmallData_found
    (h : WellFormed size s.node (before ++ old :: after)) (hname : old.name = name) :
    ∃ s', s.RemoveSmallData size name = (.B_OK, s') ∧ WellFormed size s'.node (before ++ after) ∧
      Framed size s.node s'.node ∧ s'.updates = s.updates ++ [(before.length, -1)] := by
  subst hname
  have hat := (Items.append_iff.mp h.stored).2.1
  have hle := h.le
  rw [total_append, total_cons] at hle
  have hnodup := h.nodup
  rw [names, map_append, nodup_append] at hnodup
  have hbefore : ∀ i ∈ before, i.name ≠ old.name := fun i hi =>
    hnodup.2.2 i.name (mem_map_of_mem hi) old.name (by simp)
  obtain ⟨s', hs', hwell, hframe, -, hupdates⟩ := removeItem_at h before.length
  rw [Inode.RemoveSmallData, findItem_found h.toSection hbefore rfl]
  simp only [hat.isLast (show _ ≤ size by omega), Bool.false_eq_true, if_false, hs']
  exact ⟨s', rfl, hwell, hframe, hupdates⟩

theorem removeSmallData_absent (h : WellFormed size s.node items) (hname : 0 ∉ name)
    (hmem : name ∉ names items) : s.RemoveSmallData size name = (.B_ENTRY_NOT_FOUND, s) := by
  have hother : ∀ i ∈ items, i.name ≠ name := fun i hi heq => hmem (heq ▸ mem_map_of_mem hi)
  rw [Inode.RemoveSmallData, findItem_absent h.toSection hname hother]
  simp only [h.isLast, if_true]

/-- **`RemoveSmallData()`** removes that attribute, if it is there. -/
theorem removeSmallData_spec (h : WellFormed size s.node items) (hname : 0 ∉ name) :
    Removes size s items name (s.RemoveSmallData size name) := by
  by_cases hmem : name ∈ names items
  · obtain ⟨before, old, after, rfl, hold, hbefore, hafter⟩ := exists_of_name h.nodup hmem
    obtain ⟨s', hs', hwell, hframe, -⟩ := removeSmallData_found h hold
    rw [hs']
    refine ⟨hframe, ?_, .inl ⟨rfl, hmem⟩⟩
    rw [without_remove hold hbefore hafter]
    exact hwell
  · rw [removeSmallData_absent h hname hmem]
    refine ⟨.refl _ _, ?_, .inr ⟨rfl, hmem⟩⟩
    rw [without_absent hmem]
    exact h

theorem findLast_found
    (h : Section size m (before ++ old :: after)) :
    (findLast size m size (sizeofInode + total before) 0).1 =
      sizeofInode + total (before ++ old :: after) := by
  have hstored := (Items.append_iff.mp h.stored).2
  have hle := h.le
  have htotal : sizeofInode + total (before ++ old :: after) =
      sizeofInode + total before + total (old :: after) := by
    rw [total_append, add_assoc]
  have hlength := length_le_total (old :: after)
  rw [htotal] at hstored hle ⊢
  rw [findLast_skip hstored hle (htotal ▸ h.isLast) (by omega)]

theorem replaced_wellFormed (h : WellFormed size m items)
    (hmem : item.name ∈ names items) (hdata : item.data.length < 2 ^ 16)
    (hfits : sizeofInode + total (put items item) ≤ size) {place : Nat}
    (hat : place = (findItem size m item.name size sizeofInode 0).1) :
    WellFormed size (replaceItem size m place (findLast size m size place 0).1 item.size item.type
        item.data) (put items item) ∧
      Framed size m (replaceItem size m place (findLast size m size place 0).1 item.size item.type
        item.data) := by
  obtain ⟨before, old, after, rfl, hold, hbefore, hafter⟩ := exists_of_name h.nodup hmem
  have hnodup : (names (put (before ++ old :: after) item)).Nodup := names_put_nodup h.nodup
  rw [put_replace hold hbefore hafter] at hnodup hfits ⊢
  rw [findItem_found h.toSection (fun i hi => hold ▸ hbefore i hi) hold.symm] at hat
  rw [hat, findLast_found h.toSection]
  obtain ⟨hsection, hframe⟩ := replaceItem_spec h.toSection hold.symm hdata hfits
  exact ⟨⟨hsection, hnodup⟩, hframe⟩

theorem appended_wellFormed (h : WellFormed size m items)
    (hmem : item.name ∉ names items) (hname : item.name.length < 2 ^ 16)
    (hdata : item.data.length < 2 ^ 16) (hfits : sizeofInode + total items + item.size ≤ size) :
    WellFormed size (appendItem size m (sizeofInode + total items) item.size item.type item.name
        item.data) (put items item) ∧
      Framed size m (appendItem size m (sizeofInode + total items) item.size item.type item.name
        item.data) := by
  have hnodup : (names (put items item)).Nodup := names_put_nodup h.nodup
  obtain ⟨hsection, hframe⟩ := appendItem_spec h.toSection hname hdata hfits
  rw [put, if_neg hmem] at hnodup ⊢
  exact ⟨⟨hsection, hnodup⟩, hframe⟩

theorem total_put (hnodup : (names items).Nodup) (hold : old ∈ items)
    (hname : old.name = item.name) :
    total (put items item) + old.data.length = total items + item.data.length := by
  have hmem : item.name ∈ names items := hname ▸ mem_map_of_mem hold
  obtain ⟨before, found, after, rfl, hfound, hbefore, hafter⟩ := exists_of_name hnodup hmem
  have hsame : old = found := by
    rcases mem_append.mp hold with hin | hin
    · exact absurd hname (hbefore old hin)
    · rcases mem_cons.mp hin with heq | hin
      · exact heq
      · exact absurd hname (hafter old hin)
  subst hsame
  have holdsize : old.size = 12 + item.name.length + old.data.length := by rw [Item.size, hname]
  have hnewsize : item.size = 12 + item.name.length + item.data.length := rfl
  rw [put_replace hfound hbefore hafter, total_append, total_append, total_cons, total_cons]
  omega

theorem found_item (h : WellFormed size m items) (hmem : name ∈ names items) {place : Nat}
    (hat : place = (findItem size m name size sizeofInode 0).1) :
    IsLast size m place = false ∧ (findLast size m size place 0).1 = sizeofInode + total items ∧
      ∃ old ∈ items, old.name = name ∧ old.At m place := by
  obtain ⟨before, old, after, rfl, hold, hbefore, hafter⟩ := exists_of_name h.nodup hmem
  have hstored := (Items.append_iff.mp h.stored).2.1
  have hle := h.le
  rw [total_append, total_cons] at hle
  rw [findItem_found h.toSection (fun i hi => hold ▸ hbefore i hi) hold.symm] at hat
  subst hat
  exact ⟨hstored.isLast (by omega), findLast_found h.toSection, old, by simp, hold, hstored⟩

theorem addSmallData_absent (h : WellFormed size s.node items) (htype : item.type ≠ 0)
    (hneeded : (8 + item.name.length + 3 + item.data.length + 1) % 2 ^ 32 = item.size)
    (hroom : item.size ≤ size - sizeofInode) (hmem : item.name ∉ names items) :
    s.AddSmallData size io item.name item.type item.data false =
      if sizeofInode + total items + item.size > size then (.B_DEVICE_FULL, s)
      else (.B_OK, { s with
        node := appendItem size s.node (sizeofInode + total items) item.size item.type item.name
          item.data
        updates := s.updates ++ [(items.length, 1)] }) := by
  have hother : ∀ i ∈ items, i.name ≠ item.name := fun i hi heq => hmem (heq ▸ mem_map_of_mem hi)
  rw [Inode.AddSmallData, if_neg htype]
  simp only [hneeded]
  rw [if_neg (by omega), findItem_absent h.toSection item.name_nul hother]
  simp only [h.isLast, not_true_eq_false, if_false, Bool.false_eq_true, not_false_eq_true, if_true]

/-- **`AddSmallData()`** of an attribute that would fit into an empty section. -/
theorem addSmallData_fits (h : WellFormed size s.node items) (hsize : size ≤ 2 ^ 16)
    (htype : item.type ≠ 0) (hroom : item.size ≤ size - sizeofInode) :
    Adds size s items item (s.AddSmallData size io item.name item.type item.data false) := by
  have hle := h.le
  have hneeded : (8 + item.name.length + 3 + item.data.length + 1) % 2 ^ 32 = item.size := by
    rw [Item.size] at hroom ⊢
    omega
  have hshort : item.name.length < 2 ^ 16 ∧ item.data.length < 2 ^ 16 := by
    rw [Item.size] at hroom
    omega
  by_cases hmem : item.name ∈ names items
  · rw [Inode.AddSmallData, if_neg htype]
    simp only [hneeded]
    rw [if_neg (by omega)]
    obtain ⟨hitem, hlast, old, hin, hold, hat⟩ := found_item h hmem rfl
    have htotal := total_put h.nodup hin hold
    simp only [hitem, Bool.false_eq_true, not_false_eq_true, if_true, false_or, false_and,
      if_false, data_size, hat.data_size]
    rw [hlast]
    by_cases hchange : old.data.length > item.data.length ∨
        ((sizeofInode + total items : Nat) : Int) + item.data.length - old.data.length ≤ size
    · rw [if_pos hchange]
      obtain ⟨hwell, hframe⟩ := replaced_wellFormed h hmem hshort.2 (by omega) rfl
      rw [hlast] at hwell hframe
      exact ⟨hframe, .inl ⟨rfl, hwell⟩⟩
    · rw [if_neg hchange]
      obtain ⟨before, old, after, rfl, hold, hbefore, hafter⟩ := exists_of_name h.nodup hmem
      obtain ⟨s', hs', hwell, hframe, -⟩ := removeItem_at h before.length
      rw [findItem_found h.toSection (fun i hi => hold ▸ hbefore i hi) hold.symm]
      simp only [hs', ne_eq, not_true_eq_false, if_false]
      refine ⟨hframe, .inr ⟨rfl, ?_⟩⟩
      rw [without_remove hold hbefore hafter]
      exact hwell
  · rw [addSmallData_absent h htype hneeded hroom hmem]
    by_cases hfull : sizeofInode + total items + item.size > size
    · rw [if_pos hfull]
      refine ⟨.refl _ _, .inr ⟨rfl, ?_⟩⟩
      rw [without_absent hmem]
      exact h
    · rw [if_neg hfull]
      obtain ⟨hwell, hframe⟩ := appended_wellFormed h hmem hshort.1 hshort.2 (by omega)
      exact ⟨hframe, .inl ⟨rfl, hwell⟩⟩

theorem addSmallData_reject (htype : item.type ≠ 0) (hmemory : item.size < 2 ^ 32)
    (hroom : ¬ item.size ≤ size - sizeofInode) :
    s.AddSmallData size io item.name item.type item.data false = (.B_DEVICE_FULL, s) := by
  have hneeded : (8 + item.name.length + 3 + item.data.length + 1) % 2 ^ 32 = item.size := by
    rw [Item.size] at hmemory ⊢
    omega
  rw [Inode.AddSmallData, if_neg htype]
  simp only [hneeded]
  rw [if_pos (by omega)]

/-- **A new attribute**: it is the last one, and the iterators are told so, or nothing happens. -/
theorem addSmallData_new (io : AttributeIO) (h : WellFormed size s.node items) (hsize : size ≤ 2 ^ 16)
    (hmem : item.name ∉ names items) (hmemory : item.size < 2 ^ 32) :
    (∃ node, s.AddSmallData size io item.name item.type item.data false =
        (.B_OK, { s with node := node, updates := s.updates ++ [(items.length, 1)] }) ∧
        WellFormed size node (items ++ [item])) ∨
      ∃ status, s.AddSmallData size io item.name item.type item.data false = (status, s) := by
  by_cases htype : item.type = 0
  · exact .inr ⟨.B_BAD_VALUE, by rw [Inode.AddSmallData, if_pos htype]⟩
  by_cases hroom : item.size ≤ size - sizeofInode
  · have hneeded : (8 + item.name.length + 3 + item.data.length + 1) % 2 ^ 32 = item.size := by
      rw [Item.size] at hmemory ⊢
      omega
    rw [addSmallData_absent h htype hneeded hroom hmem]
    by_cases hfull : sizeofInode + total items + item.size > size
    · rw [if_pos hfull]
      exact .inr ⟨.B_DEVICE_FULL, rfl⟩
    · rw [if_neg hfull]
      rw [Item.size] at hroom
      obtain ⟨hwell, -⟩ := appended_wellFormed h hmem (by omega) (by omega) (by omega)
      rw [put, if_neg hmem] at hwell
      exact .inl ⟨_, rfl, hwell⟩
  · exact .inr ⟨.B_DEVICE_FULL, addSmallData_reject htype hmemory hroom⟩

theorem adds_nothing_iff (h : WellFormed size s.node items) :
    Adds size s items item (.B_DEVICE_FULL, s) ↔ item.name ∉ names items := by
  constructor
  · intro hadds hmem
    rcases hadds.2 with hok | hfull
    · cases hok.1
    · -- the list is the old one
      have hsame := h.toSection.unique hfull.2.toSection
      rw [hsame, names, mem_map] at hmem
      obtain ⟨i, hi, heq⟩ := hmem
      have hne := (mem_filter.mp hi).2
      simp [heq] at hne
  · intro hmem
    refine ⟨.refl _ _, .inr ⟨rfl, ?_⟩⟩
    rw [without_absent hmem]
    exact h

end

/-! ## An attribute that grows over the section -/

/-- The inode of a 1024 bytes block without attributes. -/
def emptyInode : Inode := ⟨fun _ => 0, [], []⟩

theorem emptyInode_wellFormed : WellFormed 1024 emptyInode.node [] :=
  ⟨⟨rfl, by decide, isLast_of_zero (by decide) fun _ _ _ => rfl⟩, by simp [names]⟩

/-- An attribute "a" with that many bytes. -/
def attributeA (length : Nat) : Item where
  type := 1
  name := [97]
  data := List.replicate length 0
  type_lt := by decide
  name_ne := by decide
  name_nul := by decide

theorem attributeA_size (length : Nat) : (attributeA length).size = 13 + length := by
  rw [Item.size, attributeA, length_replicate]
  rfl

/-- The inode with an empty attribute "a". -/
def inodeA : Inode :=
  { emptyInode with
    node := appendItem 1024 emptyInode.node (sizeofInode + total []) (attributeA 0).size
      (attributeA 0).type (attributeA 0).name (attributeA 0).data }

theorem inodeA_wellFormed : WellFormed 1024 inodeA.node [attributeA 0] := by
  have hfits : sizeofInode + total [] + (attributeA 0).size ≤ 1024 := by decide
  obtain ⟨happend, -⟩ := appendItem_spec emptyInode_wellFormed.toSection (by decide) (by decide) hfits
  exact ⟨happend, by simp [names]⟩

/-- Attribute files can be created and written. -/
def filesWork : AttributeIO := ⟨fun _ => .B_OK, fun _ => .B_OK, fun _ => []⟩

end BFS.SmallData
