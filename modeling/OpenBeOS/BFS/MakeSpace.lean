import OpenBeOS.BFS.SmallDataEdit

/-! # Making room for a name

`SetName()` forces the name into the small_data section, and `MakeSpaceForSmallData()` moves
attributes to files for it. What matters about an attribute is what `ReadAttribute()` reads.
-/

namespace BFS.SmallData

open Bytes List

/-! ## Reading -/

/-- The bytes from a position on. -/
def readData (data : List UInt8) (pos length : Nat) : Status × List UInt8 :=
  if pos ≥ data.length then (.B_OK, [])
  else
    let length := if pos + length > data.length then data.length - pos else length
    (.B_OK, (data.drop pos).take length)

/-- `Inode::ReadAttribute()`. -/
def Inode.ReadAttribute (size : Nat) (s : Inode) (name : List UInt8) (pos : Int) (length : Nat) :
    Status × List UInt8 :=
  let pos := if pos < 0 then 0 else pos.toNat
  -- search in the small_data section
  let item := (findItem size s.node name size sizeofInode 0).1
  if ¬ IsLast size s.node item then
    if pos ≥ data_size s.node item then (.B_OK, [])
    else
      let length := if length + pos > data_size s.node item then data_size s.node item - pos
        else length
      (.B_OK, bytesAt s.node (Data s.node item + pos) length)
  else
    -- search in the attribute directory
    match s.files.find? (·.name = name) with
    | none => (.B_ENTRY_NOT_FOUND, [])
    | some file => readData file.data pos length

/-- The data of an attribute, wherever it is. -/
def lookup (items : List Item) (files : List File) (name : List UInt8) : Option (List UInt8) :=
  ((items.find? (·.name = name)).map Item.data).or ((files.find? (·.name = name)).map File.data)

section

variable {size : Nat} {m : Buffer} {s : Inode} {items : List Item} {files : List File} {item : Item}
  {name other : List UInt8} {p : Nat}

theorem Item.At.bytesAt_eq (h : item.At m p) {pos length : Nat}
    (hle : pos + length ≤ item.data.length) :
    bytesAt m (SmallData.Data m p + pos) length = (item.data.drop pos).take length := by
  refine ext_getElem? fun i => ?_
  rw [bytesAt, List.getElem?_map, List.getElem?_take, List.getElem?_drop, h.Data]
  by_cases hi : i < length
  · have hdata : item.data[pos + i]? = some (item.data.getD (pos + i) 0) := by
      rw [getD_eq_getElem?_getD, List.getElem?_eq_getElem (by omega)]
      rfl
    rw [List.getElem?_range hi, if_pos hi, Option.map_some, hdata, ← h.data _ _ hdata]
    congr 2
    omega
  · rw [List.getElem?_eq_none (by simpa using hi), if_neg hi, Option.map_none]

theorem find_of_mem (hnodup : (names items).Nodup) (hitem : item ∈ items) :
    items.find? (·.name = item.name) = some item := by
  obtain ⟨before, after, rfl⟩ := append_of_mem hitem
  rw [List.find?_eq_some_iff_append]
  refine ⟨by simp, before, after, rfl, fun i hi => ?_⟩
  rw [names, map_append, nodup_append] at hnodup
  have hne := hnodup.2.2 i.name (mem_map_of_mem hi) item.name (by simp)
  simpa using hne

theorem find_eq_none (hname : name ∉ names items) : items.find? (·.name = name) = none := by
  rw [List.find?_eq_none]
  intro i hi
  simp only [decide_eq_true_eq]
  rintro rfl
  exact hname (mem_map_of_mem hi)

/-- **`ReadAttribute()`** reads the data of the attribute. -/
theorem readAttribute_eq (h : WellFormed size s.node items) (hname : 0 ∉ name) (pos : Int)
    (length : Nat) : s.ReadAttribute size name pos length =
      match lookup items s.files name with
      | none => (.B_ENTRY_NOT_FOUND, [])
      | some data => readData data (if pos < 0 then 0 else pos.toNat) length := by
  rw [Inode.ReadAttribute, lookup]
  generalize (if pos < 0 then 0 else pos.toNat) = pos
  by_cases hmem : name ∈ names items
  · obtain ⟨hitem, -, old, hold, rfl, hat⟩ := found_item h hmem rfl
    rw [find_of_mem h.nodup hold]
    simp only [hitem, Bool.false_eq_true, not_false_eq_true, if_true, data_size, hat.data_size,
      Option.map_some, Option.some_or, readData]
    by_cases hend : pos ≥ old.data.length
    · rw [if_pos hend, if_pos hend]
    · rw [if_neg hend, if_neg hend, Nat.add_comm length pos, hat.bytesAt_eq]
      split <;> omega
  · have hother : ∀ i ∈ items, i.name ≠ name := fun i hi heq => hmem (heq ▸ mem_map_of_mem hi)
    rw [findItem_absent h.toSection hname hother, find_eq_none hmem]
    simp only [h.isLast, not_true_eq_false, if_false, Option.map_none, Option.none_or]
    cases s.files.find? (·.name = name) <;> rfl

/-! ## Lists with one attribute changed -/

theorem find_put (hne : item.name ≠ other) :
    (put items item).find? (·.name = other) = items.find? (·.name = other) := by
  rw [put]
  split
  · rw [List.find?_map]
    have hsame : ((fun i : Item => decide (i.name = other)) ∘
        fun i => if i.name = item.name then item else i) = fun i => decide (i.name = other) := by
      funext i
      simp only [Function.comp_apply]
      split
      · rename_i heq
        rw [heq]
      · rfl
    rw [hsame]
    cases hfind : items.find? (·.name = other) with
    | none => rfl
    | some i =>
      have hname : i.name = other := by simpa using List.find?_some hfind
      rw [Option.map_some, if_neg (by rw [hname]; exact Ne.symm hne)]
  · rw [List.find?_append, List.find?_singleton, if_neg (by simpa using hne), Option.or_none]

theorem find_without {before after : List Item} (hne : item.name ≠ other) :
    (before ++ after).find? (·.name = other) =
      (before ++ item :: after).find? (·.name = other) := by
  rw [List.find?_append, List.find?_append, List.find?_cons_of_neg (by simpa using hne)]

theorem find_files (file : File) (hne : file.name ≠ other) (hnone : name ≠ other) :
    (file :: files.filter (·.name ≠ name)).find? (·.name = other) =
      files.find? (·.name = other) := by
  rw [List.find?_cons_of_neg (by simpa using hne), List.find?_filter]
  congr 1
  funext f
  by_cases hf : f.name = other
  · simp [hf, Ne.symm hnone]
  · simp [hf]

theorem mem_put : item ∈ put items item := by
  rw [put]
  split
  · rename_i hmem
    obtain ⟨old, hold, hname⟩ := mem_map.mp hmem
    exact mem_map.mpr ⟨old, hold, if_pos hname⟩
  · simp

end

/-! ## The victim -/

/-- The items that are not moved for the item of that name. -/
def Kept (name : List UInt8) (item : Item) : Prop :=
  item.name.head? = some FILE_NAME_NAME ∨ item.name = name

instance (name : List UInt8) (item : Item) : Decidable (Kept name item) :=
  inferInstanceAs (Decidable (_ ∨ _))

section

variable {size : Nat} {m : Buffer} {s : Inode} {items : List Item} {item : Item}
  {name : List UInt8} {p : Nat} {bytes : Int}

theorem kept_iff (h : item.At m p) (hname : 0 ∉ name) :
    m (Name p) = FILE_NAME_NAME ∨ strcmpEq m (Name p) name = true ↔ Kept name item := by
  rw [h.strcmp hname, Kept]
  refine or_congr_left ?_
  obtain ⟨c, rest, hlist⟩ := exists_cons_of_ne_nil item.name_ne
  have hfirst := h.name 0 c (by rw [hlist]; rfl)
  rw [Nat.add_zero] at hfirst
  rw [Name, hfirst, hlist, List.head?_cons, Option.some.injEq]

/-- Over items that stay or are too small, the search goes on. -/
theorem victim_skip (hname : 0 ∉ name) {before : List Item} :
    ∀ (max : Option (Nat × Nat)) {fuel p index : Nat}, Items m p before (p + total before) →
      p + total before ≤ size → (∀ i ∈ before, Kept name i ∨ i.size ≤ bytes) →
      (∀ x ∈ max, SmallData.Size m x.1 ≤ bytes) → before.length ≤ fuel →
      ∃ max' : Option (Nat × Nat), (∀ x ∈ max', SmallData.Size m x.1 ≤ bytes) ∧
        victim size m name bytes fuel p index max =
          victim size m name bytes (fuel - before.length) (p + total before)
            (index + before.length) max' := by
  induction before with
  | nil =>
    intro max fuel p index _ _ _ hmax _
    exact ⟨max, hmax, by simp⟩
  | cons item before ih =>
    intro max fuel p index hitems hle hsmall hmax hfuel
    rw [total_cons, ← Nat.add_assoc] at hitems hle ⊢
    obtain ⟨hat, hrest⟩ := hitems
    rw [length_cons] at hfuel ⊢
    obtain ⟨fuel, rfl⟩ : ∃ n, fuel = n + 1 := ⟨fuel - 1, by omega⟩
    have hnext : ∀ max', (∀ x ∈ max', SmallData.Size m x.1 ≤ bytes) →
        victim size m name bytes (fuel + 1) p index max =
          victim size m name bytes fuel (p + item.size) (index + 1) max' →
        ∃ max'' : Option (Nat × Nat), (∀ x ∈ max'', SmallData.Size m x.1 ≤ bytes) ∧
          victim size m name bytes (fuel + 1) p index max =
            victim size m name bytes (fuel + 1 - (before.length + 1))
              (p + item.size + total before) (index + (before.length + 1)) max'' := by
      intro max' hmax' heq
      obtain ⟨max'', hmax'', hrun⟩ := ih max' hrest hle
        (fun i hi => hsmall i (mem_cons_of_mem _ hi)) hmax'
        (show before.length ≤ fuel by omega)
      refine ⟨max'', hmax'', heq.trans (hrun.trans ?_)⟩
      congr 1
      · omega
      · omega
    rw [victim, hat.isLast (show p + item.size ≤ size by omega), if_neg (by simp), hat.Next]
      at hnext ⊢
    by_cases hkept : Kept name item
    · rw [if_pos ((kept_iff hat hname).mpr hkept)] at hnext ⊢
      exact hnext max hmax rfl
    · have hsize := (hsmall item (by simp)).resolve_left hkept
      rw [if_neg (mt (kept_iff hat hname).mp hkept)] at hnext ⊢
      simp only [hat.Size] at hnext ⊢
      rw [if_neg (show ¬ bytes < (item.size : Int) by omega)] at hnext ⊢
      refine hnext _ (fun x hx => ?_) rfl
      split at hx
      · rw [Option.mem_def, Option.some.injEq] at hx
        rw [← hx, hat.Size]
        exact hsize
      · exact hmax x hx

/-- The first item that is large enough is moved. -/
theorem victim_found (hname : 0 ∉ name) {before after : List Item}
    (h : Section size m (before ++ item :: after))
    (hbefore : ∀ i ∈ before, Kept name i ∨ i.size ≤ bytes) (hkept : ¬ Kept name item)
    (hlarge : bytes < item.size) :
    victim size m name bytes size sizeofInode 0 none =
      (sizeofInode + total before, some (sizeofInode + total before, before.length)) := by
  have hitems := h.stored
  have hle := h.le
  rw [total_append, total_cons] at hle
  rw [Items.append_iff] at hitems
  have hlength := length_le_total before
  obtain ⟨max, hmax, hrun⟩ := victim_skip hname none hitems.1 (show _ ≤ size by omega)
    hbefore (by simp) (show before.length ≤ size by omega)
  obtain ⟨fuel, hfuel⟩ : ∃ n, size - before.length = n + 1 :=
    ⟨size - before.length - 1, by rw [sizeofInode] at hle; omega⟩
  have hat := hitems.2.1
  rw [hrun, hfuel, victim, hat.isLast (show _ ≤ size by omega), if_neg (by simp),
    if_neg (mt (kept_iff hat hname).mp hkept)]
  have hall : (max.all fun x => SmallData.Size m x.1 < item.size) = true := by
    rw [Option.all_eq_true]
    intro x hx
    have hx' := hmax x hx
    rw [decide_eq_true_eq]
    omega
  simp only [hat.Size, hall, if_true]
  rw [if_pos hlarge, Nat.zero_add]

theorem victim_none (hname : 0 ∉ name) (h : Section size m items)
    (hsmall : ∀ i ∈ items, Kept name i ∨ i.size ≤ bytes) :
    (victim size m name bytes size sizeofInode 0 none).1 = sizeofInode + total items := by
  have hlength := length_le_total items
  have hle := h.le
  obtain ⟨max, -, hrun⟩ := victim_skip hname none h.stored h.le hsmall (by simp)
    (show items.length ≤ size by omega)
  rw [hrun]
  cases hfuel : size - items.length with
  | zero => rfl
  | succ fuel => rw [victim, h.isLast, if_pos rfl]

end

/-! ## Moving -/

/-- An inode whose attribute files have other names than its small_data items. -/
structure Sound (size : Nat) (s : Inode) (items : List Item) : Prop extends
    WellFormed size s.node items where
  files_nodup : (s.files.map File.name).Nodup
  not_items : ∀ file ∈ s.files, file.name ∉ names items
  not_name : ∀ file ∈ s.files, file.name ≠ [FILE_NAME_NAME]

/-- The attribute file of an item. -/
def Item.file (item : Item) : File := ⟨item.name, item.type, item.data⟩

section

variable {size : Nat} {io : AttributeIO} {s : Inode} {items : List Item} {item : Item}
  {name : List UInt8} {bytes : Int} {m : Buffer} {p : Nat}

theorem stringAt_eq : ∀ (stored : List UInt8) {fuel p : Nat}, 0 ∉ stored →
    (∀ i c, stored[i]? = some c → m (p + i) = c) → m (p + stored.length) = 0 →
    stored.length < fuel → stringAt m fuel p = stored
  | [], fuel + 1, p, _, _, hnul, _ => by
    rw [length_nil, Nat.add_zero] at hnul
    rw [stringAt, if_pos hnul]
  | c :: stored, fuel + 1, p, hstored, hbytes, hnul, hfuel => by
    have hfirst := hbytes 0 c rfl
    rw [Nat.add_zero] at hfirst
    rw [stringAt, hfirst, if_neg fun h => hstored (by simp [h]), stringAt_eq stored
      (fun h => hstored (mem_cons_of_mem _ h))
      (fun i d hd => by rw [Nat.add_assoc, Nat.add_comm 1]; exact hbytes (i + 1) d hd)
      (by rw [← hnul, length_cons, Nat.add_assoc, Nat.add_comm 1])
      (by rw [length_cons] at hfuel; omega)]

theorem Item.At.file_eq (h : item.At m p) (hfuel : p + item.size ≤ size) :
    ({ name := stringAt m size (Name p)
       type := loadLE m p 4
       data := bytesAt m (SmallData.Data m p) (SmallData.data_size m p) } : File) = item.file := by
  have hread : bytesAt m (SmallData.Data m p) item.data.length = item.data := by
    rw [← Nat.add_zero (SmallData.Data m p), h.bytesAt_eq (by omega), drop_zero, take_length]
  rw [Item.size] at hfuel
  rw [SmallData.data_size, h.data_size, hread, h.type, Item.file, Name,
    stringAt_eq item.name item.name_nul h.name h.nul (by omega)]

theorem makeSpace_none (io : AttributeIO) (h : WellFormed size s.node items) (hname : 0 ∉ name)
    (hbytes : 0 < bytes) (hsmall : ∀ i ∈ items, Kept name i ∨ i.size ≤ bytes) (fuel : Nat) :
    s.MakeSpaceForSmallData size io name (fuel + 1) bytes = (.B_ERROR, s) := by
  rw [Inode.MakeSpaceForSmallData, if_pos hbytes]
  simp only [victim_none hname h.toSection hsmall, h.isLast, true_or, if_true]

theorem makeSpace_done (hbytes : bytes ≤ 0) (fuel : Nat) :
    s.MakeSpaceForSmallData size io name fuel bytes = (.B_OK, s) := by
  cases fuel with
  | zero => rfl
  | succ fuel => rw [Inode.MakeSpaceForSmallData, if_neg (by omega)]

variable {before after : List Item} {files : List File}

/-- **A round that finds an item** moves it into a file, and there is no other round. -/
theorem makeSpace_found
    (h : WellFormed size s.node (before ++ item :: after)) (hname : 0 ∉ name) (hbytes : 0 < bytes)
    (hbefore : ∀ i ∈ before, Kept name i ∨ i.size ≤ bytes)
    (hkept : ¬ Kept name item) (hlarge : bytes < item.size) (fuel : Nat) :
    s.MakeSpaceForSmallData size io name (fuel + 1) bytes =
      if io.create item.name ≠ .B_OK then (io.create item.name, s)
      else if (s.writeFile io item.file).1 ≠ .B_OK then
        ((s.writeFile io item.file).1, { (s.writeFile io item.file).2 with
          files := (s.writeFile io item.file).2.files.filter (·.name ≠ name) })
      else (.B_OK, ((s.writeFile io item.file).2.removeItem size (sizeofInode + total before)
        before.length).2) := by
  have hat := (Items.append_iff.mp h.stored).2.1
  have hle := h.le
  rw [total_append, total_cons] at hle
  have hend : sizeofInode + total before + item.size ≤ size := by omega
  have hfile := hat.file_eq hend
  have hstring : stringAt s.node size (Name (sizeofInode + total before)) = item.name :=
    congrArg File.name hfile
  rw [Inode.MakeSpaceForSmallData, if_pos hbytes]
  simp only [victim_found hname h.toSection hbefore hkept hlarge, hat.isLast hend, hat.Size, hfile]
  rw [if_neg (by simp; omega), makeSpace_done (by omega), hstring]

/-! ## What is read after moving -/

theorem lookup_eq_item (hnodup : (names items).Nodup) (hitem : item ∈ items) :
    lookup items files item.name = some item.data := by
  rw [lookup, find_of_mem hnodup hitem]
  rfl

theorem lookup_eq_file {other : List UInt8} (hother : other ∉ names items) :
    lookup items files other = (files.find? (·.name = other)).map File.data := by
  rw [lookup, find_eq_none hother]
  rfl

theorem writeFile_eq (h : Sound size s items) (hitem : item ∈ items) : s.writeFile io item.file =
      if io.write item.name ≠ .B_OK then (io.write item.name, { s with files :=
        { item.file with data := io.partly item.name } :: s.files.filter (·.name ≠ item.name) })
      else (.B_OK, { s with files := item.file :: s.files.filter (·.name ≠ item.name) }) := by
  have hnone : s.files.find? (·.name = item.file.name) = none := by
    rw [List.find?_eq_none]
    intro file hfile
    simp only [decide_eq_true_eq]
    rintro heq
    exact h.not_items file hfile (heq ▸ mem_map_of_mem hitem)
  rw [Inode.writeFile, hnone]
  simp only [Option.getD_none, drop_nil, append_nil]
  rfl

theorem lookup_partly (hnodup : (names items).Nodup) (hitem : item ∈ items)
    (file : File) (hfile : file.name = item.name) (other : List UInt8) :
    lookup items (file :: files.filter (·.name ≠ item.name)) other = lookup items files other := by
  by_cases hother : other ∈ names items
  · obtain ⟨i, hi, rfl⟩ := mem_map.mp hother
    rw [lookup_eq_item hnodup hi, lookup_eq_item hnodup hi]
  · have hne : item.name ≠ other := fun heq => hother (heq ▸ mem_map_of_mem hitem)
    rw [lookup_eq_file hother, lookup_eq_file hother, find_files file (hfile ▸ hne) hne]

theorem lookup_moved
    (hnodup : (names (before ++ item :: after)).Nodup) (other : List UInt8) :
    lookup (before ++ after) (item.file :: files.filter (·.name ≠ item.name)) other =
      lookup (before ++ item :: after) files other := by
  by_cases hne : item.name = other
  · subst hne
    have hgone : item.name ∉ names (before ++ after) := by
      rw [names, map_append, map_cons] at hnodup
      rw [names, map_append]
      exact (nodup_middle.mp hnodup |> nodup_cons.mp).1
    rw [lookup_eq_item hnodup (by simp), lookup_eq_file hgone, List.find?_cons_of_pos (by
      simp [Item.file])]
    rfl
  · rw [lookup, lookup, find_without hne, find_files item.file hne hne]

theorem filter_name (h : Sound size s items) (hkept : ¬ Kept [FILE_NAME_NAME] item) (file : File)
    (hfile : file.name = item.name) :
    (file :: s.files.filter (·.name ≠ item.name)).filter (·.name ≠ [FILE_NAME_NAME]) =
      file :: s.files.filter (·.name ≠ item.name) := by
  rw [filter_eq_self]
  intro f hf
  rw [decide_eq_true_eq]
  rcases mem_cons.mp hf with rfl | hf
  · rw [hfile]
    exact fun heq => hkept (.inr heq)
  · exact h.not_name f (mem_of_mem_filter hf)

/-- The inode after an item has been moved. -/
theorem sound_moved (h : Sound size s (before ++ item :: after))
    (hkept : ¬ Kept [FILE_NAME_NAME] item) {s' : Inode}
    (hwell : WellFormed size s'.node (before ++ after))
    (hfiles : s'.files = item.file :: s.files.filter (·.name ≠ item.name)) :
    Sound size s' (before ++ after) := by
  have hnodup := h.nodup
  rw [names, map_append, map_cons, nodup_middle, nodup_cons, ← map_append] at hnodup
  refine ⟨hwell, ?_, fun file hfile => ?_, fun file hfile => ?_⟩
  · rw [hfiles, map_cons, nodup_cons]
    refine ⟨fun hmem => ?_, h.files_nodup.sublist (filter_sublist.map File.name)⟩
    obtain ⟨file, hfile, heq⟩ := mem_map.mp hmem
    have hne := (mem_filter.mp hfile).2
    rw [decide_eq_true_eq] at hne
    exact hne heq
  · rw [hfiles] at hfile
    rcases mem_cons.mp hfile with rfl | hfile
    · exact hnodup.1
    · intro hmem
      refine h.not_items file (mem_of_mem_filter hfile) ?_
      rw [names, map_append] at hmem ⊢
      rw [map_cons, mem_append, mem_cons]
      exact (mem_append.mp hmem).imp_right .inr
  · rw [hfiles] at hfile
    rcases mem_cons.mp hfile with rfl | hfile
    · exact fun heq => hkept (.inr heq)
    · exact h.not_name file (mem_of_mem_filter hfile)

/-- **Moving an item**: either it is in its file, or that file could not be created. -/
theorem makeSpace_cases (io : AttributeIO) (h : Sound size s items) (hbytes : 0 < bytes)
    (hlarge : ∃ i ∈ items, ¬ Kept [FILE_NAME_NAME] i ∧ bytes < i.size) (fuel : Nat) :
    (∃ before item after s', items = before ++ item :: after ∧ ¬ Kept [FILE_NAME_NAME] item ∧
        bytes < item.size ∧ Sound size s' (before ++ after) ∧
        (∀ other, lookup (before ++ after) s'.files other = lookup items s.files other) ∧
        s.MakeSpaceForSmallData size io [FILE_NAME_NAME] (fuel + 1) bytes = (.B_OK, s')) ∨
      (∃ item ∈ items, io.create item.name ≠ .B_OK ∨ io.write item.name ≠ .B_OK) ∧
        ∃ status s', status ≠ .B_OK ∧ s'.node = s.node ∧
          (∀ other, lookup items s'.files other = lookup items s.files other) ∧
          s.MakeSpaceForSmallData size io [FILE_NAME_NAME] (fuel + 1) bytes = (status, s') := by
  -- the first one is chosen
  obtain ⟨item, hfind⟩ : ∃ item, items.find?
      (fun i => decide (¬ Kept [FILE_NAME_NAME] i ∧ bytes < i.size)) = some item := by
    rw [← Option.isSome_iff_exists, List.find?_isSome]
    obtain ⟨i, hi, hprop⟩ := hlarge
    exact ⟨i, hi, by simpa using hprop⟩
  obtain ⟨hprop, before, after, rfl, hbefore⟩ := List.find?_eq_some_iff_append.mp hfind
  obtain ⟨hkept, hlarger⟩ : ¬ Kept [FILE_NAME_NAME] item ∧ bytes < item.size := by simpa using hprop
  have hsmall : ∀ i ∈ before, Kept [FILE_NAME_NAME] i ∨ (i.size : Int) ≤ bytes := by
    intro i hi
    have hnot := hbefore i hi
    simp only [Bool.not_eq_true', decide_eq_false_iff_not, not_and, not_lt] at hnot
    by_cases hk : Kept [FILE_NAME_NAME] i
    · exact .inl hk
    · exact .inr (hnot hk)
  have hitem : item ∈ before ++ item :: after := by simp
  have hwritten : s.writeFile io item.file = _ := writeFile_eq h hitem
  rw [makeSpace_found h.toWellFormed (by decide) hbytes hsmall hkept hlarger]
  by_cases hcreate : io.create item.name = .B_OK
  · rw [if_neg (by simpa using hcreate)]
    by_cases hwrite : io.write item.name = .B_OK
    · rw [if_neg (by simpa using hwrite)] at hwritten
      rw [hwritten]
      obtain ⟨s', hs', hwell, -, hfiles, -⟩ := removeItem_at (s := { s with
        files := item.file :: s.files.filter (·.name ≠ item.name) }) h.toWellFormed before.length
      refine .inl ⟨before, item, after, s', rfl, hkept, hlarger, sound_moved h hkept hwell hfiles,
        fun other => ?_, ?_⟩
      · rw [hfiles]
        exact lookup_moved h.nodup other
      · rw [if_neg (by simp), hs']
    · rw [if_pos (by simpa using hwrite)] at hwritten
      rw [hwritten, if_pos (by simpa using hwrite)]
      refine .inr ⟨⟨item, hitem, .inr hwrite⟩, io.write item.name, _, hwrite, ?_, fun other => ?_,
        rfl⟩
      · rfl
      · simp only
        rw [filter_name h hkept _ rfl]
        exact lookup_partly h.nodup hitem _ rfl other
  · rw [if_pos (by simpa using hcreate)]
    exact .inr ⟨⟨item, hitem, .inl hcreate⟩, io.create item.name, s, hcreate, rfl, fun _ => rfl,
      rfl⟩

end

/-! ## Setting the name -/

/-- The item with the file's name. -/
def nameItem (name : List UInt8) : Item where
  type := FILE_NAME_TYPE
  name := [FILE_NAME_NAME]
  data := name
  type_lt := by decide
  name_ne := by decide
  name_nul := by decide

/-- The bytes `AddSmallData()` wants to have for the name, if there is not enough room. -/
def needed (size : Nat) (items : List Item) (name : List UInt8) : Int :=
  match items.find? (·.name = [FILE_NAME_NAME]) with
  | some old => (name.length : Int) - old.data.length - (size - (sizeofInode + total items : Nat))
  | none =>
    if sizeofInode + total items + (nameItem name).size > size then (nameItem name).size else 0

theorem nameItem_size (name : List UInt8) : (nameItem name).size = 13 + name.length := by
  rw [Item.size, nameItem, length_singleton]

theorem needed_some {size : Nat} {items : List Item} {name : List UInt8} {old : Item}
    (hnodup : (names items).Nodup) (hin : old ∈ items) (hold : old.name = [FILE_NAME_NAME]) :
    needed size items name =
      (name.length : Int) - old.data.length - (size - (sizeofInode + total items : Nat)) := by
  have hfind := find_of_mem hnodup hin
  rw [hold] at hfind
  rw [needed, hfind]

theorem needed_none {size : Nat} {items : List Item} {name : List UInt8}
    (habsent : [FILE_NAME_NAME] ∉ names items) : needed size items name =
      if sizeofInode + total items + (nameItem name).size > size then ((nameItem name).size : Int)
      else 0 := by
  rw [needed, find_eq_none habsent]

/-- The attribute reads the same as before. -/
def Reads (size : Nat) (s s' : Inode) (other : List UInt8) : Prop :=
  ∀ pos length, s'.ReadAttribute size other pos length = s.ReadAttribute size other pos length

/-- The claim about `SetName()`. An error is one of the attribute files if the same call succeeds
when they can be created. -/
structure SetsName (size : Nat) (io : AttributeIO) (s : Inode) (name : List UInt8) : Prop where
  named : (s.SetName size io name).1 = .B_OK →
    (∃ items, Sound size (s.SetName size io name).2 items ∧ nameItem name ∈ items) ∧
      ∀ other, 0 ∉ other → other ≠ [FILE_NAME_NAME] → Reads size s (s.SetName size io name).2 other
  failed : (s.SetName size io name).1 ≠ .B_OK →
    (size < sizeofInode + (nameItem name).size ∨ (s.SetName size filesWork name).1 = .B_OK) ∧
      ∀ other, 0 ∉ other → Reads size s (s.SetName size io name).2 other

section

variable {size : Nat} {io : AttributeIO} {s s' : Inode} {items items' : List Item}
  {name other : List UInt8}

theorem reads_of_lookup (h : WellFormed size s.node items) (h' : WellFormed size s'.node items')
    (hother : 0 ∉ other) (hsame : lookup items' s'.files other = lookup items s.files other) :
    Reads size s s' other := by
  intro pos length
  rw [readAttribute_eq h hother, readAttribute_eq h' hother, hsame]

variable {item : Item}

theorem lookup_put {files : List File} (hne : item.name ≠ other) :
    lookup (put items item) files other = lookup items files other := by
  rw [lookup, lookup, find_put hne]

theorem names_put (hin : item.name ∈ names items) : names (put items item) = names items := by
  rw [put, if_pos hin, names, names, map_map]
  refine map_congr_left fun i _ => ?_
  simp only [Function.comp_apply]
  split
  · rename_i heq
    exact heq.symm
  · rfl

theorem sound_put {node : Buffer} {updates : List (Nat × Int)} (h : Sound size s items)
    (hwell : WellFormed size node (put items (nameItem name))) :
    Sound size { s with node := node, updates := updates } (put items (nameItem name)) := by
  refine ⟨hwell, h.files_nodup, fun file hfile hmem => ?_, h.not_name⟩
  by_cases hin : (nameItem name).name ∈ names items
  · rw [names_put hin] at hmem
    exact h.not_items file hfile hmem
  · rw [put, if_neg hin, names, map_append, mem_append] at hmem
    rcases hmem with hmem | hmem
    · exact h.not_items file hfile hmem
    · exact h.not_name file hfile (mem_singleton.mp hmem)

theorem nameItem_space (hlength : name.length ≤ 255) :
    (8 + [FILE_NAME_NAME].length + 3 + name.length + 1) % 2 ^ 32 = (nameItem name).size := by
  rw [nameItem_size, length_singleton]
  omega

/-- With enough room, the name is written. -/
theorem setName_room (io : AttributeIO) (h : WellFormed size s.node items) (hne : name ≠ [])
    (hlength : name.length ≤ 255) (hfits : sizeofInode + (nameItem name).size ≤ size)
    (hneeded : needed size items name ≤ 0) :
    ∃ node updates, s.SetName size io name = (.B_OK, { s with node := node, updates := updates }) ∧
      WellFormed size node (put items (nameItem name)) := by
  have hle := h.le
  have hdata : (nameItem name).data.length < 2 ^ 16 := show name.length < 2 ^ 16 by omega
  rw [Inode.SetName, if_neg hne, Inode.AddSmallData, if_neg (by decide)]
  simp only [nameItem_space hlength]
  rw [if_neg (by omega)]
  by_cases hmem : [FILE_NAME_NAME] ∈ names items
  · obtain ⟨hitem, hlast, old, hin, hold, hat⟩ := found_item h hmem rfl
    have htotal : total (put items (nameItem name)) + old.data.length = total items + name.length :=
      total_put h.nodup hin hold
    rw [needed_some h.nodup hin hold] at hneeded
    simp only [hitem, hlast, Bool.false_eq_true, not_false_eq_true, if_true, true_or, or_true,
      true_and, SmallData.data_size, hat.data_size]
    rw [if_neg (by omega), ← hlast]
    obtain ⟨hwell, -⟩ := replaced_wellFormed h (show (nameItem name).name ∈ names items from hmem)
      hdata (by omega) rfl
    exact ⟨_, _, rfl, hwell⟩
  · have hother : ∀ i ∈ items, i.name ≠ [FILE_NAME_NAME] := fun i hi heq =>
      hmem (heq ▸ mem_map_of_mem hi)
    rw [needed_none hmem] at hneeded
    rw [findItem_absent h.toSection (by decide) hother]
    simp only [h.isLast, not_true_eq_false, if_false]
    have hroom : ¬ sizeofInode + total items + (nameItem name).size > size := by
      intro hfull
      rw [if_pos hfull, nameItem_size] at hneeded
      omega
    rw [if_neg hroom]
    obtain ⟨hwell, -⟩ := appended_wellFormed h hmem
      (show [FILE_NAME_NAME].length < 2 ^ 16 by decide) hdata (by omega)
    exact ⟨_, _, rfl, hwell⟩

/-- Without enough room, it is made, and then the name is written. -/
theorem setName_make (h : WellFormed size s.node items) (hne : name ≠ [])
    (hlength : name.length ≤ 255) (hfits : sizeofInode + (nameItem name).size ≤ size)
    (hneeded : 0 < needed size items name) {status : Status}
    (hmade : s.MakeSpaceForSmallData size io [FILE_NAME_NAME] size (needed size items name) =
      (status, s')) :
    (status ≠ .B_OK → s.SetName size io name = (.B_ERROR, s')) ∧
      (status = .B_OK → ∀ items', WellFormed size s'.node items' →
        ([FILE_NAME_NAME] ∈ names items' ↔ [FILE_NAME_NAME] ∈ names items) →
        sizeofInode + total (put items' (nameItem name)) ≤ size →
        ∃ node updates, s.SetName size io name =
            (.B_OK, { s' with node := node, updates := updates }) ∧
          WellFormed size node (put items' (nameItem name))) := by
  have hle := h.le
  have hdata : (nameItem name).data.length < 2 ^ 16 := show name.length < 2 ^ 16 by omega
  rw [Inode.SetName, if_neg hne, Inode.AddSmallData, if_neg (by decide)]
  simp only [nameItem_space hlength]
  rw [if_neg (by omega)]
  by_cases hmem : [FILE_NAME_NAME] ∈ names items
  · obtain ⟨hitem, hlast, old, hin, hold, hat⟩ := found_item h hmem rfl
    rw [needed_some h.nodup hin hold] at hneeded hmade
    simp only [hitem, hlast, Bool.false_eq_true, not_false_eq_true, if_true, true_or, or_true,
      true_and, SmallData.data_size, hat.data_size, hmade]
    rw [if_pos (by omega)]
    refine ⟨fun hstatus => by rw [if_pos hstatus], fun hstatus items' hwell' hnames hroom => ?_⟩
    rw [if_neg (by simpa using hstatus)]
    obtain ⟨hwell, -⟩ := replaced_wellFormed hwell' (show (nameItem name).name ∈ names items' from
      hnames.mpr hmem) hdata hroom rfl
    exact ⟨_, _, rfl, hwell⟩
  · have hother : ∀ i ∈ items, i.name ≠ [FILE_NAME_NAME] := fun i hi heq =>
      hmem (heq ▸ mem_map_of_mem hi)
    rw [needed_none hmem] at hneeded hmade
    have hfull : sizeofInode + total items + (nameItem name).size > size := by
      by_contra hroom
      rw [if_neg hroom] at hneeded
      omega
    rw [if_pos hfull] at hmade
    rw [findItem_absent h.toSection (by decide) hother]
    simp only [h.isLast, not_true_eq_false, if_false, hmade]
    rw [if_pos hfull]
    refine ⟨fun hstatus => by rw [if_pos hstatus], fun hstatus items' hwell' hnames hroom => ?_⟩
    rw [if_neg (by simpa using hstatus)]
    have habsent : (nameItem name).name ∉ names items' := fun hin => hmem (hnames.mp hin)
    have hlength' := length_le_total items'
    have hle' := hwell'.le
    rw [put, if_neg habsent, total_append, total_cons, total_nil] at hroom
    obtain ⟨hwell, -⟩ := appended_wellFormed hwell' habsent
      (show [FILE_NAME_NAME].length < 2 ^ 16 by decide) hdata (by omega)
    rw [findLast_skip hwell'.stored hle' hwell'.isLast (by omega)]
    exact ⟨_, _, rfl, hwell⟩

theorem kept_name_iff : Kept [FILE_NAME_NAME] item ↔ item.name.head? = some FILE_NAME_NAME := by
  refine or_iff_left_of_imp fun heq => ?_
  rw [heq, List.head?_cons]

theorem name_mem_iff {before after : List Item}
    (hkept : ¬ Kept [FILE_NAME_NAME] item) :
    [FILE_NAME_NAME] ∈ names (before ++ after) ↔
      [FILE_NAME_NAME] ∈ names (before ++ item :: after) := by
  have hne : [FILE_NAME_NAME] ≠ item.name := fun heq => hkept (.inr heq.symm)
  simp only [names, map_append, map_cons, mem_append, mem_cons, hne, false_or]

/-- There is room for the name without the item that was moved. -/
theorem total_moved {before after : List Item}
    (h : WellFormed size s.node (before ++ item :: after)) (hkept : ¬ Kept [FILE_NAME_NAME] item)
    (hlarge : needed size (before ++ item :: after) name < item.size)
    (hpositive : 0 < needed size (before ++ item :: after) name)
    (hwell : WellFormed size s'.node (before ++ after)) :
    sizeofInode + total (put (before ++ after) (nameItem name)) ≤ size := by
  have hle := h.le
  have htotal : total (before ++ item :: after) = total (before ++ after) + item.size := by
    rw [total_append, total_append, total_cons]
    omega
  by_cases hmem : [FILE_NAME_NAME] ∈ names (before ++ after)
  · obtain ⟨old, hin, hold⟩ := mem_map.mp hmem
    have hin' : old ∈ before ++ item :: after := by
      rw [mem_append, mem_cons]
      exact (mem_append.mp hin).imp_right .inr
    have hput : total (put (before ++ after) (nameItem name)) + old.data.length =
      total (before ++ after) + name.length := total_put hwell.nodup hin hold
    rw [needed_some h.nodup hin' hold] at hlarge
    omega
  · rw [needed_none (mt (name_mem_iff hkept).mpr hmem)] at hlarge hpositive
    have hfull : sizeofInode + total (before ++ item :: after) + (nameItem name).size > size := by
      by_contra hroom
      rw [if_neg hroom] at hpositive
      omega
    rw [if_pos hfull] at hlarge
    rw [put, if_neg (show (nameItem name).name ∉ _ from hmem), total_append (before ++ after),
      total_cons, total_nil]
    omega

/-- **With an item to be moved**, the name is set, or the file could not be created. -/
theorem setName_large (io : AttributeIO) (h : Sound size s items) (hne : name ≠ [])
    (hlength : name.length ≤ 255) (hfits : sizeofInode + (nameItem name).size ≤ size)
    (hneeded : 0 < needed size items name)
    (hlarge : ∃ i ∈ items, ¬ Kept [FILE_NAME_NAME] i ∧ needed size items name < i.size) :
    (∃ s' items', s.SetName size io name = (.B_OK, s') ∧ Sound size s' items' ∧
        nameItem name ∈ items' ∧
        ∀ other, 0 ∉ other → other ≠ [FILE_NAME_NAME] → Reads size s s' other) ∨
      (∃ item ∈ items, io.create item.name ≠ .B_OK ∨ io.write item.name ≠ .B_OK) ∧
        ∃ s', s.SetName size io name = (.B_ERROR, s') ∧
          ∀ other, 0 ∉ other → Reads size s s' other := by
  obtain ⟨fuel, hfuel⟩ : ∃ n, size = n + 1 := ⟨size - 1, by rw [sizeofInode] at hfits; omega⟩
  have hcases := makeSpace_cases io h hneeded hlarge fuel
  rw [← hfuel] at hcases
  obtain ⟨before, item, after, s', rfl, hkept, hlarger, hsound, hsame, hmade⟩ |
    ⟨hfailing, status, s', hstatus, hnode, hsame, hmade⟩ := hcases
  · have hroom := total_moved h.toWellFormed hkept hlarger hneeded hsound.toWellFormed
    obtain ⟨node, updates, hset, hwell⟩ := (setName_make h.toWellFormed hne hlength hfits hneeded
      hmade).2 rfl _ hsound.toWellFormed (name_mem_iff hkept) hroom
    refine .inl ⟨_, _, hset, sound_put hsound hwell, mem_put, fun other hother hdiffers => ?_⟩
    refine reads_of_lookup h.toWellFormed hwell hother ?_
    rw [lookup_put (fun heq => hdiffers heq.symm)]
    exact hsame other
  · refine .inr ⟨hfailing, s', (setName_make h.toWellFormed hne hlength hfits hneeded
      hmade).1 hstatus, fun other hother => ?_⟩
    exact reads_of_lookup h.toWellFormed (hnode ▸ h.toWellFormed) hother (hsame other)

theorem setName_small (io : AttributeIO) (h : WellFormed size s.node items) (hne : name ≠ [])
    (hlength : name.length ≤ 255) (hfits : sizeofInode + (nameItem name).size ≤ size)
    (hneeded : 0 < needed size items name)
    (hsmall : ∀ i ∈ items, Kept [FILE_NAME_NAME] i ∨ (i.size : Int) ≤ needed size items name) :
    s.SetName size io name = (.B_ERROR, s) := by
  obtain ⟨fuel, hfuel⟩ : ∃ n, size = n + 1 := ⟨size - 1, by rw [sizeofInode] at hfits; omega⟩
  have hmade := makeSpace_none io h (by decide) hneeded hsmall fuel
  rw [← hfuel] at hmade
  exact (setName_make h hne hlength hfits hneeded hmade).1 (by decide)

end

/-! ## Four attributes of 194 bytes -/

/-- The block with more items behind those that are there. -/
def storeAll (size : Nat) : Buffer → List Item → List Item → Buffer
  | m, _, [] => m
  | m, stored, item :: items =>
    storeAll size (appendItem size m (sizeofInode + total stored) item.size item.type item.name
      item.data) (stored ++ [item]) items

theorem storeAll_section {size : Nat} {m : Buffer} {stored items : List Item}
    (h : Section size m stored) (hsize : size ≤ 2 ^ 16)
    (hfits : sizeofInode + total (stored ++ items) ≤ size) :
    Section size (storeAll size m stored items) (stored ++ items) := by
  induction items generalizing m stored with
  | nil =>
    rw [append_nil]
    exact h
  | cons item items ih =>
    have hsplit : stored ++ item :: items = stored ++ [item] ++ items := by simp
    rw [hsplit] at hfits ⊢
    have hfits' := hfits
    rw [total_append, total_append, total_cons, total_nil, Item.size] at hfits'
    have happend : Section size (appendItem size m (sizeofInode + total stored) item.size
        item.type item.name item.data) (stored ++ [item]) :=
      (appendItem_spec h (by omega) (by omega) (by rw [Item.size]; omega)).1
    exact ih happend hfits

theorem type_one_lt : 1 < 2 ^ 32 := by decide

/-- An attribute with a name of one character, and that many bytes. -/
def shortItem (c : UInt8) (hc : c ≠ 0) (length : Nat) : Item where
  type := 1
  name := [c]
  data := List.replicate length 0
  type_lt := type_one_lt
  name_ne := by simp
  name_nul := by simpa using Ne.symm hc

/-- The name "x" and four attributes. -/
def fourItems : List Item :=
  [nameItem [120], shortItem 97 (by decide) 181, shortItem 98 (by decide) 181,
    shortItem 99 (by decide) 181, shortItem 100 (by decide) 181]

/-- The inode of a 1024 bytes block with these attributes. -/
def inodeOf (items : List Item) : Inode :=
  { emptyInode with node := storeAll 1024 emptyInode.node [] items }

theorem inodeOf_sound {items : List Item} (hnodup : (names items).Nodup)
    (hfits : sizeofInode + total items ≤ 1024) : Sound 1024 (inodeOf items) items := by
  have hstored : Section 1024 (storeAll 1024 emptyInode.node [] items) ([] ++ items) :=
    storeAll_section emptyInode_wellFormed.toSection (by decide) hfits
  have hnone : ∀ file ∈ (inodeOf items).files, False := fun _ hfile => by cases hfile
  exact ⟨⟨hstored, hnodup⟩, nodup_nil, fun file hf => (hnone file hf).elim,
    fun file hf => (hnone file hf).elim⟩

theorem noItems_sound : Sound 1024 (inodeOf []) [] := inodeOf_sound nodup_nil (by decide)

theorem fourItems_sound : Sound 1024 (inodeOf fourItems) fourItems :=
  inodeOf_sound (by decide) (by decide +kernel)

end BFS.SmallData
