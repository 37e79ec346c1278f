import OpenBeOS.BFS.MakeSpace

/-! # Iterating over the attributes

`AttributeIterator` over the small_data section, while attributes are added and removed. The iterator
counts the items without the one with the file's name; `RemoveSmallData()` and `AddSmallData()` tell it
an index that counts all items.
-/

namespace BFS.SmallData

open Bytes List

/-! ## The iterator -/

def B_FILE_NAME_LENGTH : Nat := 256

/-- The loop of `AttributeIterator::GetNext()`: the item it stops at, and `i`. -/
def nextItem (size : Nat) (m : Buffer) (current : Int) : Nat → Nat → Nat → Nat × Nat
  | 0, item, i => (item, i)
  | fuel + 1, item, i =>
    if IsLast size m item then (item, i)
    else if name_size m item = 1 ∧ m (Name item) = FILE_NAME_NAME then
      nextItem size m current fuel (Next m item) i
    else if (i : Int) = current then (item, i + 1)
    else nextItem size m current fuel (Next m item) (i + 1)

/-- The item that is next in the small_data section, and `fCurrentSmallData`. -/
def findNext (size : Nat) (m : Buffer) (current : Int) : Option Nat × Int :=
  if current ≥ 0 then
    let found := nextItem size m current size sizeofInode 0
    if ¬ IsLast size m found.1 then (some found.1, found.2)
    -- stop traversing the small_data section
    else (none, -1)
  else (none, current)

/-- What `GetNext()` returns about an attribute. -/
structure NextAttribute where
  name : List UInt8
  type : Nat
  length : Nat
  id : Int

/-- `AttributeIterator::GetNext()`. Without an answer, it goes on in the attribute directory. -/
def GetNext (size : Nat) (m : Buffer) (current : Int) : Option NextAttribute × Int :=
  let found := findNext size m current
  (found.1.map fun item =>
    { name := (stringAt m size (Name item)).take B_FILE_NAME_LENGTH
      type := loadLE m item 4
      length := name_size m item
      id := current }, found.2)

/-- `AttributeIterator::Update()`. -/
def Update (current : Int) (update : Nat × Int) : Int :=
  -- fCurrentSmallData points already to the next item
  if ((update.1 % 2 ^ 16 : Nat) : Int) < current then current + update.2 else current

/-! ## Runs -/

/-- An inode and an iterator, with the names of the attributes it has returned. -/
structure Scan where
  inode : Inode
  current : Int
  returned : List (List UInt8)

/-- The iterator at its beginning. -/
def Scan.start (inode : Inode) : Scan := ⟨inode, 0, []⟩

inductive Operation
  | GetNext
  | RemoveSmallData (name : List UInt8)
  | AddSmallData (name : List UInt8) (type : Nat) (data : List UInt8)
  deriving DecidableEq

/-- The inode has changed, and the iterator has been told. -/
def Scan.changed (s : Scan) (inode : Inode) : Scan :=
  { s with
    inode := inode
    current := (inode.updates.drop s.inode.updates.length).foldl Update s.current }

def Scan.step (size : Nat) (io : AttributeIO) (s : Scan) : Operation → Scan
  | .GetNext =>
    let found := findNext size s.inode.node s.current
    { s with
      current := found.2
      returned := s.returned ++
        (found.1.map fun item => stringAt s.inode.node size (Name item)).toList }
  | .RemoveSmallData name => s.changed (s.inode.RemoveSmallData size name).2
  | .AddSmallData name type data => s.changed (s.inode.AddSmallData size io name type data false).2

def Scan.run (size : Nat) (io : AttributeIO) (s : Scan) (ops : List Operation) : Scan :=
  ops.foldl (Scan.step size io) s

/-- The loop of `bfs_remove_vnode()`, as far as it goes over the small_data section. -/
def Scan.removeAll (size : Nat) (io : AttributeIO) : Nat → Scan → Scan
  | 0, s => s
  | fuel + 1, s =>
    match (GetNext size s.inode.node s.current).1 with
    | none => s.step size io .GetNext
    | some next => Scan.removeAll size io fuel
        ((s.step size io .GetNext).step size io (.RemoveSmallData next.name))

/-! ## Counting attributes -/

/-- The attributes of a list, without the name. -/
def attributeCount (items : List Item) : Nat := items.countP fun i => i.name ≠ [FILE_NAME_NAME]

@[simp] theorem attributeCount_nil : attributeCount [] = 0 := rfl

@[simp] theorem attributeCount_append (xs ys : List Item) :
    attributeCount (xs ++ ys) = attributeCount xs + attributeCount ys :=
  countP_append

theorem attributeCount_cons (item : Item) (items : List Item) : attributeCount (item :: items) =
      attributeCount items + if item.name = [FILE_NAME_NAME] then 0 else 1 := by
  rw [attributeCount, countP_cons, attributeCount]
  by_cases hname : item.name = [FILE_NAME_NAME] <;> simp [hname]

/-- The attributes in front of the one with that name. -/
def rank (items : List Item) (name : List UInt8) : Nat :=
  attributeCount (items.takeWhile (·.name ≠ name))

section

variable {size : Nat} {m : Buffer} {items before after : List Item} {item : Item}
  {name : List UInt8} {p : Nat}

theorem rank_split (hbefore : ∀ i ∈ before, i.name ≠ item.name) :
    rank (before ++ item :: after) item.name = attributeCount before := by
  rw [rank, takeWhile_append_of_pos (by simpa using hbefore), takeWhile_cons_of_neg (by
    simp), append_nil]

theorem nextItem_name (h : item.At m p) :
    name_size m p = 1 ∧ m (Name p) = FILE_NAME_NAME ↔ item.name = [FILE_NAME_NAME] := by
  rw [SmallData.name_size, h.name_size]
  obtain ⟨c, rest, hlist⟩ := exists_cons_of_ne_nil item.name_ne
  have hfirst := h.name 0 c (by rw [hlist]; rfl)
  rw [Nat.add_zero] at hfirst
  rw [Name, hfirst, hlist, length_cons, List.cons.injEq]
  constructor
  · rintro ⟨hlength, hc⟩
    exact ⟨hc, length_eq_zero_iff.mp (by omega)⟩
  · rintro ⟨hc, hrest⟩
    exact ⟨by rw [hrest]; rfl, hc⟩

/-- The loop passes items until it has counted enough of them. -/
theorem nextItem_skip {current : Int} {before : List Item} :
    ∀ {fuel p i : Nat}, Items m p before (p + total before) → p + total before ≤ size →
      ((i + attributeCount before : Nat) : Int) ≤ current → before.length ≤ fuel →
      nextItem size m current fuel p i =
        nextItem size m current (fuel - before.length) (p + total before)
          (i + attributeCount before) := by
  induction before with
  | nil =>
    intro fuel p i _ _ _ _
    simp
  | cons item before ih =>
    intro fuel p i hitems hle hcount hfuel
    rw [total_cons, ← Nat.add_assoc] at hitems hle ⊢
    obtain ⟨hat, hrest⟩ := hitems
    rw [length_cons] at hfuel ⊢
    obtain ⟨fuel, rfl⟩ : ∃ n, fuel = n + 1 := ⟨fuel - 1, by omega⟩
    rw [Nat.add_sub_add_right]
    rw [nextItem, hat.isLast (show p + item.size ≤ size by omega), if_neg (by simp), hat.Next]
    rw [attributeCount_cons] at hcount ⊢
    by_cases hname : item.name = [FILE_NAME_NAME]
    · rw [if_pos hname, Nat.add_zero (attributeCount before)] at hcount ⊢
      rw [if_pos ((nextItem_name hat).mpr hname), ih hrest hle hcount (by omega)]
    · rw [if_neg hname] at hcount ⊢
      rw [if_neg (mt (nextItem_name hat).mp hname), if_neg (show ¬ (i : Int) = current by omega),
        ih hrest hle (by omega) (by omega)]
      congr 1
      omega

theorem findNext_found (h : Section size m (before ++ item :: after))
    (hname : item.name ≠ [FILE_NAME_NAME]) :
    findNext size m (attributeCount before) =
      (some (sizeofInode + total before), ((attributeCount before + 1 : Nat) : Int)) := by
  have hitems := h.stored
  have hle := h.le
  rw [total_append, total_cons] at hle
  rw [Items.append_iff] at hitems
  have hlength := length_le_total before
  have hat := hitems.2.1
  have hend : sizeofInode + total before + item.size ≤ size := by omega
  obtain ⟨fuel, hfuel⟩ : ∃ n, size - before.length = n + 1 :=
    ⟨size - before.length - 1, by rw [sizeofInode] at hle; omega⟩
  have hfound : nextItem size m (attributeCount before) size sizeofInode 0 =
      (sizeofInode + total before, attributeCount before + 1) := by
    rw [nextItem_skip hitems.1 (by omega) (by omega) (by omega), hfuel, nextItem, hat.isLast hend,
      if_neg (by simp), if_neg (mt (nextItem_name hat).mp hname), if_pos (by omega), Nat.zero_add]
  rw [findNext, if_pos (by omega)]
  simp only [hfound, hat.isLast hend, Bool.false_eq_true, not_false_eq_true, if_true]

theorem findNext_none (h : Section size m items) {current : Int}
    (hcurrent : (attributeCount items : Int) ≤ current) : findNext size m current = (none, -1) := by
  have hlength := length_le_total items
  have hle := h.le
  have hfound : nextItem size m current size sizeofInode 0 =
      (sizeofInode + total items, attributeCount items) := by
    rw [nextItem_skip h.stored h.le (by omega) (by omega), Nat.zero_add]
    cases hfuel : size - items.length with
    | zero => rfl
    | succ fuel => rw [nextItem, h.isLast, if_pos rfl]
  rw [findNext, if_pos (by omega)]
  simp only [hfound, h.isLast, not_true_eq_false, if_false]

theorem exists_attribute : ∀ {items : List Item} {n : Nat}, n < attributeCount items →
    ∃ before item after, items = before ++ item :: after ∧ item.name ≠ [FILE_NAME_NAME] ∧
      attributeCount before = n
  | [], n, h => by simp at h
  | i :: items, n, h => by
    rw [attributeCount_cons] at h
    by_cases hname : i.name = [FILE_NAME_NAME]
    · rw [if_pos hname, Nat.add_zero] at h
      obtain ⟨before, item, after, rfl, hitem, hcount⟩ := exists_attribute h
      refine ⟨i :: before, item, after, rfl, hitem, ?_⟩
      rw [attributeCount_cons, if_pos hname, hcount, Nat.add_zero]
    · rw [if_neg hname] at h
      cases n with
      | zero => exact ⟨[], i, items, rfl, hname, rfl⟩
      | succ n =>
        obtain ⟨before, item, after, rfl, hitem, hcount⟩ := exists_attribute
          (show n < attributeCount items by omega)
        refine ⟨i :: before, item, after, rfl, hitem, ?_⟩
        rw [attributeCount_cons, if_neg hname, hcount]

end

/-! ## The condition -/

/-- The operations the claim is about: attributes with new names are added. -/
def Valid (items : List Item) : Operation → Prop
  | .GetNext => True
  | .RemoveSmallData name => 0 ∉ name
  | .AddSmallData name type data =>
    name ≠ [] ∧ 0 ∉ name ∧ type < 2 ^ 32 ∧ 12 + name.length + data.length < 2 ^ 32 ∧
      name ∉ names items

/-- The index of the item and the number of attributes in front of it are on the same side of the
iterator; the name itself is behind it. -/
def Clear (items : List Item) (current : Int) : Operation → Prop
  | .GetNext => True
  | .RemoveSmallData name => ∀ before item after, items = before ++ item :: after → item.name = name →
      if name = [FILE_NAME_NAME] then current ≤ before.length
      else (before.length : Int) < current ↔ (attributeCount before : Int) < current
  | .AddSmallData .. => True

/-- A run whose steps all meet the condition. -/
def Allowed (size : Nat) (io : AttributeIO) : Scan → List Operation → Prop
  | _, [] => True
  | s, op :: ops =>
    (∀ items, WellFormed size s.inode.node items → Valid items op ∧ Clear items s.current op) ∧
      Allowed size io (s.step size io op) ops

/-- How often an attribute has been returned, if that many others are in front of it. -/
def returnedOnce (current : Int) (rank : Nat) : Nat :=
  if current < 0 ∨ (rank : Int) < current then 1 else 0

theorem returnedOnce_congr {current current' : Int} {r r' : Nat}
    (h : current < 0 ∨ (r : Int) < current ↔ current' < 0 ∨ (r' : Int) < current') :
    returnedOnce current r = returnedOnce current' r' :=
  if_congr h rfl rfl

/-- What is true of an attribute that is not removed: it has been returned once if the iterator is
behind it, and else not yet. -/
structure Tracked (size : Nat) (s : Scan) (items : List Item) (name : List UInt8) : Prop where
  wellFormed : WellFormed size s.inode.node items
  mem : name ∈ names items
  count : s.returned.count name = returnedOnce s.current (rank items name)

section

variable {size : Nat} {io : AttributeIO} {s : Scan} {items before after : List Item} {item : Item}
  {name : List UInt8}

variable {rest : List Item}

theorem rank_append_left (hmem : name ∈ names items) :
    rank (items ++ rest) name = rank items name := by
  obtain ⟨i, hi, hname⟩ := mem_map.mp hmem
  rw [rank, takeWhile_append, if_neg, rank]
  intro hall
  have hsame : items.takeWhile (·.name ≠ name) = items :=
    (List.takeWhile_prefix _).eq_of_length hall
  have hne := takeWhile_eq_self_iff.mp hsame i hi
  simp [hname] at hne

theorem rank_append_right (hmem : name ∉ names items) :
    rank (items ++ rest) name = attributeCount items + rank rest name := by
  have hother : ∀ i ∈ items, decide (i.name ≠ name) = true := by
    intro i hi
    rw [decide_eq_true_eq]
    rintro rfl
    exact hmem (mem_map_of_mem hi)
  rw [rank, takeWhile_append_of_pos hother, attributeCount_append, rank]

theorem rank_after (hbefore : name ∉ names before) (hitem : item.name ≠ name) :
    rank (before ++ item :: rest) name =
      attributeCount before + (if item.name = [FILE_NAME_NAME] then 0 else 1) + rank rest name := by
  have hsingle : name ∉ names [item] := by simpa [names] using Ne.symm hitem
  have hrest : rank ([item] ++ rest) name = attributeCount [item] + rank rest name :=
    rank_append_right hsingle
  rw [singleton_append, attributeCount_cons, attributeCount_nil] at hrest
  rw [rank_append_right hbefore, hrest]
  omega

theorem attributeCount_le (items : List Item) : attributeCount items ≤ items.length :=
  countP_le_length

theorem rank_lt (hmem : name ∈ names items) (hname : name ≠ [FILE_NAME_NAME]) :
    rank items name < attributeCount items := by
  induction items with
  | nil => simp [names] at hmem
  | cons i items ih =>
    by_cases hi : i.name = name
    · rw [rank, takeWhile_cons_of_neg (by simp [hi]), attributeCount_cons,
        if_neg (hi ▸ hname), attributeCount_nil]
      omega
    · rw [names, map_cons, mem_cons] at hmem
      have hrest := ih (hmem.resolve_left (Ne.symm hi))
      have hrank : rank ([] ++ i :: items) name =
          attributeCount [] + (if i.name = [FILE_NAME_NAME] then 0 else 1) + rank items name :=
        rank_after (by simp [names]) hi
      rw [nil_append, attributeCount_nil] at hrank
      rw [hrank, attributeCount_cons]
      omega

theorem rank_ne (hname : name ≠ [FILE_NAME_NAME]) (hitem : item.name ≠ [FILE_NAME_NAME])
    (hne : item.name ≠ name) :
    rank (before ++ item :: after) name ≠ attributeCount before := by
  by_cases hbefore : name ∈ names before
  · rw [rank_append_left hbefore]
    exact (rank_lt hbefore hname).ne
  · rw [rank_after hbefore hne, if_neg hitem]
    omega

/-- **`GetNext()`** returns the attribute the iterator is at. -/
theorem tracked_getNext (h : Tracked size s items name) (hname : name ≠ [FILE_NAME_NAME]) :
    Tracked size (s.step size io .GetNext) items name := by
  obtain ⟨hwell, hmem, hcount⟩ := h
  refine ⟨hwell, hmem, ?_⟩
  simp only [Scan.step]
  rw [count_append, hcount]
  by_cases hleft : s.current < 0
  · have hnext : findNext size s.inode.node s.current = (none, s.current) := by
      rw [findNext, if_neg (by omega)]
    rw [hnext]
    rfl
  obtain ⟨n, hn⟩ : ∃ n : Nat, s.current = n := ⟨s.current.toNat, by omega⟩
  rw [hn]
  by_cases hend : n < attributeCount items
  · obtain ⟨before, item, after, rfl, hitem, rfl⟩ := exists_attribute hend
    have hat := (Items.append_iff.mp hwell.stored).2.1
    have hle := hwell.le
    rw [total_append, total_cons] at hle
    have hstring : stringAt s.inode.node size (Name (sizeofInode + total before)) = item.name :=
      congrArg File.name (hat.file_eq (show _ ≤ size by omega))
    rw [findNext_found hwell.toSection hitem]
    simp only [Option.map_some, Option.toList_some, hstring]
    rw [count_singleton]
    by_cases hsame : item.name = name
    · subst hsame
      have hnodup := hwell.nodup
      rw [names, map_append, nodup_append] at hnodup
      have hrank : rank (before ++ item :: after) item.name = attributeCount before :=
        rank_split fun i hi => hnodup.2.2 i.name (mem_map_of_mem hi) item.name (by simp)
      rw [hrank, returnedOnce, returnedOnce, if_neg (by omega), if_pos (beq_self_eq_true _),
        if_pos (.inr (by omega))]
    · have hrank : rank (before ++ item :: after) name ≠ attributeCount before :=
        rank_ne hname hitem hsame
      rw [if_neg (by simpa using hsame), Nat.add_zero]
      exact returnedOnce_congr (by omega)
  · have hrank := rank_lt hmem hname
    rw [findNext_none hwell.toSection (by omega)]
    rw [returnedOnce, returnedOnce, if_pos (.inr (by omega)), if_pos (.inl (by decide))]
    rfl

/-- **`RemoveSmallData()`** of another attribute. -/
theorem tracked_remove {other : List UInt8} (h : Tracked size s items name)
    (hname : name ≠ [FILE_NAME_NAME]) (hsize : size ≤ 2 ^ 16) (hother : other ≠ name)
    (hvalid : Valid items (.RemoveSmallData other))
    (hclear : Clear items s.current (.RemoveSmallData other)) :
    ∃ items', Tracked size (s.step size io (.RemoveSmallData other)) items' name := by
  obtain ⟨hwell, hmem, hcount⟩ := h
  by_cases hthere : other ∈ names items
  · obtain ⟨before, item, after, rfl, hitem, -, -⟩ := exists_of_name hwell.nodup hthere
    obtain ⟨s', hremove, hwell', -, hupdates⟩ := removeSmallData_found hwell hitem
    refine ⟨before ++ after, ?_⟩
    simp only [Scan.step, hremove]
    refine ⟨hwell', ?_, ?_⟩
    · rw [names, map_append, map_cons, mem_append, mem_cons, hitem] at hmem
      rw [names, map_append, mem_append]
      exact hmem.imp_right fun hin => hin.resolve_left (Ne.symm hother)
    · have hlength := length_le_total before
      have hle := hwell.le
      have hindex : before.length % 2 ^ 16 = before.length := by
        rw [total_append] at hle
        omega
      simp only [Scan.changed, hupdates, drop_left, foldl_cons, foldl_nil, Update, hindex]
      rw [hcount]
      have hbound := attributeCount_le before
      have hside := hclear before item after rfl hitem
      by_cases hbefore : name ∈ names before
      · have hrank := rank_lt hbefore hname
        rw [rank_append_left hbefore, rank_append_left hbefore]
        refine returnedOnce_congr ?_
        split at hside <;> split <;> omega
      · rw [rank_after hbefore (hitem.trans_ne hother), rank_append_right hbefore, hitem]
        refine returnedOnce_congr ?_
        split at hside
        · rename_i heq
          rw [if_pos heq]
          split <;> omega
        · rename_i heq
          rw [if_neg heq]
          split <;> omega
  · refine ⟨items, ?_⟩
    simp only [Scan.step, removeSmallData_absent hwell hvalid hthere]
    refine ⟨hwell, hmem, ?_⟩
    simpa [Scan.changed] using hcount

/-- **`AddSmallData()`** of a new attribute. -/
theorem tracked_add {other : List UInt8} {type : Nat} {data : List UInt8}
    (h : Tracked size s items name) (hname : name ≠ [FILE_NAME_NAME]) (hsize : size ≤ 2 ^ 16)
    (hvalid : Valid items (.AddSmallData other type data)) :
    ∃ items', Tracked size (s.step size io (.AddSmallData other type data)) items' name := by
  obtain ⟨hwell, hmem, hcount⟩ := h
  obtain ⟨hne, hnul, htype, hmemory, hnew⟩ := hvalid
  obtain ⟨item, rfl, rfl, rfl⟩ : ∃ item : Item, item.name = other ∧ item.type = type ∧
      item.data = data := ⟨⟨type, other, data, htype, hne, hnul⟩, rfl, rfl, rfl⟩
  obtain ⟨node, hadd, hwell'⟩ | ⟨status, hadd⟩ := addSmallData_new io hwell hsize hnew hmemory
  · refine ⟨items ++ [item], ?_⟩
    simp only [Scan.step, hadd]
    refine ⟨hwell', ?_, ?_⟩
    · rw [names, map_append, mem_append]
      exact .inl hmem
    · have hlength := length_le_total items
      have hle := hwell.le
      have hindex : items.length % 2 ^ 16 = items.length := by omega
      have hbound := attributeCount_le items
      have hrank := rank_lt hmem hname
      simp only [Scan.changed, drop_left, foldl_cons, foldl_nil, Update, hindex]
      rw [hcount, rank_append_left hmem]
      refine returnedOnce_congr ?_
      split <;> omega
  · refine ⟨items, ?_⟩
    simp only [Scan.step, hadd]
    refine ⟨hwell, hmem, ?_⟩
    simpa [Scan.changed] using hcount

/-- **A run** that does not remove the attribute. -/
theorem tracked_run (hname : name ≠ [FILE_NAME_NAME]) (hsize : size ≤ 2 ^ 16) {ops : List Operation}
    (hkept : .RemoveSmallData name ∉ ops) (h : Tracked size s items name)
    (hallowed : Allowed size io s ops) :
    ∃ items', Tracked size (s.run size io ops) items' name := by
  induction ops generalizing s items with
  | nil => exact ⟨items, h⟩
  | cons op ops ih =>
    obtain ⟨hop, hrest⟩ := hallowed
    obtain ⟨hvalid, hclear⟩ := hop items h.wellFormed
    have hkept' : Operation.RemoveSmallData name ∉ ops := fun hmem => hkept (mem_cons_of_mem _ hmem)
    obtain ⟨items', hstep⟩ : ∃ items', Tracked size (s.step size io op) items' name := by
      cases op with
      | GetNext => exact ⟨items, tracked_getNext h hname⟩
      | RemoveSmallData other =>
        refine tracked_remove h hname hsize (fun heq => hkept ?_) hvalid hclear
        rw [heq]
        exact mem_cons_self
      | AddSmallData other type data => exact tracked_add h hname hsize hvalid
    exact ih hkept' hstep hrest

/-! ## Removing each attribute -/

/-- A round of the loop removes the attribute the iterator was at. -/
theorem removeAll_round (io : AttributeIO) (h : WellFormed size s.inode.node (before ++ item :: after))
    (hsize : size ≤ 2 ^ 16) (hitem : item.name ≠ [FILE_NAME_NAME])
    (hshort : item.name.length < B_FILE_NAME_LENGTH) (hcurrent : s.current = attributeCount before)
    (fuel : Nat) :
    ∃ s' : Scan, s.removeAll size io (fuel + 1) = s'.removeAll size io fuel ∧
      WellFormed size s'.inode.node (before ++ after) ∧
      s'.current = if before.length < attributeCount before + 1 then (attributeCount before : Int)
        else attributeCount before + 1 := by
  have hat := (Items.append_iff.mp h.stored).2.1
  have hle := h.le
  rw [total_append, total_cons] at hle
  have hlength := length_le_total before
  have hindex : before.length % 2 ^ 16 = before.length := by omega
  have hstring : stringAt s.inode.node size (Name (sizeofInode + total before)) = item.name :=
    congrArg File.name (hat.file_eq (show _ ≤ size by omega))
  have hnext := findNext_found h.toSection hitem
  obtain ⟨inode, hremove, hwell, -, hupdates⟩ := removeSmallData_found h (rfl : item.name = item.name)
  refine ⟨(s.step size io .GetNext).step size io (.RemoveSmallData item.name), ?_, ?_, ?_⟩
  · rw [Scan.removeAll, GetNext, hcurrent, hnext]
    simp only [Option.map_some, hstring, take_of_length_le hshort.le]
  · simp only [Scan.step, Scan.changed, hremove]
    exact hwell
  · simp only [Scan.step, Scan.changed, hremove, hupdates, hcurrent, hnext, drop_left,
      foldl_cons, foldl_nil, Update, hindex]
    split <;> split <;> omega

theorem removeAll_end (io : AttributeIO) (h : WellFormed size s.inode.node items)
    (hcurrent : (attributeCount items : Int) ≤ s.current) (fuel : Nat) :
    (s.removeAll size io (fuel + 1)).inode = s.inode ∧
      (s.removeAll size io (fuel + 1)).current = -1 := by
  rw [Scan.removeAll, GetNext, findNext_none h.toSection hcurrent]
  simp only [Option.map_none, Scan.step, findNext_none h.toSection hcurrent, and_self]

/-- With the name and an attribute behind it, of which the second one has been passed, that one
stays. -/
theorem removeAll_behind (hsize : size ≤ 2 ^ 16) {first : Item}
    (hname : item.name = [FILE_NAME_NAME])
    (hfirst : first.name ≠ [FILE_NAME_NAME]) : ∀ {fuel : Nat} {s : Scan} {more : List Item},
      WellFormed size s.inode.node (item :: first :: more) →
      (∀ i ∈ more, i.name.length < B_FILE_NAME_LENGTH) → 1 ≤ s.current → more.length < fuel →
      ∃ items', WellFormed size (s.removeAll size io fuel).inode.node items' ∧
        (s.removeAll size io fuel).current = -1 ∧ first ∈ items' := by
  intro fuel
  induction fuel with
  | zero =>
    intro s more _ _ _ hfuel
    omega
  | succ fuel ih =>
    intro s more h hshort hcurrent hfuel
    obtain ⟨n, hn⟩ : ∃ n : Nat, s.current = n + 1 := ⟨(s.current - 1).toNat, by omega⟩
    have hcount : ∀ xs, attributeCount (item :: first :: xs) = attributeCount xs + 1 := by
      intro xs
      rw [attributeCount_cons, if_pos hname, attributeCount_cons, if_neg hfirst, Nat.add_zero]
    by_cases hend : n < attributeCount more
    · obtain ⟨front, x, behind, rfl, hx, hfront⟩ := exists_attribute hend
      have h' : WellFormed size s.inode.node ((item :: first :: front) ++ x :: behind) := h
      obtain ⟨s', hround, hwell, hcurrent'⟩ := removeAll_round io h' hsize hx
        (hshort x (by simp)) (by rw [hcount, hn, hfront]; rfl) fuel
      rw [hround]
      have hwell' : WellFormed size s'.inode.node (item :: first :: (front ++ behind)) := hwell
      refine ih hwell' (fun i hi => hshort i ?_) ?_ ?_
      · rcases mem_append.mp hi with hin | hin
        · exact mem_append_left _ hin
        · exact mem_append_right _ (mem_cons_of_mem _ hin)
      · rw [hcurrent', hcount]
        split <;> omega
      · rw [length_append, length_cons] at hfuel
        rw [length_append]
        omega
    · obtain ⟨hinode, hleft⟩ := removeAll_end io h (by rw [hcount]; omega) fuel
      exact ⟨_, hinode ▸ h, hleft, by simp⟩

/-- At most one attribute stands behind the name. -/
def FewBehind (items : List Item) : Prop :=
  ∀ before item after, items = before ++ item :: after → item.name = [FILE_NAME_NAME] →
    after.length ≤ 1

theorem fewBehind_cons (hitem : item.name ≠ [FILE_NAME_NAME]) :
    FewBehind (item :: items) ↔ FewBehind items := by
  constructor
  · intro h before x after heq hx
    exact h (item :: before) x after (by rw [heq]; rfl) hx
  · intro h before x after heq hx
    cases before with
    | nil =>
      rw [nil_append, List.cons.injEq] at heq
      exact absurd (heq.1 ▸ hx) hitem
    | cons y before =>
      rw [cons_append, List.cons.injEq] at heq
      exact h before x after heq.2 hx

theorem fewBehind_name (hitem : item.name = [FILE_NAME_NAME])
    (hitems : ∀ i ∈ items, i.name ≠ [FILE_NAME_NAME]) :
    FewBehind (item :: items) ↔ items.length ≤ 1 := by
  constructor
  · exact fun h => h [] item items rfl hitem
  · intro h before x after heq hx
    cases before with
    | nil =>
      rw [nil_append, List.cons.injEq] at heq
      exact heq.2 ▸ h
    | cons y before =>
      rw [cons_append, List.cons.injEq] at heq
      exact absurd hx (hitems x (by rw [heq.2]; simp))

theorem attributeCount_pos (hmem : item ∈ items) (hitem : item.name ≠ [FILE_NAME_NAME]) :
    attributeCount items ≠ 0 := by
  have hpos : 0 < attributeCount items := countP_pos_iff.mpr ⟨item, hmem, by simpa using hitem⟩
  exact hpos.ne'

/-- **The loop of `bfs_remove_vnode()`** removes all attributes exactly if at most one of them stands
behind the name. -/
theorem removeAll_front (io : AttributeIO) (hsize : size ≤ 2 ^ 16) {fuel : Nat}
    (h : WellFormed size s.inode.node items)
    (hshort : ∀ i ∈ items, i.name.length < B_FILE_NAME_LENGTH) (hcurrent : s.current = 0)
    (hfuel : items.length < fuel) :
    ∃ items', WellFormed size (s.removeAll size io fuel).inode.node items' ∧
      (s.removeAll size io fuel).current = -1 ∧ (attributeCount items' = 0 ↔ FewBehind items) := by
  induction items generalizing s fuel with
  | nil =>
    obtain ⟨fuel, rfl⟩ : ∃ n, fuel = n + 1 := ⟨fuel - 1, by omega⟩
    obtain ⟨hinode, hleft⟩ := removeAll_end io h (by simp [hcurrent]) fuel
    refine ⟨[], hinode ▸ h, hleft, iff_of_true rfl fun before x after heq => ?_⟩
    simp at heq
  | cons item items ih =>
    obtain ⟨fuel, rfl⟩ : ∃ n, fuel = n + 1 := ⟨fuel - 1, by omega⟩
    rw [length_cons] at hfuel
    by_cases hname : item.name = [FILE_NAME_NAME]
    · have hnodup := h.nodup
      rw [names, map_cons, nodup_cons, hname] at hnodup
      have hothers : ∀ i ∈ items, i.name ≠ [FILE_NAME_NAME] := fun i hi heq =>
        hnodup.1 (heq ▸ mem_map_of_mem hi)
      have hsingle : attributeCount [item] = 0 := by
        rw [attributeCount_cons, if_pos hname, attributeCount_nil]
      rw [fewBehind_name hname hothers]
      cases items with
      | nil =>
        obtain ⟨hinode, hleft⟩ := removeAll_end io h (by rw [hsingle, hcurrent]; rfl) fuel
        exact ⟨[item], hinode ▸ h, hleft, iff_of_true hsingle (by simp)⟩
      | cons first more =>
        -- the name is in front, so that the iterator does not go back
        obtain ⟨fuel, rfl⟩ : ∃ n, fuel = n + 1 := ⟨fuel - 1, by omega⟩
        rw [length_cons] at hfuel ⊢
        have h' : WellFormed size s.inode.node ([item] ++ first :: more) := h
        obtain ⟨s', hround, hwell, hcurrent'⟩ := removeAll_round io h' hsize
          (hothers first (by simp)) (hshort first (by simp)) (by rw [hsingle, hcurrent]; rfl)
          (fuel + 1)
        rw [hsingle, length_singleton, if_neg (by omega)] at hcurrent'
        rw [hround]
        cases more with
        | nil =>
          obtain ⟨hinode, hleft⟩ := removeAll_end io hwell (by
            rw [append_nil, hsingle, hcurrent']
            decide) fuel
          exact ⟨[item], hinode ▸ hwell, hleft, iff_of_true hsingle (by simp)⟩
        | cons second more =>
          have hsecond := hothers second (by simp)
          have hwell'' : WellFormed size s'.inode.node (item :: second :: more) := hwell
          rw [length_cons] at hfuel
          obtain ⟨items', hwell', hleft, hmem⟩ := removeAll_behind hsize hname hsecond hwell''
            (fun i hi => hshort i (by simp [hi])) (by rw [hcurrent']; decide)
            (show more.length < fuel + 1 by omega)
          exact ⟨items', hwell', hleft, iff_of_false (attributeCount_pos hmem hsecond) (by simp)⟩
    · have h' : WellFormed size s.inode.node ([] ++ item :: items) := h
      obtain ⟨s', hround, hwell, hcurrent'⟩ := removeAll_round io h' hsize hname
        (hshort item (by simp)) (by simpa using hcurrent) fuel
      rw [hround, fewBehind_cons hname]
      exact ih hwell (fun i hi => hshort i (mem_cons_of_mem _ hi)) (by simpa using hcurrent')
        (by omega)

theorem tracked_start {inode : Inode} (h : WellFormed size inode.node items)
    (hmem : name ∈ names items) :
    Tracked size (Scan.start inode) items name := by
  refine ⟨h, hmem, ?_⟩
  rw [returnedOnce, if_neg (by simp [Scan.start])]
  rfl

end

section

variable {size : Nat} {inode : Inode} {items : List Item}

/-- **Every attribute is returned exactly once** in a run whose steps meet the condition, and the loop
of `bfs_remove_vnode()` removes all attributes exactly if at most one stands behind the name. -/
theorem attributeIterator_spec (io : AttributeIO) (h : WellFormed size inode.node items)
    (hsize : size ≤ 2 ^ 16) :
    (∀ ops, Allowed size io (Scan.start inode) ops → ∀ name ∈ names items,
      name ≠ [FILE_NAME_NAME] → .RemoveSmallData name ∉ ops →
      ((Scan.start inode).run size io ops).returned.count name ≤ 1 ∧
        (((Scan.start inode).run size io ops).current < 0 →
          ((Scan.start inode).run size io ops).returned.count name = 1)) ∧
    ((∀ i ∈ items, i.name.length < B_FILE_NAME_LENGTH) → ∀ fuel, items.length < fuel →
      ((Scan.start inode).removeAll size io fuel).current = -1 ∧
        ((∃ items', WellFormed size ((Scan.start inode).removeAll size io fuel).inode.node items' ∧
          attributeCount items' = 0) ↔ FewBehind items)) := by
  constructor
  · intro ops hallowed name hmem hname hkept
    obtain ⟨items', htracked⟩ := tracked_run hname hsize hkept (tracked_start h hmem) hallowed
    rw [htracked.count, returnedOnce]
    refine ⟨?_, fun hleft => if_pos (.inl hleft)⟩
    split <;> omega
  · intro hshort fuel hfuel
    have h' : WellFormed size (Scan.start inode).inode.node items := h
    obtain ⟨items', hwell, hleft, hcount⟩ := removeAll_front io hsize h' hshort rfl hfuel
    refine ⟨hleft, ?_, fun hfew => ⟨items', hwell, hcount.mpr hfew⟩⟩
    rintro ⟨others, hothers, hnone⟩
    rw [hothers.toSection.unique hwell.toSection] at hnone
    exact hcount.mp hnone

end

/-! ## The name in front of two attributes -/

theorem a_ne_zero : (97 : UInt8) ≠ 0 := by decide

theorem b_ne_zero : (98 : UInt8) ≠ 0 := by decide

/-- The attribute "a" alone. -/
def oneItem : List Item := [shortItem 97 a_ne_zero 0]

theorem oneItem_sound : Sound 1024 (inodeOf oneItem) oneItem :=
  inodeOf_sound (by decide) (by decide)

/-- It is returned once by two calls of `GetNext()`, and removed by the loop. -/
theorem attributeIterator_spec_one :
    ((Scan.start (inodeOf oneItem)).run 1024 filesWork [.GetNext, .GetNext]).returned.count [97] ≤ 1 ∧
      ∃ items', WellFormed 1024
        ((Scan.start (inodeOf oneItem)).removeAll 1024 filesWork 2).inode.node items' ∧
        attributeCount items' = 0 := by
  obtain ⟨hruns, hloop⟩ := attributeIterator_spec filesWork oneItem_sound.toWellFormed
    (by decide)
  constructor
  · exact (hruns [.GetNext, .GetNext] ⟨fun _ _ => ⟨trivial, trivial⟩, fun _ _ => ⟨trivial, trivial⟩,
      trivial⟩ [97] (by decide) (by decide) (by decide)).1
  · refine (hloop (by decide) 2 (by decide)).2.mpr ((fewBehind_cons (by decide)).mpr ?_)
    intro before item after heq
    simp at heq

/-- The name and the attributes "a" and "b". -/
def threeItems : List Item :=
  [nameItem [120], shortItem 97 a_ne_zero 0, shortItem 98 b_ne_zero 0]

theorem threeItems_sound : Sound 1024 (inodeOf threeItems) threeItems :=
  inodeOf_sound (by decide) (by decide)

/-- The loop ends and leaves an attribute. -/
theorem removeAll_leaves :
    ((Scan.start (inodeOf threeItems)).removeAll 1024 filesWork 4).current = -1 ∧
      ∃ items', WellFormed 1024
        ((Scan.start (inodeOf threeItems)).removeAll 1024 filesWork 4).inode.node items' ∧
        attributeCount items' ≠ 0 := by
  have h : WellFormed 1024 (Scan.start (inodeOf threeItems)).inode.node threeItems :=
    threeItems_sound.toWellFormed
  obtain ⟨items', hwell, hleft, hcount⟩ := removeAll_front filesWork (by decide) h (by decide) rfl
    (show threeItems.length < 4 by decide)
  refine ⟨hleft, items', hwell, fun hnone => ?_⟩
  have hfew := hcount.mp hnone
  rw [threeItems, fewBehind_name rfl (by decide)] at hfew
  simp at hfew

end BFS.SmallData
