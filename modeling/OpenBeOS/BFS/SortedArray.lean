import OpenBeOS.BFS.Definitions

/-! # Sorted arrays

The `sorted_array` of `Utility.cpp`, with `int32` indices. The difference of two block numbers that are
not negative is an `off_t`. `none` is an access outside of the array; the one value behind the last
that `Remove()` moves along does not get into the array.
-/

namespace BFS

open List

/-- A block number: an `off_t` that is not negative. -/
abbrev BlockNumber : Type := Fin (2 ^ 63)

/-- The values are ascending, and are in memory with the count in front of them: an address has 32
bits. -/
structure sorted_array where
  values : List BlockNumber
  ascending : values.Pairwise (· ≤ ·)
  fits : 8 * (values.length + 1) ≤ 2 ^ 32

/-- `values[index]` -/
def valueOf (values : List BlockNumber) (index : Int) : Option BlockNumber :=
  if 0 ≤ index then values[index.toNat]? else none

/-- The loop of `FindInternal()`: whether it was found, and the last index. -/
def findLoop (values : List BlockNumber) (value : BlockNumber) :
    Nat → Int → Int → Int → Option (Bool × Int)
  | 0, _, _, _ => none
  | fuel + 1, min, max, index =>
    if min ≤ max then
      let index := wrapInt32 (min + max) / 2
      (valueOf values index).bind fun found =>
        let cmp : Int := (found.val : Int) - value.val
        if cmp < 0 then findLoop values value fuel (index + 1) max index
        else if cmp > 0 then findLoop values value fuel min (index - 1) index
        else some (true, index)
    else some (false, index)

/-- `FindInternal()`; `index` is what the variable of the caller has before. -/
def sorted_array.FindInternal (values : List BlockNumber) (value : BlockNumber) (index : Int) :
    Option (Bool × Int) :=
  findLoop values value (values.length + 1) 0 (wrapInt32 values.length - 1) index

namespace sorted_array

section

variable (a : sorted_array) (value : BlockNumber) (garbage : Int)

def Find : Option Int :=
  (FindInternal a.values value garbage).map fun r => if r.1 then r.2 else -1

/-- The index at which `Insert()` inserts. -/
def insertIndex : Option Int :=
  if a.values.length > 8 then
    (FindInternal a.values value garbage).bind fun r =>
      if r.1 then some r.2
      else (valueOf a.values r.2).map fun v => if v ≤ value then r.2 + 1 else r.2
  else some (a.values.findIdx fun v => v > value : Nat)

/-- The values after `Insert()`. -/
def Insert : Option (List BlockNumber) :=
  (a.insertIndex value garbage).map fun i =>
    a.values.take i.toNat ++ value :: a.values.drop i.toNat

/-- Whether the value was there, and the values after `Remove()`. -/
def Remove :
    Option (Bool × List BlockNumber) :=
  (a.Find value garbage).map fun index =>
    if index = -1 then (false, a.values)
    else (true, a.values.take index.toNat ++ a.values.drop (index.toNat + 1))

end

end sorted_array

/-! ## The search -/

variable {values : List BlockNumber} {value : BlockNumber}

/-- All values in front of `p` are smaller, and all from it on greater. -/
def SplitsAt (values : List BlockNumber) (value : BlockNumber) (low high : Nat) : Prop :=
  ∀ (j : Nat) (v : BlockNumber), values[j]? = some v → (j < low → v < value) ∧ (high ≤ j → value < v)

/-- The last index is next to the place where the search ends. -/
def Probed (count low high : Nat) (index : Int) : Prop :=
  (low = 0 ∧ high = count) ∨ (0 ≤ index ∧ index < count ∧ (index + 1 = low ∨ index = high))

theorem findLoop_spec (hsorted : values.Pairwise (· ≤ ·)) (hfits : values.length < 2 ^ 30)
    {fuel low high : Nat} {index : Int} (hlow : low ≤ high) (hhigh : high ≤ values.length)
    (hfuel : high - low < fuel) (hsplit : SplitsAt values value low high)
    (hprobed : Probed values.length low high index) :
    (∃ i : Nat, findLoop values value fuel low ((high : Int) - 1) index = some (true, (i : Int)) ∧
        values[i]? = some value) ∨
      ∃ (p : Nat) (i : Int), findLoop values value fuel low ((high : Int) - 1) index =
        some (false, i) ∧ SplitsAt values value p p ∧ Probed values.length p p i := by
  induction fuel generalizing low high index with
  | zero => omega
  | succ fuel ih =>
    unfold findLoop
    by_cases hlt : low < high
    · rw [if_pos (by omega)]
      -- the index is in the middle
      obtain ⟨m, hm⟩ : ∃ m : Nat, m = (low + high - 1) / 2 := ⟨_, rfl⟩
      have hmid : wrapInt32 ((low : Int) + ((high : Int) - 1)) / 2 = m := by
        rw [wrapInt32_of_lt (by omega) (by omega)]
        omega
      have hbound : low ≤ m ∧ m < high := by omega
      have hget : values[m]? = some values[m] := getElem?_eq_getElem (by omega)
      dsimp only
      rw [hmid, valueOf, if_pos (by omega), Int.toNat_natCast, hget, Option.bind_some]
      have horder : ∀ (j : Nat) (v : BlockNumber), values[j]? = some v →
          (j ≤ m → v ≤ values[m]) ∧ (m ≤ j → values[m] ≤ v) := by
        intro j v hv
        obtain ⟨hj, rfl⟩ := List.getElem?_eq_some_iff.mp hv
        constructor
        · intro hle
          rcases Nat.lt_or_eq_of_le hle with hlt | rfl
          · exact pairwise_iff_getElem.mp hsorted j m hj (by omega) hlt
          · exact le_refl _
        · intro hle
          rcases Nat.lt_or_eq_of_le hle with hlt | rfl
          · exact pairwise_iff_getElem.mp hsorted m j (by omega) hj hlt
          · exact le_refl _
      rcases lt_trichotomy values[m] value with hless | heq | hgreater
      · rw [if_pos (by have := Fin.lt_def.mp hless; omega)]
        refine @ih (m + 1) high m (by omega) hhigh (by omega) (fun j v hv => ?_) (.inr (by omega))
        refine ⟨fun hj => lt_of_le_of_lt ((horder j v hv).1 (by omega)) hless, (hsplit j v hv).2⟩
      · rw [if_neg (by rw [heq]; omega), if_neg (by rw [heq]; omega)]
        exact .inl ⟨m, rfl, by rw [hget, heq]⟩
      · have hval := Fin.lt_def.mp hgreater
        rw [if_neg (by omega), if_pos (by omega)]
        refine @ih low m m (by omega) (by omega) (by omega) (fun j v hv => ?_) (.inr (by omega))
        exact ⟨(hsplit j v hv).1, fun hj => lt_of_lt_of_le hgreater ((horder j v hv).2 hj)⟩
    · rw [if_neg (by omega)]
      have hsame : high = low := by omega
      subst hsame
      exact .inr ⟨high, index, rfl, hsplit, hprobed⟩

theorem sorted_array.FindInternal_spec (a : sorted_array) (value : BlockNumber) (garbage : Int) :
    (∃ i : Nat, FindInternal a.values value garbage = some (true, (i : Int)) ∧
        a.values[i]? = some value) ∨
      ∃ (p : Nat) (i : Int), FindInternal a.values value garbage = some (false, i) ∧
        SplitsAt a.values value p p ∧ Probed a.values.length p p i := by
  have hfits := a.fits
  unfold FindInternal
  rw [wrapInt32_of_lt (by omega) (by omega)]
  refine findLoop_spec a.ascending (by omega) (Nat.zero_le _) (Nat.le_refl _) (by omega)
    (fun j v hv => ⟨fun hj => absurd hj (Nat.not_lt_zero j), fun hj => ?_⟩) (.inl ⟨rfl, rfl⟩)
  obtain ⟨hlt, -⟩ := List.getElem?_eq_some_iff.mp hv
  omega

/-! ## The array stays sorted -/

theorem insert_ascending (h : values.Pairwise (· ≤ ·)) {i : Nat}
    (hbefore : ∀ j v, values[j]? = some v → j < i → v ≤ value)
    (hbehind : ∀ j v, values[j]? = some v → i ≤ j → value ≤ v) :
    (values.take i ++ value :: values.drop i).Pairwise (· ≤ ·) ∧
      (values.take i ++ value :: values.drop i).Perm (value :: values) := by
  have htake : ∀ v ∈ values.take i, v ≤ value := by
    intro v hv
    obtain ⟨j, hj, rfl⟩ := mem_take_iff_getElem.mp hv
    exact hbefore j _ (getElem?_eq_getElem (by omega)) (by omega)
  have hdrop : ∀ v ∈ values.drop i, value ≤ v := by
    intro v hv
    obtain ⟨j, hj, rfl⟩ := mem_drop_iff_getElem.mp hv
    exact hbehind (i + j) _ (getElem?_eq_getElem (by omega)) (by omega)
  constructor
  · refine pairwise_append.mpr ⟨h.take, pairwise_cons.mpr ⟨hdrop, h.drop⟩, fun v hv w hw => ?_⟩
    rcases mem_cons.mp hw with rfl | hw
    · exact htake v hv
    · exact le_trans (htake v hv) (hdrop w hw)
  · refine perm_middle.trans (Perm.cons _ ?_)
    rw [take_append_drop]

namespace sorted_array

variable (a : sorted_array) (garbage : Int)

theorem insert_spec (value : BlockNumber) : ∃ vs, a.Insert value garbage = some vs ∧
    vs.Pairwise (· ≤ ·) ∧ vs.Perm (value :: a.values) := by
  suffices h : ∃ i : Nat, a.insertIndex value garbage = some (i : Int) ∧
      (∀ j v, a.values[j]? = some v → j < i → v ≤ value) ∧
      (∀ j v, a.values[j]? = some v → i ≤ j → value ≤ v) by
    obtain ⟨i, hi, hbefore, hbehind⟩ := h
    refine ⟨_, ?_, insert_ascending a.ascending hbefore hbehind⟩
    rw [Insert, hi]
    rfl
  unfold insertIndex
  split
  · rcases FindInternal_spec a value garbage with ⟨i, hfind, hi⟩ | ⟨p, i, hfind, hsplit, hprobed⟩
    · refine ⟨i, by rw [hfind]; rfl, fun j v hv hj => ?_, fun j v hv hj => ?_⟩
      · obtain ⟨hj', rfl⟩ := List.getElem?_eq_some_iff.mp hv
        obtain ⟨hi', rfl⟩ := List.getElem?_eq_some_iff.mp hi
        exact pairwise_iff_getElem.mp a.ascending j i hj' hi' hj
      · obtain ⟨hj', rfl⟩ := List.getElem?_eq_some_iff.mp hv
        obtain ⟨hi', rfl⟩ := List.getElem?_eq_some_iff.mp hi
        rcases Nat.lt_or_eq_of_le hj with hlt | rfl
        · exact pairwise_iff_getElem.mp a.ascending i j hi' hj' hlt
        · exact le_refl _
    · refine ⟨p, ?_, fun j v hv hj => ((hsplit j v hv).1 hj).le,
        fun j v hv hj => ((hsplit j v hv).2 hj).le⟩
      -- the last probe is in front of the place, or at it
      rcases hprobed with ⟨hp, hcount⟩ | ⟨hpos, hlt, hnext⟩
      · omega
      · have hget : a.values[i.toNat]? = some a.values[i.toNat] := getElem?_eq_getElem (by omega)
        rw [hfind, Option.bind_some, if_neg Bool.false_ne_true, valueOf, if_pos hpos, hget,
          Option.map_some]
        rcases hnext with hnext | hnext
        · rw [if_pos ((hsplit _ _ hget).1 (by omega)).le, hnext]
        · rw [if_neg (not_le.mpr ((hsplit _ _ hget).2 (by omega))), hnext]
  · refine ⟨_, rfl, fun j v hv hj => ?_, fun j v hv hj => ?_⟩
    · obtain ⟨hj', rfl⟩ := List.getElem?_eq_some_iff.mp hv
      simpa using not_of_lt_findIdx hj
    · obtain ⟨hj', rfl⟩ := List.getElem?_eq_some_iff.mp hv
      have hi : a.values.findIdx (fun v => v > value) < a.values.length := by omega
      have hfirst : value < a.values[a.values.findIdx fun v => v > value] := by
        simpa using findIdx_getElem (w := hi)
      rcases Nat.lt_or_eq_of_le hj with hlt | heq
      · exact hfirst.le.trans (pairwise_iff_getElem.mp a.ascending _ j hi hj' hlt)
      · rw [← getElem_congr_idx heq]
        exact hfirst.le

theorem find_spec (value : BlockNumber) :
    (value ∈ a.values ∧ ∃ i : Nat, a.Find value garbage = some (i : Int) ∧
        a.values[i]? = some value) ∨
      (value ∉ a.values ∧ a.Find value garbage = some (-1)) := by
  unfold Find
  rcases FindInternal_spec a value garbage with ⟨i, hfind, hi⟩ | ⟨p, i, hfind, hsplit, -⟩
  · exact .inl ⟨mem_of_getElem? hi, i, by rw [hfind]; rfl, hi⟩
  · refine .inr ⟨fun hmem => ?_, by rw [hfind]; rfl⟩
    obtain ⟨j, hj⟩ := getElem?_of_mem hmem
    obtain ⟨hlow, hhigh⟩ := hsplit j value hj
    rcases Nat.lt_or_ge j p with h | h
    · exact lt_irrefl _ (hlow h)
    · exact lt_irrefl _ (hhigh h)

theorem remove_spec (value : BlockNumber) :
    (value ∈ a.values ∧ ∃ vs, a.Remove value garbage = some (true, vs) ∧
        vs.Pairwise (· ≤ ·) ∧ (value :: vs).Perm a.values) ∨
      (value ∉ a.values ∧ a.Remove value garbage = some (false, a.values)) := by
  unfold Remove
  rcases find_spec a garbage value with ⟨hmem, i, hfind, hi⟩ | ⟨hnot, hfind⟩
  · refine .inl ⟨hmem, a.values.take i ++ a.values.drop (i + 1), ?_, ?_, ?_⟩
    · rw [hfind, Option.map_some, if_neg (by omega)]
      rfl
    · rw [← eraseIdx_eq_take_drop_succ]
      exact a.ascending.sublist (eraseIdx_sublist ..)
    · obtain ⟨hlt, hget⟩ := List.getElem?_eq_some_iff.mp hi
      refine perm_middle.symm.trans ?_
      rw [← hget, ← drop_eq_getElem_cons hlt, take_append_drop]
  · exact .inr ⟨hnot, by rw [hfind]; rfl⟩

/-- The three functions on a sorted array: it stays sorted, and has one more or one less of the
value. -/
theorem keeps_sorted (value : BlockNumber) :
    (∃ vs, a.Insert value garbage = some vs ∧ vs.Pairwise (· ≤ ·) ∧ vs.Perm (value :: a.values)) ∧
      ((value ∈ a.values ∧ ∃ vs, a.Remove value garbage = some (true, vs) ∧
          vs.Pairwise (· ≤ ·) ∧ (value :: vs).Perm a.values) ∨
        (value ∉ a.values ∧ a.Remove value garbage = some (false, a.values))) ∧
      ((value ∈ a.values ∧ ∃ i : Nat, a.Find value garbage = some (i : Int) ∧
          a.values[i]? = some value) ∨
        (value ∉ a.values ∧ a.Find value garbage = some (-1))) :=
  ⟨insert_spec a garbage value, remove_spec a garbage value, find_spec a garbage value⟩

end sorted_array

end BFS
