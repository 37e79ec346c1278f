import OpenBeOS.BFS.JournalRun
import OpenBeOS.Lib.Bisect

/-! # Logging blocks

`Journal::LogBlocks()` with the `BlockArray` of the transaction and the blocks of the cache. A block
that is already in the array is skipped, so that its new contents get into the log only if the
caller has changed the cache's own block.
-/

namespace BFS

open Bisect Function List Option

/-! ## The array -/

/-- `sorted_array::FindInternal()` between `min` and `max` (exclusive): whether `value` is there,
and `index`. Block numbers are not negative, so that their difference is an `off_t`. -/
def FindInternal (values : List Int) (value : Int) : Nat → Nat → Nat → Nat → Bool × Nat
  | 0, _, _, index => (false, index)
  | fuel + 1, min, max, index =>
    if min < max then
      let index := (min + max - 1) / 2
      let cmp := values.getD index 0 - value
      if cmp < 0 then FindInternal values value fuel (index + 1) max index
      else if cmp > 0 then FindInternal values value fuel min index index
      else (true, index)
    else (false, index)

/-- A `BlockArray`; `fArray` is `NULL` if `fSize` is 0. -/
structure BlockArray where
  values : List Int
  fSize : Nat

/-- `sorted_array::Find()`, as far as `LogBlocks()` looks at it. -/
def BlockArray.Find (a : BlockArray) (value : Int) : Bool :=
  (FindInternal a.values value a.values.length 0 a.values.length 0).1

/-- The place `sorted_array::Insert()` inserts at. -/
def insertPlace (values : List Int) (value : Int) : Nat :=
  -- a binary search for more than 8 values
  if values.length > 8 then
    let found := FindInternal values value values.length 0 values.length 0
    if ¬ found.1 ∧ values.getD found.2 0 ≤ value then found.2 + 1 else found.2
  else (values.takeWhile fun v => ¬ v > value).length

/-- `sorted_array::Insert()`. -/
def sortedInsert (values : List Int) (value : Int) : List Int :=
  values.take (insertPlace values value) ++ value :: values.drop (insertPlace values value)

/-- The array has no memory for another value; `fMaxBlocks` is `fSize / sizeof(off_t) - 1`. -/
def BlockArray.Full (a : BlockArray) : Prop := a.fSize = 0 ∨ a.values.length + 1 > a.fSize / 8 - 1

instance (a : BlockArray) : Decidable a.Full := inferInstanceAs (Decidable (_ ∨ _))

/-- `BlockArray::Insert()`; `memory` is whether `realloc()` gets some. -/
def BlockArray.Insert (L : Log) (a : BlockArray) (memory : Bool) (value : Int) : Status × BlockArray :=
  if a.Full ∧ ¬ memory then (.B_NO_MEMORY, a)
  else (.B_OK, {
    values := sortedInsert a.values value
    fSize := if a.Full then a.fSize + L.blockSize else a.fSize })

/-- `Journal::TransactionSize()` of the array. -/
def BlockArray.TransactionSize (L : Log) (a : BlockArray) : Nat :=
  a.values.length + if a.fSize = 0 then 0 else L.BlocksUsed a.values.length

/-! ## `LogBlocks()` -/

/-- The array of the transaction, and what the cache has of the blocks. -/
structure LogState where
  fArray : BlockArray
  cache : Int → Block

/-- What a caller passes: a buffer of its own, or the block of the cache, which it has changed. -/
inductive LogBuffer where
  | user (blocks : List Block)
  | cached (content : Block)

/-- The contents of the buffer. -/
def LogBuffer.blocks : LogBuffer → List Block
  | user blocks => blocks
  | cached content => [content]

/-- A call of `LogBlocks()`, with the answers of `realloc()` and `cached_write_locked()`. -/
structure BlocksCall where
  blockNumber : Int
  buffer : LogBuffer
  memory : Int → Bool
  writeStatus : Int → Status

/-- The cache when the call comes. -/
def LogState.changed (s : LogState) (call : BlocksCall) : LogState :=
  match call.buffer with
  | .user _ => s
  | .cached content => { s with cache := update s.cache call.blockNumber content }

/-- The loop over the blocks. -/
def logLoop (L : Log) (call : BlocksCall) : LogState → Int → List Block → Status × LogState
  | s, _, [] => (.B_OK, s)
  | s, blockNumber, buffer :: blocks =>
    if s.fArray.Find blockNumber then logLoop L call s (blockNumber + 1) blocks
    else
      -- nobody looks at what the insertion says
      let s := { s with fArray := (s.fArray.Insert L (call.memory blockNumber) blockNumber).2 }
      if call.writeStatus blockNumber ≠ .B_OK then (call.writeStatus blockNumber, s)
      else logLoop L call { s with cache := update s.cache blockNumber buffer }
        (blockNumber + 1) blocks

/-- `Journal::LogBlocks()`, for a caller that may have changed the block of the cache. The flush at
its end leaves the blocks of the transaction, which are locked, in the cache. -/
def LogState.LogBlocks (L : Log) (s : LogState) (call : BlocksCall) : Status × LogState :=
  let s := s.changed call
  if (s.fArray.TransactionSize L + call.buffer.blocks.length + 1) % 2 ^ 32 > L.fLogSize then
    (.B_DEVICE_FULL, s)
  else logLoop L call s call.blockNumber call.buffer.blocks

/-- What `WriteLogEntry()` gets from the cache for a block. -/
def LogState.contents (s : LogState) (b : Int) : Option Block := some (s.cache b)

/-- The call of `WriteLogEntry()` for the array. -/
def LogState.logCall (s : LogState) (beyond : Nat → Int) (events : List CacheEvent)
    (spaceEvents : List (List CacheEvent)) (flushEvents : List CacheEvent) : LogCall where
  values := s.fArray.values
  beyond := beyond
  contents := s.contents
  events := events
  spaceEvents := spaceEvents
  flushEvents := flushEvents

/-! ## Binary search -/

/-- What the search asks for. -/
def probeValue (values : List Int) (value : Int) (i : Nat) : Option Int :=
  values[i]?.map fun v => value - v

/-- `FindInternal()` is a bisection; its index is the place to insert at, or the one in front. -/
theorem findInternal_search (values : List Int) (value : Int) :
    ∀ fuel min max index save : Nat, max ≤ values.length → max - min ≤ fuel →
      (min < max ∨ save = if values.getD index 0 ≤ value then index + 1 else index) →
      (∀ i, search (probeValue values value) fuel min max save = .found i →
        FindInternal values value fuel min max index = (true, i)) ∧
      (∀ i, search (probeValue values value) fuel min max save = .absent i →
        (FindInternal values value fuel min max index).1 = false ∧
        i = if values.getD (FindInternal values value fuel min max index).2 0 ≤ value then
          (FindInternal values value fuel min max index).2 + 1
          else (FindInternal values value fuel min max index).2) := by
  intro fuel
  induction fuel with
  | zero =>
    intro min max index save _ hfuel hindex
    have hsave := hindex.resolve_left (by omega)
    refine ⟨?_, fun i h => ?_⟩
    · intro i h
      cases h
    obtain rfl := Outcome.absent.inj h
    exact ⟨rfl, hsave⟩
  | succ fuel ih =>
    intro min max index save hmax hfuel hindex
    rw [search, FindInternal]
    by_cases hlt : min < max
    · rw [if_pos hlt, if_pos hlt]
      simp only
      generalize hi : (min + max - 1) / 2 = mid
      have hmid : min ≤ mid ∧ mid < max := by omega
      have hget : values[mid]? = some (values.getD mid 0) := by
        rw [getD_eq_getElem?_getD, List.getElem?_eq_getElem (by omega)]
        rfl
      have hprobe : probeValue values value mid = some (value - values.getD mid 0) := by
        rw [probeValue, hget, map_some]
      rw [hprobe]
      simp only
      rcases Int.lt_trichotomy (values.getD mid 0) value with hbelow | hequal | habove
      · rw [if_neg (by omega), if_pos (by omega), if_pos (by omega)]
        exact ih (mid + 1) max mid (mid + 1) hmax (by omega) (.inr (by rw [if_pos (by omega)]))
      · rw [if_neg (by omega), if_neg (by omega), if_neg (by omega), if_neg (by omega)]
        refine ⟨fun i h => ?_, fun i h => ?_⟩
        · rw [Outcome.found.inj h]
        · cases h
      · rw [if_pos (by omega), if_neg (by omega), if_pos (by omega)]
        exact ih min mid mid mid (by omega) (by omega) (.inr (by rw [if_neg (by omega)]))
    · rw [if_neg hlt, if_neg hlt]
      have hsave := hindex.resolve_left hlt
      refine ⟨?_, fun i h => ?_⟩
      · intro i h
        cases h
      obtain rfl := Outcome.absent.inj h
      exact ⟨rfl, hsave⟩

theorem exists_split {values : List Int} (hsorted : values.Pairwise (· < ·)) (value : Int) :
    ∃ lows highs, values = lows ++ highs ∧ (∀ v ∈ lows, v < value) ∧ ∀ v ∈ highs, value ≤ v := by
  refine ⟨values.takeWhile (· < value), values.dropWhile (· < value),
    takeWhile_append_dropWhile.symm, fun v hv => by simpa using mem_takeWhile_imp hv, ?_⟩
  intro v hv
  have hrest := hsorted.sublist (dropWhile_sublist (· < value))
  cases hdrop : values.dropWhile (· < value) with
  | nil =>
    rw [hdrop] at hv
    cases hv
  | cons head tail =>
    have hhead : ¬ head < value := by
      have hnot := List.head?_dropWhile_not (fun v => decide (v < value)) values
      rw [hdrop] at hnot
      simpa using hnot
    rw [hdrop] at hv hrest
    rcases mem_cons.mp hv with rfl | htail
    · omega
    · have := (pairwise_cons.mp hrest).1 v htail
      omega

section

variable {lows highs : List Int} {value : Int}

/-- The answers to the search are split where the array is. -/
theorem probe_splitAt (hsorted : (lows ++ highs).Pairwise (· < ·)) (hlow : ∀ v ∈ lows, v < value)
    (hhigh : ∀ v ∈ highs, value ≤ v) :
    SplitAt (probeValue (lows ++ highs) value) (lows ++ highs).length lows.length where
  le := by simp
  below := by
    intro i hi
    refine ⟨value - lows[i], ?_, ?_⟩
    · rw [probeValue, List.getElem?_append_left hi, List.getElem?_eq_getElem hi]
      rfl
    · have := hlow lows[i] (getElem_mem hi)
      omega
  behind := by
    intro i hi hlt
    rw [length_append] at hlt
    have hmem : i - lows.length < highs.length := by omega
    refine ⟨value - highs[i - lows.length], ?_, ?_⟩
    · rw [probeValue, List.getElem?_append_right (by omega), List.getElem?_eq_getElem hmem]
      rfl
    · -- it lies behind the first one of them
      have hfirst := hhigh highs[0] (getElem_mem (by omega))
      have := pairwise_iff_getElem.mp (pairwise_append.mp hsorted).2.1 0
        (i - lows.length) (by omega) hmem (by omega)
      omega
  at_split := by
    intro hlt
    rw [length_append] at hlt
    have hmem : 0 < highs.length := by omega
    refine ⟨value - highs[0], ?_, ?_⟩
    · rw [probeValue, List.getElem?_append_right (Nat.le_refl _), Nat.sub_self,
        List.getElem?_eq_getElem hmem]
      rfl
    · have := hhigh highs[0] (getElem_mem hmem)
      omega

/-- What the search finds. -/
theorem findInternal_spec (hsorted : (lows ++ highs).Pairwise (· < ·))
    (hlow : ∀ v ∈ lows, v < value) (hhigh : ∀ v ∈ highs, value ≤ v) (hne : lows ++ highs ≠ []) :
    ((FindInternal (lows ++ highs) value (lows ++ highs).length 0 (lows ++ highs).length 0).1 = true ↔
      value ∈ lows ++ highs) ∧
    (value ∉ lows ++ highs →
      lows.length = if (lows ++ highs).getD (FindInternal (lows ++ highs) value
            (lows ++ highs).length 0 (lows ++ highs).length 0).2 0 ≤ value then
          (FindInternal (lows ++ highs) value (lows ++ highs).length 0 (lows ++ highs).length 0).2 + 1
        else (FindInternal (lows ++ highs) value (lows ++ highs).length 0
          (lows ++ highs).length 0).2) := by
  have hpos := length_pos_iff.mpr hne
  obtain ⟨hfound, habsent⟩ := findInternal_search (lows ++ highs) value (lows ++ highs).length 0
    (lows ++ highs).length 0 0 (Nat.le_refl _) (Nat.sub_le ..) (.inl hpos)
  rw [search_all (probe_splitAt hsorted hlow hhigh)] at hfound habsent
  -- the value is there exactly if it is the first of the high ones
  have hmem : value ∈ lows ++ highs ↔ (lows.length < (lows ++ highs).length ∧
      probeValue (lows ++ highs) value lows.length = some 0) := by
    rw [probeValue, List.getElem?_append_right (Nat.le_refl _), Nat.sub_self, length_append,
      mem_append]
    cases highs with
    | nil => simpa using fun h => absurd (hlow value h) (by omega)
    | cons head tail =>
      have hhead := hhigh head (by simp)
      have htail := (pairwise_cons.mp (pairwise_append.mp hsorted).2.1).1
      simp only [List.getElem?_cons_zero, map_some, Option.some.injEq, length_cons, mem_cons]
      constructor
      · rintro (h | rfl | h)
        · exact absurd (hlow value h) (by omega)
        · omega
        · have := htail value h
          omega
      · intro h
        exact .inr (.inl (by omega))
  rw [hmem]
  by_cases hcase : lows.length < (lows ++ highs).length ∧
      probeValue (lows ++ highs) value lows.length = some 0
  · rw [outcomeAt, if_pos hcase] at hfound
    rw [hfound _ rfl]
    exact ⟨⟨fun _ => hcase, fun _ => rfl⟩, fun h => absurd hcase h⟩
  · rw [outcomeAt, if_neg hcase] at habsent
    obtain ⟨hnot, hindex⟩ := habsent _ rfl
    rw [hnot]
    exact ⟨⟨fun h => absurd h (by simp), fun h => absurd h hcase⟩, fun _ => hindex⟩

/-- A new value is inserted between the lower and the higher ones. -/
theorem sortedInsert_eq (hsorted : (lows ++ highs).Pairwise (· < ·)) (hlow : ∀ v ∈ lows, v < value)
    (hhigh : ∀ v ∈ highs, value ≤ v) (hnew : value ∉ lows ++ highs) :
    sortedInsert (lows ++ highs) value = lows ++ value :: highs := by
  have hplace : insertPlace (lows ++ highs) value = lows.length := by
    rw [insertPlace]
    by_cases hlong : (lows ++ highs).length > 8
    · rw [if_pos hlong]
      obtain ⟨hfound, hindex⟩ := findInternal_spec hsorted hlow hhigh
        (by intro hnil; rw [hnil] at hlong; simp at hlong)
      have hnot := mt hfound.mp hnew
      simp only [hnot, true_and, Bool.not_eq_true]
      rw [← hindex hnew]
    · rw [if_neg hlong]
      have hwhile : (lows ++ highs).takeWhile (fun v => decide (¬ v > value)) = lows := by
        rw [takeWhile_append_of_pos fun v hv => by have := hlow v hv; simp; omega]
        cases highs with
        | nil => simp
        | cons head tail =>
          have hhead := hhigh head (by simp)
          have hne : value ≠ head := fun heq => hnew (by simp [heq])
          rw [takeWhile_cons_of_neg (by simp; omega), append_nil]
      rw [hwhile]
  rw [sortedInsert, hplace, take_left, drop_left]

end

/-- **The array**: finding is membership. -/
theorem BlockArray.find_iff {a : BlockArray} (hsorted : a.values.Pairwise (· < ·)) (value : Int) :
    a.Find value = true ↔ value ∈ a.values := by
  obtain ⟨lows, highs, hvalues, hlow, hhigh⟩ := exists_split hsorted value
  rw [BlockArray.Find]
  rw [hvalues] at hsorted ⊢
  by_cases hne : lows ++ highs = []
  · rw [hne]
    simp [FindInternal]
  · have hspec := (findInternal_spec hsorted hlow hhigh hne).1
    exact hspec

theorem sortedInsert_spec {values : List Int} (hsorted : values.Pairwise (· < ·)) {value : Int}
    (hnew : value ∉ values) : (sortedInsert values value).Pairwise (· < ·) ∧
      ∀ v, v ∈ sortedInsert values value ↔ v = value ∨ v ∈ values := by
  obtain ⟨lows, highs, hvalues, hlow, hhigh⟩ := exists_split hsorted value
  rw [hvalues] at hsorted hnew ⊢
  rw [sortedInsert_eq hsorted hlow hhigh hnew]
  obtain ⟨hlows, hhighs, hapart⟩ := pairwise_append.mp hsorted
  refine ⟨pairwise_append.mpr ⟨hlows, pairwise_cons.mpr ⟨fun v hv => ?_, hhighs⟩,
    fun u hu v hv => ?_⟩, fun v => ?_⟩
  · have hle := hhigh v hv
    have hne : value ≠ v := fun heq => hnew (heq ▸ mem_append_right _ hv)
    omega
  · rcases mem_cons.mp hv with rfl | hv
    · exact hlow u hu
    · exact hapart u hu v hv
  · simp only [mem_append, mem_cons]
    tauto

/-! ## The loop -/

/-- The contents a list of blocks has for a block number. -/
def covered (blockNumber : Int) (blocks : List Block) (b : Int) : Option Block :=
  if blockNumber ≤ b then blocks[(b - blockNumber).toNat]? else none

/-- `BlockArray::Insert()` gets memory for each new block of the call. -/
def GetsMemory (L : Log) (call : BlocksCall) : BlockArray → Int → List Block → Prop
  | _, _, [] => True
  | a, blockNumber, _ :: blocks =>
    if a.Find blockNumber then GetsMemory L call a (blockNumber + 1) blocks
    else (a.Full → call.memory blockNumber = true) ∧
      GetsMemory L call (a.Insert L (call.memory blockNumber) blockNumber).2 (blockNumber + 1) blocks

theorem covered_self (blockNumber : Int) (buffer : Block) (blocks : List Block) :
    covered blockNumber (buffer :: blocks) blockNumber = some buffer := by
  simp [covered]

variable {call : BlocksCall} {b : Int}

theorem covered_ne {blockNumber : Int} {buffer : Block} {blocks : List Block}
    (h : b ≠ blockNumber) :
    covered blockNumber (buffer :: blocks) b = covered (blockNumber + 1) blocks b := by
  rw [covered, covered]
  by_cases hle : blockNumber + 1 ≤ b
  · rw [if_pos (by omega), if_pos hle,
      show (b - blockNumber).toNat = (b - (blockNumber + 1)).toNat + 1 by omega,
      List.getElem?_cons_succ]
  · rw [if_neg (by omega), if_neg hle]

theorem covered_below {blockNumber : Int} {blocks : List Block} (h : b < blockNumber) :
    covered blockNumber blocks b = none := by
  rw [covered, if_neg (by omega)]

theorem BlockArray.insert_spec (L : Log) {a : BlockArray} (hsorted : a.values.Pairwise (· < ·))
    (memory : Bool) {value : Int} (hnew : value ∉ a.values) :
    (a.Insert L memory value).2.values.Pairwise (· < ·) ∧
      ∀ v, v ∈ (a.Insert L memory value).2.values ↔
        v = value ∧ (a.Full → memory = true) ∨ v ∈ a.values := by
  rw [BlockArray.Insert]
  by_cases hfail : a.Full ∧ ¬ memory = true
  · rw [if_pos hfail]
    refine ⟨hsorted, fun v => ⟨.inr, fun h => h.resolve_left fun h => hfail.2 (h.2 hfail.1)⟩⟩
  · rw [if_neg hfail]
    obtain ⟨hsort, hmem⟩ := sortedInsert_spec hsorted hnew
    have hgets : a.Full → memory = true := fun hfull => by
      by_contra hno
      exact hfail ⟨hfull, hno⟩
    refine ⟨hsort, fun v => (hmem v).trans (or_congr_left ⟨fun h => ⟨h, hgets⟩, fun h => h.1⟩)⟩

/-- What the loop has done to the array and the cache when it succeeds. -/
structure Looped (L : Log) (call : BlocksCall) (s s' : LogState) (blockNumber : Int)
    (blocks : List Block) : Prop where
  sorted : s'.fArray.values.Pairwise (· < ·)
  kept : ∀ b, b ∈ s.fArray.values → b ∈ s'.fArray.values
  only : ∀ b, b ∈ s'.fArray.values →
    b ∈ s.fArray.values ∨ (covered blockNumber blocks b).isSome = true
  cache : ∀ b, s'.cache b = if b ∈ s.fArray.values then s.cache b
    else (covered blockNumber blocks b).getD (s.cache b)
  memory : GetsMemory L call s.fArray blockNumber blocks ↔
    ∀ b, (covered blockNumber blocks b).isSome = true → b ∈ s'.fArray.values

theorem logLoop_spec {L : Log} (blocks : List Block) :
    ∀ (s s' : LogState) (blockNumber : Int), s.fArray.values.Pairwise (· < ·) →
      logLoop L call s blockNumber blocks = (.B_OK, s') →
      Looped L call s s' blockNumber blocks := by
  induction blocks with
  | nil =>
    intro s s' blockNumber hsorted hloop
    obtain rfl : s = s' := congrArg Prod.snd hloop
    have hnone : ∀ b, covered blockNumber [] b = none := fun b => by simp [covered]
    exact {
      sorted := hsorted
      kept := fun _ h => h
      only := fun _ h => .inl h
      cache := fun b => by rw [hnone]; simp
      memory := by simp [GetsMemory, hnone] }
  | cons buffer blocks ih =>
    intro s s' blockNumber hsorted hloop
    rw [logLoop] at hloop
    by_cases hfind : s.fArray.Find blockNumber = true
    · rw [if_pos hfind] at hloop
      have hmem := (BlockArray.find_iff hsorted blockNumber).mp hfind
      have hrest := ih s s' (blockNumber + 1) hsorted hloop
      refine ⟨hrest.sorted, hrest.kept, fun b hb => ?_, fun b => ?_, ?_⟩
      · by_cases hself : b = blockNumber
        · exact .inl (hself ▸ hmem)
        · rw [covered_ne hself]
          exact hrest.only b hb
      · rw [hrest.cache]
        by_cases hself : b = blockNumber
        · rw [hself, if_pos hmem, if_pos hmem]
        · rw [covered_ne hself]
      · rw [GetsMemory, if_pos hfind, hrest.memory]
        refine forall_congr' fun b => ?_
        by_cases hself : b = blockNumber
        · rw [hself]
          exact ⟨fun _ _ => hrest.kept _ hmem, fun _ _ => hrest.kept _ hmem⟩
        · rw [covered_ne hself]
    · rw [if_neg hfind] at hloop
      have hnew := mt (BlockArray.find_iff hsorted blockNumber).mpr hfind
      obtain ⟨hsort, hinsert⟩ := BlockArray.insert_spec L hsorted (call.memory blockNumber) hnew
      simp only at hloop
      by_cases hwrite : call.writeStatus blockNumber ≠ .B_OK
      · rw [if_pos hwrite] at hloop
        exact absurd (congrArg Prod.fst hloop) hwrite
      rw [if_neg hwrite] at hloop
      have hrest := ih _ s' (blockNumber + 1) hsort hloop
      have hkept : ∀ b, b ∈ s.fArray.values → b ∈ s'.fArray.values := fun b hb =>
        hrest.kept b ((hinsert b).mpr (.inr hb))
      refine ⟨hrest.sorted, hkept, fun b hb => ?_, fun b => ?_, ?_⟩
      · by_cases hself : b = blockNumber
        · rw [hself, covered_self]
          exact .inr rfl
        · rw [covered_ne hself]
          rcases hrest.only b hb with hin | hcover
          · exact .inl (((hinsert b).mp hin).resolve_left fun h => hself h.1)
          · exact .inr hcover
      · have hcache := hrest.cache b
        simp only at hcache
        by_cases hself : b = blockNumber
        · subst hself
          rw [hcache, if_neg hnew, covered_self, covered_below (by omega)]
          simp
        · rw [hcache, covered_ne hself, update_of_ne hself]
          have hiff := (hinsert b).trans (or_iff_right fun h => hself h.1)
          simp only [hiff]
      · rw [GetsMemory, if_neg hfind, hrest.memory]
        constructor
        · rintro ⟨hgets, hall⟩ b hb
          by_cases hself : b = blockNumber
          · exact hrest.kept b ((hinsert b).mpr (.inl ⟨hself, hgets⟩))
          · rw [covered_ne hself] at hb
            exact hall b hb
        · intro hall
          refine ⟨?_, fun b hb => hall b ?_⟩
          · -- the block got into the array here or not at all
            have hin := hall blockNumber (by rw [covered_self]; rfl)
            rcases hrest.only blockNumber hin with hin | hcover
            · exact (((hinsert blockNumber).mp hin).resolve_right hnew).2
            · rw [covered_below (by omega)] at hcover
              cases hcover
          · have hself : b ≠ blockNumber := by
              rintro rfl
              rw [covered_below (by omega)] at hb
              cases hb
            rwa [covered_ne hself]

/-! ## Runs -/

/-- The contents the call has for a block. -/
def BlocksCall.content (call : BlocksCall) (b : Int) : Option Block :=
  covered call.blockNumber call.buffer.blocks b

/-- The contents of the last call that covered a block. -/
def lastLogged (calls : List BlocksCall) (b : Int) : Option Block :=
  calls.foldl (fun last call => (call.content b).orElse fun _ => last) none

/-- A call, if it returns `B_OK`. -/
def LogState.step (L : Log) (s : LogState) (call : BlocksCall) : Option LogState :=
  if (s.LogBlocks L call).1 = .B_OK then some (s.LogBlocks L call).2 else none

/-- A sequence of calls that all return `B_OK`. -/
def LogState.run (L : Log) (s : LogState) (calls : List BlocksCall) : Option LogState :=
  calls.foldlM (LogState.step L) s

/-- The claim about the state after some calls: the array is sorted and has each logged block once,
and for each of them the log gets the contents of the last call. -/
structure Records (calls : List BlocksCall) (s : LogState) : Prop where
  sorted : s.fArray.values.Pairwise (· < ·)
  logged : ∀ b, b ∈ s.fArray.values ↔ (lastLogged calls b).isSome = true
  contents : ∀ b ∈ s.fArray.values, s.contents b = lastLogged calls b

/-- What a call has to meet: a block of the array is passed as the block of the cache, or with the
contents it has there, and the array gets memory. -/
structure Meets (L : Log) (s : LogState) (call : BlocksCall) : Prop where
  same : ∀ b ∈ s.fArray.values, ∀ content, call.content b = some content →
    call.buffer = .cached content ∨ s.cache b = content
  memory : GetsMemory L call s.fArray call.blockNumber call.buffer.blocks

theorem changed_fArray (s : LogState) (call : BlocksCall) : (s.changed call).fArray = s.fArray := by
  rw [LogState.changed]
  cases call.buffer <;> rfl

theorem changed_cache (s : LogState) (call : BlocksCall) (h : call.content b = none) :
    (s.changed call).cache b = s.cache b := by
  rw [BlocksCall.content] at h
  rw [LogState.changed]
  cases hbuffer : call.buffer with
  | user blocks => rfl
  | cached content =>
    have hne : b ≠ call.blockNumber := by
      rintro rfl
      rw [hbuffer, LogBuffer.blocks, covered_self] at h
      cases h
    exact update_of_ne hne ..

theorem changed_same {s : LogState} {content : Block}
    (h : call.content b = some content) :
    (s.changed call).cache b = content ↔ call.buffer = .cached content ∨ s.cache b = content := by
  rw [BlocksCall.content] at h
  rw [LogState.changed]
  cases hbuffer : call.buffer with
  | user blocks => simp
  | cached content' =>
    rw [hbuffer, LogBuffer.blocks] at h
    have hself : b = call.blockNumber := by
      by_contra hne
      rw [covered_ne hne] at h
      simp [covered] at h
    subst hself
    rw [covered_self, Option.some.injEq] at h
    simp [h]

theorem lastLogged_snoc (calls : List BlocksCall) (call : BlocksCall) (b : Int) :
    lastLogged (calls ++ [call]) b = (call.content b).orElse fun _ => lastLogged calls b := by
  rw [lastLogged, foldl_append]
  rfl

theorem run_snoc (L : Log) (s : LogState) (calls : List BlocksCall) (call : BlocksCall) :
    s.run L (calls ++ [call]) = (s.run L calls).bind fun s' => s'.step L call := by
  rw [LogState.run, LogState.run, foldlM_append]
  cases calls.foldlM (LogState.step L) s with
  | none => rfl
  | some s' =>
    show (s'.step L call).bind (fun s => some s) = s'.step L call
    cases s'.step L call <;> rfl

/-- **One call** keeps the claim exactly if it meets the condition. -/
theorem records_step {L : Log} {calls : List BlocksCall} {s s' : LogState}
    (h : Records calls s) (hstep : s.step L call = some s') :
    Records (calls ++ [call]) s' ↔ Meets L s call := by
  have hloop : logLoop L call (s.changed call) call.blockNumber call.buffer.blocks = (.B_OK, s') := by
    rw [LogState.step] at hstep
    by_cases hok : (s.LogBlocks L call).1 = .B_OK
    · rw [if_pos hok, Option.some.injEq] at hstep
      rw [LogState.LogBlocks] at hok hstep
      split at hok
      · cases hok
      · rename_i hfits
        rw [if_neg hfits] at hstep
        exact Prod.ext hok hstep
    · rw [if_neg hok] at hstep
      cases hstep
  have hlooped := logLoop_spec _ _ _ _ (by rw [changed_fArray]; exact h.sorted) hloop
  have hkept := hlooped.kept
  have honly := hlooped.only
  have hcache := hlooped.cache
  have hmemory := hlooped.memory
  rw [changed_fArray] at hkept honly hcache hmemory
  constructor
  · intro hrecords
    refine ⟨fun b hb content hcontent => ?_, hmemory.mpr fun b hb => ?_⟩
    · have hlast := hrecords.contents b (hkept b hb)
      rw [lastLogged_snoc, hcontent, LogState.contents, hcache, if_pos hb] at hlast
      exact (changed_same hcontent).mp (Option.some.inj hlast)
    · refine (hrecords.logged b).mpr ?_
      obtain ⟨content, hcontent⟩ := isSome_iff_exists.mp hb
      rw [lastLogged_snoc, BlocksCall.content, hcontent]
      rfl
  · rintro ⟨hsame, hgets⟩
    have hall := hmemory.mp hgets
    refine ⟨hlooped.sorted, fun b => ?_, fun b hb => ?_⟩
    · rw [lastLogged_snoc]
      cases hcontent : call.content b with
      | none =>
        rw [orElse_none, ← h.logged]
        refine ⟨fun hb => (honly b hb).resolve_right fun hc => ?_, hkept b⟩
        rw [BlocksCall.content] at hcontent
        rw [hcontent] at hc
        cases hc
      | some content =>
        rw [orElse_some]
        refine ⟨fun _ => rfl, fun _ => hall b ?_⟩
        rw [BlocksCall.content] at hcontent
        rw [hcontent]
        rfl
    · rw [lastLogged_snoc, LogState.contents, hcache]
      cases hcontent : call.content b with
      | none =>
        have hin : b ∈ s.fArray.values := (honly b hb).resolve_right fun hc => by
          rw [BlocksCall.content] at hcontent
          rw [hcontent] at hc
          cases hc
        rw [if_pos hin, orElse_none, changed_cache s call hcontent]
        exact h.contents b hin
      | some content =>
        rw [orElse_some]
        by_cases hin : b ∈ s.fArray.values
        · rw [if_pos hin, (changed_same hcontent).mpr (hsame b hin content hcontent)]
        · rw [BlocksCall.content] at hcontent
          rw [if_neg hin, hcontent, getD_some]

/-- **The log gets the latest contents** after all calls of a run, and after each call in it, exactly
if every call meets the condition. -/
theorem LogState.records_iff {L : Log} {s₀ : LogState} (hempty : s₀.fArray.values = []) :
    ∀ {calls : List BlocksCall}, (s₀.run L calls).isSome = true →
      ((∀ calls' s, calls' <+: calls → s₀.run L calls' = some s → Records calls' s) ↔
        ∀ calls' call s, calls' ++ [call] <+: calls → s₀.run L calls' = some s → Meets L s call) := by
  intro calls
  induction calls using List.reverseRecOn with
  | nil =>
    intro _
    refine ⟨fun _ calls' call s hinitial => ?_, fun _ calls' s hinitial hrun => ?_⟩
    · simp at hinitial
    · obtain rfl := prefix_nil.mp hinitial
      obtain rfl : s₀ = s := Option.some.inj hrun
      exact ⟨by rw [hempty]; exact .nil, by simp [hempty, lastLogged], by simp [hempty]⟩
  | append_singleton calls call ih =>
    intro hsome
    obtain ⟨s', hs'⟩ := isSome_iff_exists.mp hsome
    rw [run_snoc] at hs'
    obtain ⟨s, hs, hstep⟩ := bind_eq_some_iff.mp hs'
    have ih := ih (by rw [hs]; rfl)
    constructor
    · intro hall
      have hbefore : ∀ calls' s, calls' <+: calls → s₀.run L calls' = some s → Records calls' s :=
        fun calls' s hinitial => hall calls' s (hinitial.trans (prefix_append ..))
      intro calls' call' t hinitial hrun
      rcases prefix_concat_iff.mp hinitial with hlast | hearlier
      · obtain ⟨rfl, hcall⟩ := append_inj' hlast rfl
        obtain rfl := singleton_inj.mp hcall
        rw [hs] at hrun
        cases hrun
        refine (records_step (hbefore calls' s prefix_rfl hs) hstep).mp
          (hall _ s' prefix_rfl ?_)
        rw [run_snoc, hs]
        exact hstep
      · exact ih.mp hbefore calls' call' t hearlier hrun
    · intro hall
      have hbefore := ih.mpr fun calls' call' t hinitial =>
        hall calls' call' t (hinitial.trans (prefix_append ..))
      intro calls' t hinitial hrun
      rcases prefix_concat_iff.mp hinitial with rfl | hearlier
      · rw [run_snoc, hs] at hrun
        cases hstep.symm.trans hrun
        exact (records_step (hbefore calls s prefix_rfl hs) hstep).mpr
          (hall calls call s prefix_rfl hs)
      · exact hbefore calls' t hearlier hrun

/-- Block 5 is logged from a buffer that is filled with the value. -/
def logFive (value : Int) : BlocksCall where
  blockNumber := 5
  buffer := .user [fun _ => value]
  memory := fun _ => true
  writeStatus := fun _ => .B_OK

/-- Nothing is logged yet. -/
def noneLogged : LogState := ⟨⟨[], 0⟩, fun _ _ => 0⟩

theorem LogState.records_iff_five :
    (∀ calls' s, calls' <+: [logFive 1, logFive 2] → noneLogged.run log2048 calls' = some s →
      Records calls' s) ↔
    ∀ calls' call s, calls' ++ [call] <+: [logFive 1, logFive 2] →
      noneLogged.run log2048 calls' = some s → Meets log2048 s call :=
  LogState.records_iff rfl rfl

/-- What is logged the second time is lost. -/
theorem LogState.not_records : ¬ ∀ (L : Log) (s₀ : LogState) (calls : List BlocksCall)
    (s : LogState), s₀.fArray.values = [] → s₀.run L calls = some s → Records calls s := by
  intro hclaim
  have hrecords := hclaim log2048 noneLogged [logFive 1, logFive 2]
    ⟨⟨[5], 1024⟩, update (fun _ _ => 0) 5 fun _ => 1⟩ rfl rfl
  have hcontents := hrecords.contents 5 (mem_singleton_self 5)
  have hword := congrArg (Option.map fun block => block 0) hcontents
  exact absurd hword (by decide)

/-- **`WriteLogEntry()`** writes these contents: the log has the entry of the array and the cache's
blocks behind its end. -/
theorem logCall_inLog {L : Log} {j : Journal} (s : LogState) (beyond : Nat → Int)
    (events : List CacheEvent) (spaceEvents : List (List CacheEvent))
    (flushEvents : List CacheEvent) (hend : j.LogEnd < L.fLogSize)
    (hsize : L.TransactionSize s.fArray.values.length ≤ L.fLogSize) (id : Nat) :
    ((s.logCall beyond events spaceEvents flushEvents).logged id j.LogEnd).InLog L
      (j.writeEntry L (s.logCall beyond events spaceEvents flushEvents)).2.2 := by
  refine ((writeEntry_spec hend hsize id).2 ?_).2
  rw [writeEntry_complete]
  exact List.all_eq_true.mpr fun _ _ => rfl

end BFS
